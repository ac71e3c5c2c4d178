import Crusadia.Cos.Loaded
import Crusadia.Host.Model

/-!
# Crusadia.Host.Bounds

**Which drives the host tool can open.** The arrays for the two bitmaps have 32768 bytes each, and
how much of them is used is up to the superblock, which `qformat_fs` writes for any drive. The inode
bitmap always has room, because both programs limit the number of inodes; the block bitmap has room
up to 262144 blocks (`mountFits_qformat_iff`).
-/

namespace Crusadia.Host

/-- The number of bytes that `load_block_bitmap` stores in `g_block_bitmap`. -/
def blockBitmapRead (h : Host) : Nat :=
  (h.loadBlockBitmapFrom h.gBlockBitmapSectors 0 h.gBlockBitmapBytes 0 h.gBlockBitmap).2

/-- The number of bytes that `load_inode_bitmap` stores in `g_inode_bitmap`, whole sectors. -/
def inodeBitmapRead (h : Host) : Nat := h.gInodeBitmapSectors * sectorSize

/-- `mount_image` opens the image, and it and everything later stay inside the two arrays. -/
def MountFits (image : Disk) : Prop :=
  ∃ h, mountImage image = some h ∧
    h.blockBitmapRead ≤ blockBitmapMaxSize ∧ h.inodeBitmapRead ≤ inodeBitmapSize ∧
    (∀ idx, idx < 2 ^ 32 → ∀ i, h.blockBitByte idx = some i → i < blockBitmapMaxSize) ∧
    ∀ idx, idx < h.gSb.inodeCount → idx / 8 < inodeBitmapSize

theorem loadBlockBitmapFrom_snd (h : Host) (count : Nat) : ∀ (i left dst : Nat) (bm : Buf 32768),
    (h.loadBlockBitmapFrom count i left dst bm).2 = dst + min left (512 * count) := by
  induction count with
  | zero =>
    intro i left dst bm
    rw [loadBlockBitmapFrom, Nat.mul_zero, Nat.min_zero, Nat.add_zero]
  | succ count ih =>
    intro i left dst bm
    rw [loadBlockBitmapFrom]
    have hsize : sectorSize = 512 := rfl
    by_cases hleft : left > sectorSize
    · simp only [ih, if_pos hleft]
      omega
    · simp only [ih, if_neg hleft]
      omega

/-- Loading changes the two bitmaps only. -/
theorem loadInodeBitmap_eq (h : Host) :
    ∃ bm, h.loadInodeBitmap = { h with gInodeBitmap := bm } := by
  rw [loadInodeBitmap]
  refine List.foldlRecOn (motive := fun t : Host => ∃ bm, t = { h with gInodeBitmap := bm })
    (List.range h.gInodeBitmapSectors) _ ⟨h.gInodeBitmap, rfl⟩ ?_
  rintro t ⟨bm, rfl⟩ k hk
  exact ⟨_, rfl⟩

theorem mountImage_eq {image : Disk} {sb : Superblock} (hsb : Superblock.decode (image.read 0) = sb)
    (hmagic : sb.magic = fsMagic) :
    ∃ bm bm', mountImage image = some
      { (start image).geometry sb with gBlockBitmap := bm, gInodeBitmap := bm' } := by
  obtain ⟨bm', heq⟩ := loadInodeBitmap_eq ((start image).geometry sb).loadBlockBitmap
  rw [mountImage, hsb, if_neg (not_not_intro hmagic), heq]
  exact ⟨_, bm', rfl⟩

theorem bitmapBytes_eq {total : Nat} (h : total ≤ 0xFFFFFFFE) :
    bitmapBytes total = (total + 7) / 8 := Nat.mod_eq_of_lt (by omega)

theorem bitmapSectors_eq {total : Nat} (h : total ≤ 0xFFFFFFFE) :
    bitmapSectors (bitmapBytes total) = Cos.bitmapSectors total := by
  rw [bitmapBytes_eq h, bitmapSectors, Cos.bitmapSectors, sectorSize, Nat.mod_eq_of_lt (by omega)]

theorem inodeSectors_eq {count : Nat} (h : count ≤ 262144) :
    inodeSectors count = Cos.inodeSectors count := by
  rw [inodeSectors, Cos.inodeSectors, sectorSize, Nat.mod_eq_of_lt (by omega)]

theorem tableBlocks_eq {count : Nat} (h : count ≤ 262144) :
    tableBlocks count = Cos.tableBlocks count := by
  rw [tableBlocks, Cos.tableBlocks, sectorSize, inodeSize, Nat.mod_eq_of_lt (by omega)]

/-- The bitmap sectors that the tool computes are those of the driver. -/
theorem geometry_sectors (L : Layout) : bitmapBytes L.sb.totalBlocks = (L.sb.totalBlocks + 7) / 8 ∧
    bitmapSectors (bitmapBytes L.sb.totalBlocks) = L.bbs ∧
      inodeSectors L.sb.inodeCount = L.ibs := by
  refine ⟨bitmapBytes_eq L.total, ?_, ?_⟩
  · rw [bitmapSectors_eq L.total, L.bbs_eq]
  · rw [inodeSectors_eq L.inodes_le, L.ibs_eq]

theorem mountFits_iff {image : Disk} (L : Layout)
    (hsb : Superblock.decode (image.read 0) = L.sb) :
    MountFits image ↔ L.sb.totalBlocks ≤ 8 * blockBitmapMaxSize := by
  obtain ⟨bm, bm', hmount⟩ := mountImage_eq hsb L.magic
  obtain ⟨hbytes, hbbs, hibs⟩ := geometry_sectors L
  rw [hbytes] at hbbs
  have hbits := L.bits
  have hinodes := L.inodes_le
  have hsize : blockBitmapMaxSize = 32768 := rfl
  simp only [MountFits, hmount, Option.some.injEq, exists_eq_left']
  rw [blockBitmapRead, loadBlockBitmapFrom_snd]
  simp only [inodeBitmapRead, blockBitByte, geometry, hbytes, hbbs, hibs]
  constructor
  · rintro ⟨hread, -⟩
    omega
  · intro hle
    refine ⟨by omega, ?_, fun idx _ i hi => ?_, fun idx hidx => ?_⟩
    · have := L.ibs_le
      rw [sectorSize, inodeBitmapSize]
      omega
    · split at hi
      · cases hi
      · cases hi
        omega
    · rw [inodeBitmapSize]
      omega

theorem totalBlocks_ofDrive {n : Nat} (h : n ≤ 2 ^ 32 - 2) :
    (Layout.ofDrive n).sb.totalBlocks = n := if_neg (by omega)

/-- The drives of 1024 sectors or more that `qformat_fs` formats and the tool can open. -/
theorem mountFits_qformat_iff (s : Cos) (hmin : 1024 ≤ s.driveSectors)
    (hmax : s.driveSectors ≤ 2 ^ 32 - 2) :
    MountFits s.qformatFs.disk ↔ s.driveSectors ≤ 8 * blockBitmapMaxSize := by
  have hload := Cos.loaded_qformatFs s (by omega)
  rw [mountFits_iff s.layout hload.boot, totalBlocks_ofDrive hmax]

/-- The smallest drive. -/
theorem mountFits_qformat_iff_smallest :
    MountFits (Cos.zeroDrive 1024).qformatFs.disk :=
  (mountFits_qformat_iff (Cos.zeroDrive 1024) (by simp [Cos.rawDrive])
    (by simp [Cos.rawDrive])).mpr (by simp [Cos.rawDrive, blockBitmapMaxSize])

/-- A drive of 262145 sectors: the bitmap that `mount_image` reads has one byte too many. -/
theorem not_mountFits_qformat :
    ¬ MountFits (Cos.zeroDrive 262145).qformatFs.disk := by
  -- the drive is kept general, so that nothing is formatted here
  have hgeneral : ∀ s : Cos, s.driveSectors = 262145 → ¬ MountFits s.qformatFs.disk := by
    intro s hs
    rw [mountFits_iff s.layout
      (Cos.loaded_qformatFs s (by omega)).boot, totalBlocks_ofDrive (by omega),
      blockBitmapMaxSize]
    omega
  exact hgeneral _ rfl

end Crusadia.Host
