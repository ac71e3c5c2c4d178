import Crusadia.Cos.Layout

/-!
# Crusadia.Cos.Image

The **filesystem image**: what a COS drive stores, region by region.

The driver reads and writes sectors; the arguments about it are about block bits,
inode bits, inodes and data blocks. `Img` has one function for each of these, and
`Rep L s v` says that state `s` stores image `v` in the regions of layout `L`, the
cached inode bitmap agreeing with the one on disk. Each primitive write of the
driver is one lemma `Rep.…` here: it changes one component of the image and nothing
else. Region arithmetic appears in this file only.
-/

namespace Crusadia

open Function (update)

/-- The contents of a COS drive. -/
structure Img where
  /-- Sector 0: the superblock and whatever shares its sector. -/
  boot : Sector
  /-- The block bitmap. -/
  bit : Nat → Bool
  /-- The inode bitmap. -/
  used : Nat → Bool
  /-- The inode table. -/
  ino : Nat → Inode
  /-- The data blocks. -/
  blk : Nat → Sector
  /-- `g_current_dir`. -/
  cwd : Nat

namespace Img

section

variable (v : Img)

def setBit (b : Nat) (x : Bool) : Img := { v with bit := update v.bit b x }
def setUsed (i : Nat) (x : Bool) : Img := { v with used := update v.used i x }
def setIno (i : Nat) (n : Inode) : Img := { v with ino := update v.ino i n }
def setBlk (b : Nat) (sec : Sector) : Img := { v with blk := update v.blk b sec }

theorem bit_setBit (b : Nat) (x : Bool) (c : Nat) :
    (v.setBit b x).bit c = if c = b then x else v.bit c := Function.update_apply ..

theorem used_setUsed (i : Nat) (x : Bool) (j : Nat) :
    (v.setUsed i x).used j = if j = i then x else v.used j := Function.update_apply ..

theorem ino_setIno (i : Nat) (n : Inode) (j : Nat) :
    (v.setIno i n).ino j = if j = i then n else v.ino j := Function.update_apply ..

theorem blk_setBlk (b : Nat) (sec : Sector) (c : Nat) :
    (v.setBlk b sec).blk c = if c = b then sec else v.blk c := Function.update_apply ..

end

end Img

namespace Cos

/-- Block `b`'s bit in the on-disk block bitmap. -/
def blockBit (s : Cos) (b : Nat) : Bool :=
  (s.blockRead (s.gSuperblock.bitmapStart + b / 4096)).bit (b % 4096)

end Cos

/-- State `s` stores image `v`. -/
structure Rep (L : Layout) (s : Cos) (v : Img) : Prop where
  sb : s.gSuperblock = L.sb
  bbs : s.blockBitmapSectors = L.bbs
  ibs : s.inodeBitmapSectors = L.ibs
  cwd : s.gCurrentDir = v.cwd
  boot : s.blockRead 0 = v.boot
  bit : ∀ b, b < L.sb.totalBlocks → s.blockBit b = v.bit b
  used : ∀ i, i < L.sb.inodeCount → s.inodeBitmap.bit i = v.used i
  sync : ∀ k, k < L.ibs → s.blockRead (1 + L.bbs + k) = s.inodeBitmap.slice (k * 512) 512
  ino : ∀ i, i < L.sb.inodeCount → s.readInode i = v.ino i
  blk : ∀ b, L.sb.dataStart ≤ b → b < L.sb.totalBlocks → s.blockRead b = v.blk b

/-- What the image and the inode bitmap in memory say about sector `a`. -/
structure Img.At (L : Layout) (v : Img) (m : Buf 32768) (a : Nat) (sec : Sector) : Prop where
  boot : a = 0 → sec = v.boot
  bit : ∀ b, b < L.sb.totalBlocks → a = 1 + b / 4096 → sec.bit (b % 4096) = v.bit b
  sync : ∀ k, k < L.ibs → a = 1 + L.bbs + k → sec = m.slice (k * 512) 512
  ino : ∀ i, i < L.sb.inodeCount → a = L.sb.inodeStart + i / 4 →
    Inode.mk (sec.slice (i % 4 * 128) 128) = v.ino i
  blk : L.sb.dataStart ≤ a → a < L.sb.totalBlocks → sec = v.blk a

namespace Rep

variable {L : Layout} {s : Cos} {v : Img} {sec : Sector} {b lba : Nat} {i : Nat}

/-- The current directory is not on the drive. -/
theorem setCwd (h : Rep L s v) (d : Nat) : Rep L { s with gCurrentDir := d } { v with cwd := d } :=
  ⟨h.sb, h.bbs, h.ibs, rfl, h.boot, h.bit, h.used, h.sync, h.ino, h.blk⟩

/-! ### The image, sector by sector -/

/-- The sector that holds block `b`'s bit, and the bits of it. -/
theorem bit_sector (h : Rep L s v) {c : Nat} (hc : c < L.sb.totalBlocks)
    (hbc : c / 4096 = b / 4096) : (s.blockRead (1 + b / 4096)).bit (c % 4096) = v.bit c := by
  rw [← h.bit c hc, Cos.blockBit, h.sb, L.bitmapStart, hbc]

theorem sector (h : Rep L s v) (a : Nat) : v.At L s.inodeBitmap a (s.blockRead a) where
  boot := by
    rintro rfl
    exact h.boot
  bit := by
    rintro b hb rfl
    exact h.bit_sector hb rfl
  sync := by
    rintro k hk rfl
    exact h.sync k hk
  ino := by
    rintro i hi rfl
    rw [← h.ino i hi, Cos.readInode, h.sb]
    rfl
  blk := h.blk a

theorem of_sectors (h : Rep L s v) {s' : Cos} {v' : Img} (hsb : s'.gSuperblock = s.gSuperblock)
    (hbbs : s'.blockBitmapSectors = s.blockBitmapSectors)
    (hibs : s'.inodeBitmapSectors = s.inodeBitmapSectors) (hcwd : s'.gCurrentDir = v'.cwd)
    (hused : ∀ i, i < L.sb.inodeCount → s'.inodeBitmap.bit i = v'.used i)
    (hat : ∀ a, v'.At L s'.inodeBitmap a (s'.blockRead a)) : Rep L s' v' where
  sb := hsb.trans h.sb
  bbs := hbbs.trans h.bbs
  ibs := hibs.trans h.ibs
  cwd := hcwd
  boot := (hat 0).boot rfl
  bit := fun b hb => by
    rw [Cos.blockBit, hsb, h.sb, L.bitmapStart]
    exact (hat _).bit b hb rfl
  used := hused
  sync := fun k hk => (hat _).sync k hk rfl
  ino := fun i hi => by
    rw [Cos.readInode, hsb, h.sb]
    exact (hat _).ino i hi rfl
  blk := fun b => (hat b).blk

theorem blockRead_blockWrite {a : Nat} (h : a ≠ lba) :
    (s.blockWrite lba sec).blockRead a = s.blockRead a :=
  Disk.read_write_ne h

theorem blockRead_blockWrite_same :
    (s.blockWrite lba sec).blockRead lba = sec :=
  Disk.read_write_same _ _ _

/-! ### Primitive writes -/

section

variable (h : Rep L s v)
include h

/-- Writing one sector, with the inode bitmap `m` in memory. -/
theorem write {m : Buf 32768} {v' : Img} (hcwd : v'.cwd = v.cwd)
    (hused : ∀ i, i < L.sb.inodeCount → m.bit i = v'.used i) (hself : v'.At L m lba sec)
    (hother : ∀ a sec, a ≠ lba → v.At L s.inodeBitmap a sec → v'.At L m a sec) :
    Rep L ({ s with inodeBitmap := m }.blockWrite lba sec) v' := by
  refine h.of_sectors rfl rfl rfl (h.cwd.trans hcwd.symm) hused fun a => ?_
  by_cases ha : a = lba
  · subst ha
    rw [blockRead_blockWrite_same]
    exact hself
  · rw [blockRead_blockWrite ha]
    exact hother a _ ha (h.sector a)

/-- Writing a data block. -/
theorem writeBlk (sec : Sector) (h1 : L.sb.dataStart ≤ b)
    (h2 : b < L.sb.totalBlocks) : Rep L (s.blockWrite b sec) (v.setBlk b sec) := by
  obtain ⟨hino, hdata, hbits, hin⟩ := L.regions
  refine h.write rfl h.used ⟨by omega, by omega, by omega, by omega, fun _ _ => ?_⟩
    fun a _ ha hs => ⟨hs.boot, hs.bit, hs.sync, hs.ino, fun h1 h2 => ?_⟩
  · rw [Img.blk_setBlk, if_pos rfl]
  · rw [Img.blk_setBlk, if_neg ha]
    exact hs.blk h1 h2

/-- Writing sector 0. -/
theorem writeBoot (sec : Sector) : Rep L (s.blockWrite 0 sec) { v with boot := sec } := by
  obtain ⟨hino, hdata, hbits, hin⟩ := L.regions
  have hds := L.dataStart_gt
  exact h.write rfl h.used ⟨fun _ => rfl, by omega, by omega, by omega, by omega⟩
    fun a _ ha hs => ⟨fun h0 => absurd h0 ha, hs.bit, hs.sync, hs.ino, hs.blk⟩

/-- Writing one sector of the block bitmap, given what its bits are now. -/
theorem writeBitmap {k : Nat} {bit' : Nat → Bool} (hk : k < L.bbs)
    (hin : ∀ b, b < L.sb.totalBlocks → b / 4096 = k → sec.bit (b % 4096) = bit' b)
    (hout : ∀ b, b < L.sb.totalBlocks → b / 4096 ≠ k → bit' b = v.bit b) :
    Rep L (s.blockWrite (1 + k) sec) { v with bit := bit' } := by
  obtain ⟨hino, hdata, hbits, hin8⟩ := L.regions
  exact h.write rfl h.used
    ⟨by omega, fun b hb _ => hin b hb (by omega), by omega, by omega, by omega⟩
    fun a _ ha hs => ⟨hs.boot, fun b hb hab => (hs.bit b hb hab).trans (hout b hb (by omega)).symm,
      hs.sync, hs.ino, hs.blk⟩

/-- Setting block `b`'s bit in its bitmap sector. -/
theorem writeBit (hb : b < L.sb.totalBlocks) :
    Rep L (s.blockWrite (1 + b / 4096) ((s.blockRead (1 + b / 4096)).setBit (b % 4096)))
      (v.setBit b true) := by
  refine h.writeBitmap (L.bitmap_lt hb) ?_ ?_
  · intro c hc hcb
    rw [Buf.bit_setBit _ (by omega), h.bit_sector hc hcb]
    by_cases he : c = b
    · subst he
      simp
    · have : c % 4096 ≠ b % 4096 := by omega
      simp [this, he]
  · intro c _ hcb
    have : c ≠ b := fun he => hcb (by rw [he])
    simp [this]

/-- `set_block_bitmap_bit`. -/
theorem setBlockBitmapBit (hb : b < L.sb.totalBlocks) :
    Rep L (s.setBlockBitmapBit b) (v.setBit b true) := by
  simp only [Cos.setBlockBitmapBit, h.sb, L.bitmapStart, sectorSize]
  rw [if_neg (by omega), show b / 8 / 512 = b / 4096 by omega,
    show 8 * (b / 8 % 512) + b % 8 = b % 4096 by omega]
  exact h.writeBit hb

/-- `free_block`. -/
theorem freeBlock (hb : b < L.sb.totalBlocks) : Rep L (s.freeBlock b) (v.setBit b false) := by
  simp only [Cos.freeBlock, Cos.clearBlockBitmapBit, h.sb, L.bitmapStart, sectorSize]
  rw [if_neg (by omega), show b / 8 / 512 = b / 4096 by omega,
    show 8 * (b / 8 % 512) + b % 8 = b % 4096 by omega]
  refine h.writeBitmap (L.bitmap_lt hb) ?_ ?_
  · intro c hc hcb
    rw [Buf.bit_clearBit _ (by omega), h.bit_sector hc hcb]
    by_cases he : c = b
    · subst he
      simp
    · have : c % 4096 ≠ b % 4096 := by omega
      simp [this, he]
  · intro c _ hcb
    have : c ≠ b := fun he => hcb (by rw [he])
    simp [this]

/-- `write_inode`. -/
theorem writeInode (n : Inode) (hi : i < L.sb.inodeCount) :
    Rep L (s.writeInode i n) (v.setIno i n) := by
  obtain ⟨hino, hdata, hbits, hin⟩ := L.regions
  simp only [Cos.writeInode, h.sb, inodesPerBlock, inodeSize]
  refine h.write rfl h.used ⟨by omega, by omega, by omega, fun j hj ha => ?_, by omega⟩
    fun a _ ha hs => ⟨hs.boot, hs.bit, hs.sync, fun j hj haj => ?_, hs.blk⟩
  · -- the slots of the sector are 128 bytes each and do not overlap
    by_cases hji : j = i
    · subst hji
      rw [Buf.slice_splice_same (by omega), Img.ino_setIno, if_pos rfl]
    · rw [Buf.slice_splice_disjoint (by omega), Img.ino_setIno, if_neg hji]
      exact (h.sector _).ino j hj ha
  · rw [Img.ino_setIno, if_neg (by rintro rfl; exact ha haj)]
    exact hs.ino j hj haj

/-- Changing one inode bit in memory and flushing its sector. -/
theorem flushInodeBitmapSector {x : Bool} {bm : Buf 32768}
    (hi : i < L.sb.inodeCount) (hbit : ∀ j, bm.bit j = if j = i then x else s.inodeBitmap.bit j)
    (hget : ∀ j, j ≠ i / 8 → bm.get j = s.inodeBitmap.get j) :
    Rep L ({ s with inodeBitmap := bm }.flushInodeBitmapSector i) (v.setUsed i x) := by
  obtain ⟨hino, hdata, hbits, hin⟩ := L.regions
  have hle := L.inodes
  have hif : ¬ i / 8 / 512 ≥ s.inodeBitmapSectors := by
    rw [h.ibs]
    omega
  have hstart : s.gSuperblock.bitmapStart + s.blockBitmapSectors = 1 + L.bbs := by
    rw [h.sb, L.bitmapStart, h.bbs]
  simp only [Cos.flushInodeBitmapSector, sectorSize, if_neg hif, hstart]
  refine h.write rfl (fun j hj => ?_) ⟨by omega, by omega, fun k hk ha => ?_, by omega, by omega⟩
    fun a _ ha hs => ⟨hs.boot, hs.bit, fun k hk hak => ?_, hs.ino, hs.blk⟩
  · rw [hbit, Img.used_setUsed, h.used j hj]
  · rw [show i / 8 / 512 = k by omega]
  · refine (hs.sync k hk hak).trans (Buf.ext_get fun j hj => ?_)
    rw [Buf.get_slice_lt _ hj, Buf.get_slice_lt _ hj, hget _ (by omega)]

end

/-- The inode bitmap's buffer has room for every inode. -/
theorem inode_lt_bitmap (hi : i < L.sb.inodeCount) : i < 8 * 32768 := by
  have := L.inodes_le
  omega

/-- `free_inode`. -/
theorem freeInode (h : Rep L s v) (hi : i < L.sb.inodeCount) :
    Rep L (s.freeInode i) (v.setUsed i false) := by
  rw [Cos.freeInode, if_neg (by rw [h.sb]; omega)]
  refine h.flushInodeBitmapSector hi ?_ ?_
  · intro j
    rw [Buf.bit_clearBit _ (inode_lt_bitmap hi)]
    by_cases hji : j = i <;> simp [hji]
  · intro j hj
    rw [Buf.clearBit, Buf.get_put8, if_neg (fun hh => hj hh.1)]

end Rep

end Crusadia
