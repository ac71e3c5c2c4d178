import Crusadia.Cos.Globals
import Crusadia.Cos.Metadata

/-!
# Crusadia.Cos.Loaded

**The file system in memory and the one on the drive.** The driver keeps a copy of the
superblock and of the inode bitmap. `Cos.Loaded L s` says that the drive holds a sound file
system and that both copies agree with it; `Cos.Holds L s` is the part of it that is on the
drive, which `init_fs` makes a loaded one of. Every call on a loaded drive leaves it loaded,
but for a write that overruns the drive and zeroes sector 0.
-/

namespace Crusadia

namespace Cos

variable {L : Layout} {s s' : Cos}

/-- The drive holds the file system that is in memory. -/
structure Loaded (L : Layout) (s : Cos) : Prop where
  sound : Sound L s
  boot : Superblock.decode (s.blockRead 0) = L.sb

/-- The drive holds a file system, whatever is in memory. -/
def Holds (L : Layout) (s : Cos) : Prop :=
  ∃ bm c, Loaded L { s with
    inodeBitmap := bm, gSuperblock := L.sb, blockBitmapSectors := L.bbs,
      inodeBitmapSectors := L.ibs,
    gCurrentDir := c }

theorem Loaded.holds (h : Loaded L s) : Holds L s := by
  obtain ⟨v, hrep, -⟩ := h.sound
  refine ⟨s.inodeBitmap, s.gCurrentDir, ?_⟩
  rw [← hrep.sb, ← hrep.bbs, ← hrep.ibs]
  exact h

theorem Loaded.setCwd (h : Loaded L s) (d : Nat) : Loaded L { s with gCurrentDir := d } := by
  obtain ⟨v, hrep, hv⟩ := h.sound
  exact ⟨⟨_, hrep.setCwd d, hv.cwd d⟩, h.boot⟩

/-- Only what the blocks hold matters. -/
theorem Loaded.congr (h : Loaded L s) {disk : Disk} (hread : ∀ a, disk.read a = s.blockRead a) :
    Loaded L { s with disk } := by
  obtain ⟨v, hrep, hv⟩ := h.sound
  refine ⟨⟨v, ⟨hrep.sb, hrep.bbs, hrep.ibs, hrep.cwd, (hread 0).trans hrep.boot, fun b hb => ?_,
    hrep.used, fun k hk => (hread _).trans (hrep.sync k hk), fun i hi => ?_,
    fun b h1 h2 => (hread b).trans (hrep.blk b h1 h2)⟩, hv⟩, ?_⟩
  · exact (congrArg (Buf.bit · (b % 4096)) (hread _)).trans (hrep.bit b hb)
  · exact (congrArg (fun x : Sector => Inode.mk (x.slice (i % inodesPerBlock * inodeSize) 128))
      (hread _)).trans (hrep.ino i hi)
  · exact (congrArg Superblock.decode (hread 0)).trans h.boot

theorem Holds.congr (h : Holds L s) (hread : ∀ a, s'.blockRead a = s.blockRead a) :
    Holds L s' := by
  obtain ⟨bm, c, h⟩ := h
  obtain ⟨v, hrep, hv⟩ := (h.congr hread).sound
  exact ⟨bm, c, ⟨v, ⟨hrep.sb, hrep.bbs, hrep.ibs, hrep.cwd, hrep.boot, hrep.bit, hrep.used,
    hrep.sync, hrep.ino, hrep.blk⟩, hv⟩, (h.congr hread).boot⟩

/-- Sector 0 is written with the same superblock, as when the VFS header changes. -/
theorem Loaded.writeBoot (h : Loaded L s) {sec : Sector} (hsec : Superblock.decode sec = L.sb) :
    Loaded L (s.blockWrite 0 sec) := by
  obtain ⟨v, hrep, hv⟩ := h.sound
  refine ⟨⟨_, hrep.writeBoot sec, hv.congr ?_ ?_ ?_ ?_⟩, ?_⟩
  · exact fun _ _ => rfl
  · exact fun _ _ => rfl
  · exact fun _ _ => rfl
  · exact fun _ _ _ => rfl
  · rw [Rep.blockRead_blockWrite_same]
    exact hsec

theorem Holds.writeBoot (h : Holds L s) {sec : Sector} (hsec : Superblock.decode sec = L.sb) :
    Holds L (s.blockWrite 0 sec) := by
  obtain ⟨bm, c, h⟩ := h
  exact ⟨bm, c, h.writeBoot hsec⟩

/-! ### Loading -/

/-- `load_inode_bitmap` copies the sectors. -/
theorem loadInodeBitmap_slice (h64 : s.inodeBitmapSectors ≤ 64) :
    ∃ bm, s.loadInodeBitmap = { s with inodeBitmap := bm } ∧ ∀ k, k < s.inodeBitmapSectors →
      bm.slice (k * 512) 512 =
        s.blockRead (s.gSuperblock.bitmapStart + s.blockBitmapSectors + k) := by
  rw [loadInodeBitmap]
  generalize s.gSuperblock.bitmapStart + s.blockBitmapSectors = start
  have hfold : ∀ l : List Nat, l.foldl (fun s i => { s with
      inodeBitmap := s.inodeBitmap.splice (i * sectorSize) 512 (s.blockRead (start + i)).get }) s =
      { s with inodeBitmap := l.foldl (fun bm i =>
        bm.splice (i * 512) 512 (s.blockRead (start + i)).get) s.inodeBitmap } :=
    fun l => List.foldl_hom (fun bm : Buf 32768 => { s with inodeBitmap := bm }) fun _ _ => rfl
  exact ⟨_, hfold _, fun k hk =>
    Buf.slice_foldl_splice (fun i => s.blockRead (start + i)) _ (by omega) hk⟩

/-- `init_fs` on a drive with the sectors of `t` reads the file system of `t`. -/
theorem initFs_of_rep {t : Cos} {v : Img} (hrep : Rep L t v)
    (hread : ∀ a, s.blockRead a = t.blockRead a)
    (hboot : Superblock.decode (s.blockRead 0) = L.sb) :
    ∃ s1, Rep L s1 { v with cwd := s.gCurrentDir } ∧ s1.disk = s.disk ∧
      s1.driveSectors = s.driveSectors ∧
      s.initFs = if (v.ino 0).type = 2 then s1 else s1.createRoot := by
  obtain ⟨bm, heq, hbm⟩ := loadInodeBitmap_slice (s := { s with
    gSuperblock := L.sb
    blockBitmapSectors := L.bbs
    inodeBitmapSectors := L.ibs }) L.ibs_le
  have hsync : ∀ k, k < L.ibs → s.blockRead (1 + L.bbs + k) = bm.slice (k * 512) 512 := by
    intro k hk
    rw [hbm k hk, L.bitmapStart]
    rfl
  have hused : ∀ i, i < L.sb.inodeCount → bm.bit i = t.inodeBitmap.bit i := by
    intro i hi
    have hk : i / 4096 < L.ibs := by
      have := L.inodes
      omega
    have hslice := ((hsync _ hk).symm.trans (hread _)).trans (hrep.sync _ hk)
    have hbit := congrArg (Buf.bit · (i % 4096)) hslice
    rwa [Buf.bit_slice _ (by omega), Buf.bit_slice _ (by omega),
      show 8 * (i / 4096 * 512) + i % 4096 = i by omega] at hbit
  have hload : Rep L { s with
      inodeBitmap := bm, gSuperblock := L.sb, blockBitmapSectors := L.bbs,
      inodeBitmapSectors := L.ibs } { v with cwd := s.gCurrentDir } := by
    refine ⟨rfl, rfl, rfl, rfl, (hread 0).trans hrep.boot, fun b hb => ?_,
      fun i hi => (hused i hi).trans (hrep.used i hi), hsync, fun i hi => ?_,
      fun b h1 h2 => (hread b).trans (hrep.blk b h1 h2)⟩
    · refine (congrArg (Buf.bit · (b % 4096)) (hread _)).trans (Eq.trans ?_ (hrep.bit b hb))
      rw [blockBit, hrep.sb]
    · refine (congrArg (fun x : Sector => Inode.mk (x.slice (i % inodesPerBlock * inodeSize) 128))
        (hread _)).trans (Eq.trans ?_ (hrep.ino i hi))
      rw [readInode, hrep.sb]
  refine ⟨_, hload, rfl, rfl, ?_⟩
  have hpos := L.inodes_pos
  rw [Cos.initFs, hboot, loadFs, if_pos L.magic, ← L.bbs_eq, ← L.ibs_eq, heq]
  dsimp only
  rw [hload.ino 0 (by omega)]

/-- `init_fs` loads what the drive holds, and writes nothing. -/
theorem Holds.initFs (h : Holds L s) :
    Loaded L s.initFs ∧ s.initFs.disk = s.disk ∧ s.initFs.driveSectors = s.driveSectors := by
  obtain ⟨bm, c, h⟩ := h
  obtain ⟨v, hrep, hv⟩ := h.sound
  obtain ⟨s1, hrep1, hdisk, hsectors, heq⟩ := initFs_of_rep (s := s) hrep (fun _ => rfl) h.boot
  rw [heq, if_pos hv.root.type]
  refine ⟨⟨⟨_, hrep1, hv.cwd _⟩, ?_⟩, hdisk, hsectors⟩
  rw [blockRead, hdisk]
  exact h.boot

end Cos

namespace Rep

variable {L : Layout} {s : Cos} {v : Img}

/-- `save_inode_bitmap` writes what is there. -/
theorem saveInodeBitmap_same (hrep : Rep L s v) :
    ∃ disk, s.saveInodeBitmap = { s with disk } ∧ ∀ a, disk.read a = s.blockRead a := by
  obtain ⟨disk, heq, hread⟩ := Cos.saveInodeBitmap_spec s
  refine ⟨disk, heq, fun a => ?_⟩
  rw [hread, hrep.sb, hrep.bbs, hrep.ibs, L.bitmapStart]
  split
  · rename_i ha
    rw [← hrep.sync _ (by omega), show 1 + L.bbs + (a - (1 + L.bbs)) = a by omega]
  · rfl

/-- `create_root` on a drive without data blocks that has been through it already. -/
theorem createRoot_bare (hrep : Rep L s v) (hv : v.Bare L) :
    Rep L s.createRoot v ∧ ∀ a, s.createRoot.blockRead a = s.blockRead a := by
  have hpos := L.inodes_pos
  have hset : s.inodeBitmap.put8 0 (s.inodeBitmap.get 0 ||| 1) = s.inodeBitmap :=
    Buf.setBit_of_bit (k := 0) (by omega) ((hrep.used 0 (by omega)).trans hv.root)
  have hused : v.setUsed 0 true = v := by
    rw [Img.setUsed]
    congr
    exact Function.update_eq_self_iff.mpr hv.root.symm
  have hrep' := hrep.createRoot_none hv.firstFree
  rw [hused] at hrep'
  refine ⟨hrep', fun a => ?_⟩
  obtain ⟨disk, heq, hread⟩ := hrep.saveInodeBitmap_same
  have hsave := hrep.saveInodeBitmap s.inodeBitmap v.used hrep.used
  have hnone := hsave.allocBlock_of_none hv.firstFree
  rw [Cos.createRoot, hset]
  show Cos.blockRead (if s.saveInodeBitmap.allocBlock.1 = 0 then s.saveInodeBitmap.allocBlock.2
    else _) a = _
  have hnone' : s.saveInodeBitmap.allocBlock = (0, s.saveInodeBitmap) := hnone
  rw [hnone', if_pos rfl, heq]
  exact hread a

end Rep

namespace Cos

variable {L : Layout} {s : Cos}

/-! ### Calls -/

/-- `fs_write` is called for a file in use and does not overrun the drive. -/
def WriteOk (L : Layout) (s : Cos) (i o : Nat) (data : List Byte) : Prop :=
  s.FileInode i ∧ ¬ ∃ k, s.img.Overrun L i o data k

theorem Loaded.fsWrite (h : Loaded L s) {i o : Nat} {data : List Byte} (ho : o < 2 ^ 32)
    (hok : WriteOk L s i o data) : Loaded L (s.fsWrite i o data).2 := by
  refine ⟨h.sound.step ⟨.write i o data, ⟨hok.1, ho⟩, rfl⟩, ?_⟩
  obtain ⟨hrep, hv⟩ := h.sound.img
  obtain ⟨hi, hu, -⟩ := hrep.fileInode_iff.mp hok.1
  rw [((hrep.fsWrite_metadata_iff hv hi hu ho data).mpr (Or.inr hok.2)).1]
  exact h.boot

theorem Loaded.fsDeleteIn (h : Loaded L s) {p : Nat} (hp : s.DirInode p) (name : CStr) :
    Loaded L (s.fsDeleteIn p name).2 := by
  obtain ⟨v, hrep, hv⟩ := h.sound
  obtain ⟨v', hrep', hd⟩ := hrep.fsDeleteIn_spec hv (hrep.dirInode_iff.mp hp) name
  refine ⟨⟨v', hrep', hd.inv hv⟩, ?_⟩
  rw [hrep'.boot, hd.boot, ← hrep.boot]
  exact h.boot

theorem Loaded.fsCreateDir (h : Loaded L s) {p : Nat} (hp : s.DirInode p) (name : CStr) :
    Loaded L (s.fsCreateDir name p).2 := by
  obtain ⟨v, hrep, hv⟩ := h.sound
  have hd := hrep.dirInode_iff.mp hp
  obtain ⟨v', hrep', hc⟩ := hrep.fsCreateDir_spec hv hd name
  refine ⟨⟨v', hrep', hc.inv hv hd (Inode.fresh_blank 2) fun _ => rfl⟩, ?_⟩
  rw [hrep'.boot, hc.boot, ← hrep.boot]
  exact h.boot

theorem Loaded.fsCreateFile (h : Loaded L s) (hp : s.DirInode s.gCurrentDir) (name tag : CStr) :
    Loaded L (s.fsCreateFile name tag).2 := by
  refine ⟨h.sound.step ⟨.createFile s.gCurrentDir name tag, hp, rfl⟩, ?_⟩
  by_cases htag : tag.length = 0
  · rw [Cos.fsCreateFile, if_pos htag]
    exact h.boot
  · obtain ⟨v, hrep, hv⟩ := h.sound
    have hd := hrep.dirInode_iff.mp hp
    rw [hrep.cwd] at hd
    obtain ⟨v', hrep', hc⟩ := hrep.fsCreateFile_spec hv hd name tag htag
    rw [hrep'.boot, hc.boot, ← hrep.boot]
    exact h.boot

/-- A drive that was just formatted is loaded. -/
theorem loaded_qformatFs (s : Cos) (hsize : 6 ≤ s.driveSectors) :
    Loaded s.layout s.qformatFs := by
  obtain ⟨v, hrep, hv, hboot⟩ := Rep.qformatFs_ind s hsize
    (P := fun v => v.boot = s.layout.sb.encode) Img.born_boot
    fun _ h hc => hc.boot.trans h
  refine ⟨⟨v, hrep, hv⟩, ?_⟩
  rw [hrep.boot, hboot]
  exact Layout.decode_encode _

/-- **A reboot loses nothing.** After any run that left sector 0 alone, `init_fs` finds on the
drive, whatever is in memory, the inodes, the bitmap and the files there were, and writes
nothing. -/
theorem run_survives_reboot (s₀ : Cos) (hsize : 1024 ≤ s₀.driveSectors) {t : Cos} (hrun : Run s₀ s)
    (hboot : Superblock.decode (s.blockRead 0) = s.gSuperblock)
    (hread : ∀ a, t.blockRead a = s.blockRead a) :
    t.initFs.disk = t.disk ∧
      (∀ b, b < s.gSuperblock.totalBlocks → t.initFs.blockBit b = s.blockBit b) ∧
      ∀ i, (t.initFs.InUse i ↔ s.InUse i) ∧ (s.InUse i → t.initFs.readInode i = s.readInode i ∧
        ∀ off n, t.initFs.fsRead i (t.initFs.readInode i) off n =
          s.fsRead i (s.readInode i) off n) := by
  obtain ⟨v, hrep, hv⟩ := hrun.sound (by omega)
  obtain ⟨t', hrep', hdisk, -, heq⟩ := initFs_of_rep hrep hread (by rw [hread, hboot, hrep.sb])
  rw [heq, if_pos hv.root.type, hrep.sb]
  refine ⟨hdisk, fun b hb => (hrep'.bit b hb).trans (hrep.bit b hb).symm, fun i =>
    ⟨hrep'.inUse_iff.trans hrep.inUse_iff.symm, fun hi => ?_⟩⟩
  obtain ⟨hlt, hu⟩ := hrep.inUse_iff.mp hi
  rw [hrep'.ino i hlt, hrep.ino i hlt]
  exact ⟨rfl, fun off n => (hrep'.fsRead_eq (hv.cwd _).blocks hlt hu off n).trans
    (hrep.fsRead_eq hv.blocks hlt hu off n).symm⟩

theorem run_survives_reboot_formatted :
    let s := (zeroDrive 1024).qformatFs
    Cos.InUse { s with inodeBitmapSectors := 0 }.initFs 0 ↔ s.InUse 0 := by
  have h := loaded_qformatFs (zeroDrive 1024) (by decide)
  obtain ⟨v, hrep, -⟩ := h.sound
  have hreboot := fun s hrun hboot => run_survives_reboot (zeroDrive 1024)
    (Nat.le_refl _) (s := s) (t := { s with inodeBitmapSectors := 0 }) hrun hboot fun _ => rfl
  exact ((hreboot _ Relation.ReflTransGen.refl (h.boot.trans hrep.sb.symm)).2.2 0).1

end Cos

end Crusadia
