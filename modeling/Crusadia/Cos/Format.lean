import Crusadia.Cos.Delete

/-!
# Crusadia.Cos.Format

`qformat_fs` **establishes the invariant** on any drive of at least six sectors, whatever
the drive held before: the bitmaps are cleared, the metadata blocks are marked used, and
the root and the five default directories are created. The `init_fs` at its end reads back
what is already in memory (`Rep.initFs_eq`). Data blocks, and inode table sectors past the
first 64, keep their old contents.
-/

namespace Crusadia

theorem Superblock.decode_encode {sb : Superblock} (h1 : sb.magic < 2 ^ 32)
    (h2 : sb.blockSize < 2 ^ 32) (h3 : sb.totalBlocks < 2 ^ 32) (h4 : sb.inodeCount < 2 ^ 32)
    (h5 : sb.bitmapStart < 2 ^ 32) (h6 : sb.inodeStart < 2 ^ 32) (h7 : sb.dataStart < 2 ^ 32) :
    Superblock.decode sb.encode = sb := by
  have hdiv : sb.totalBlocks / 2 ^ 32 = 0 := Nat.div_eq_of_lt h3
  rw [Superblock.decode, Superblock.encode]
  simp (disch := omega) only [Buf.get32_put32_out, Buf.get32_put32_same, hdiv,
    Nat.mod_eq_of_lt]
  simp

theorem Layout.decode_encode (L : Layout) : Superblock.decode L.sb.encode = L.sb := by
  have h1 := L.total
  have h2 := L.dataStart
  have h3 := L.inodes_le
  have h4 := L.inodeStart
  have h5 := L.bits_tight
  have h6 := L.ibs_le
  exact Superblock.decode_encode (by rw [L.magic]; decide)
    (by rw [L.blockSize]; decide) (by omega) (by omega) (by rw [L.bitmapStart]; omega) (by omega)
    (by omega)

/-- A superblock sector is not blank: it has the magic number. -/
theorem Layout.encode_ne_zero (L : Layout) : L.sb.encode ≠ Buf.zero := by
  intro h
  have hmagic := congrArg (Buf.get32 · 0) h
  rw [Buf.get32_zero, Superblock.encode, L.magic] at hmagic
  simp (disch := omega) only [Buf.get32_put32_out, Buf.get32_put32_same] at hmagic
  exact absurd hmagic (by decide)

theorem Buf.splice_slice {n m : Nat} (b : Buf n) (off : Nat) :
    b.splice off m (b.slice off m : Buf m).get = b := by
  refine Buf.ext_get fun i _ => ?_
  rw [Buf.get_splice]
  split
  · rename_i h
    rw [Buf.get_slice_lt _ (by omega), show off + (i - off) = i by omega]
  · rfl

/-- `load_inode_bitmap` changes the bitmap in memory and nothing else. -/
theorem Cos.loadInodeBitmap_fields (s : Cos) :
    ∃ bm, s.loadInodeBitmap = { s with inodeBitmap := bm } := by
  rw [Cos.loadInodeBitmap]
  refine List.foldlRecOn (motive := fun t : Cos => ∃ bm, t = { s with inodeBitmap := bm })
    (List.range s.inodeBitmapSectors) _ ⟨s.inodeBitmap, rfl⟩ ?_
  rintro t ⟨bm, rfl⟩ i -
  exact ⟨_, rfl⟩

/-- `save_inode_bitmap` writes the bitmap's sectors and nothing else. -/
theorem Cos.saveInodeBitmap_spec (s : Cos) :
    ∃ disk, s.saveInodeBitmap = { s with disk } ∧ ∀ a, disk.read a =
      if s.gSuperblock.bitmapStart + s.blockBitmapSectors ≤ a ∧
          a < s.gSuperblock.bitmapStart + s.blockBitmapSectors + s.inodeBitmapSectors
      then s.inodeBitmap.slice ((a - (s.gSuperblock.bitmapStart + s.blockBitmapSectors)) * 512) 512
      else s.blockRead a := by
  rw [Cos.saveInodeBitmap]
  generalize s.gSuperblock.bitmapStart + s.blockBitmapSectors = start
  have hfold : ∀ l : List Nat, l.foldl (fun s i => s.blockWrite (start + i)
      (s.inodeBitmap.slice (i * sectorSize) 512)) s = { s with
        disk := l.foldl (fun d i => d.write (start + i) (s.inodeBitmap.slice (i * 512) 512))
          s.disk } :=
    fun l => List.foldl_hom (fun d : Disk => { s with disk := d }) fun _ _ => rfl
  exact ⟨_, hfold _, Disk.read_foldl_write (fun i => s.inodeBitmap.slice (i * 512) 512) start
    s.disk _⟩

/-- Without roots there is no block. -/
theorem Img.blocks_of_root {L : Layout} {v : Img} (h : ∀ x, (v.forest L).root x = 0) :
    Blocks L v := by
  have hzero : ∀ x p, v.ptr L x p = 0 := fun x p => by
    rw [Img.ptr, Forest.ptr, h x, Forest.walk_zero]
  exact ⟨fun x p _ _ _ _ h0 => absurd (hzero x p) h0, fun x p _ h0 => absurd (hzero x p) h0⟩

namespace Rep

variable {L : Layout} {s : Cos} {v : Img}

/-- `load_inode_bitmap` on a drive whose inode bitmap is the one in memory. -/
theorem loadInodeBitmap_eq (h : Rep L s v) : s.loadInodeBitmap = s := by
  rw [Cos.loadInodeBitmap]
  refine List.foldlRecOn (motive := fun t => t = s) (List.range s.inodeBitmapSectors) _ rfl ?_
  intro t ht i hi
  subst ht
  have hsec : t.blockRead (t.gSuperblock.bitmapStart + t.blockBitmapSectors + i) =
      t.inodeBitmap.slice (i * 512) 512 := by
    rw [h.sb, L.bitmapStart, h.bbs]
    exact h.sync i (by rw [← h.ibs]; exact List.mem_range.mp hi)
  rw [hsec, sectorSize, Buf.splice_slice]

/-- `init_fs` on a state whose drive holds its own superblock. -/
theorem initFs_load (h : Rep L s v) (hboot : v.boot = L.sb.encode) :
    s.initFs = if (v.ino 0).type = 2 then s else s.createRoot := by
  have hsb : Superblock.decode (s.blockRead 0) = L.sb := by
    rw [h.boot, hboot]
    exact L.decode_encode
  have hstate : { s with
      gSuperblock := L.sb
      blockBitmapSectors := Cos.bitmapSectors L.sb.totalBlocks
      inodeBitmapSectors := Cos.inodeSectors L.sb.inodeCount } = s := by
    rw [← L.bbs_eq, ← L.ibs_eq, ← h.sb, ← h.bbs, ← h.ibs]
  have hpos := L.inodes_pos
  rw [Cos.initFs, hsb, Cos.loadFs, if_pos L.magic, hstate, h.loadInodeBitmap_eq]
  dsimp only
  rw [h.ino 0 (by omega)]

/-- `init_fs` reads back what is already in memory. -/
theorem initFs_eq (h : Rep L s v) (hboot : v.boot = L.sb.encode) (hroot : Img.IsDir L v 0) :
    s.initFs = s := by
  rw [h.initFs_load hboot, if_pos hroot.type]

/-- `save_inode_bitmap` after a change of the bitmap in memory. -/
theorem saveInodeBitmap (h : Rep L s v) (bm : Buf 32768) (used' : Nat → Bool)
    (hused : ∀ i, i < L.sb.inodeCount → bm.bit i = used' i) :
    Rep L ({ s with inodeBitmap := bm }.saveInodeBitmap) { v with used := used' } := by
  obtain ⟨disk, heq, hread⟩ := Cos.saveInodeBitmap_spec { s with inodeBitmap := bm }
  simp only [h.sb, h.bbs, h.ibs, L.bitmapStart] at hread
  obtain ⟨hino, hdata, hbits, hin⟩ := L.regions
  rw [heq]
  refine h.of_sectors rfl rfl rfl h.cwd hused fun a => ?_
  show Img.At L _ bm a (disk.read a)
  rw [hread a]
  have hs := h.sector a
  split
  · exact ⟨by omega, by omega,
      fun k _ ha => by rw [ha, Nat.add_sub_cancel_left], by omega, by omega⟩
  · exact ⟨hs.boot, hs.bit, by omega, hs.ino, hs.blk⟩

/-! ### Formatting, step by step -/

/-- The image right after the metadata has been cleared. -/
def blankImg (s : Cos) (L : Layout) : Img where
  boot := L.sb.encode
  bit := fun _ => false
  used := fun _ => false
  ino := (s.wipeFs L.sb).readInode
  blk := (s.wipeFs L.sb).blockRead
  cwd := 0

/-- Both bitmaps are cleared. -/
theorem wipeFs_bitmap (s : Cos) (L : Layout) {a : Nat} (h1 : 1 ≤ a) (h2 : a < 1 + L.bbs + L.ibs) :
    (s.wipeFs L.sb).blockRead a = Buf.zero := by
  simp only [Cos.wipeFs, Cos.blockRead, Disk.read_write, Disk.read_fill, L.bitmapStart,
    ← L.bbs_eq, ← L.ibs_eq]
  rw [if_neg (by omega)]
  split_ifs
  · rfl
  · rfl
  · rfl
  · omega

theorem wipeFs_spec (s : Cos) (L : Layout) : Rep L (s.wipeFs L.sb) (blankImg s L) := by
  refine
    { sb := rfl
      bbs := L.bbs_eq.symm
      ibs := L.ibs_eq.symm
      cwd := rfl
      boot := Disk.read_write_same _ _ _
      bit := ?_
      used := fun i _ => Buf.bit_zero _
      sync := ?_
      ino := fun _ _ => rfl
      blk := fun _ _ _ => rfl }
  · intro b hb
    have := L.bitmap_lt hb
    rw [Cos.blockBit, show (s.wipeFs L.sb).gSuperblock.bitmapStart = 1 from L.bitmapStart,
      wipeFs_bitmap s L (by omega) (by omega), Buf.bit_zero]
    rfl
  · intro k hk
    rw [wipeFs_bitmap s L (by omega) (by omega)]
    refine Buf.ext_get fun j hj => ?_
    rw [Buf.get_slice_lt _ hj, Buf.get_zero]
    exact (Buf.get_zero _).symm

/-- Marking the first blocks of the drive. -/
theorem markBlocks_spec (h : Rep L s v) (n : Nat) :
    Rep L ((List.range n).foldl Cos.setBlockBitmapBit s)
      { v with bit := fun b => decide (b < n) || v.bit b } := by
  induction n with
  | zero =>
    simp only [Nat.not_lt_zero, decide_false, Bool.false_or]
    exact h
  | succ n ih =>
    rw [List.range_succ, List.foldl_append, List.foldl_cons, List.foldl_nil]
    have hbit : Function.update (fun b => decide (b < n) || v.bit b) n true =
        fun b => decide (b < n + 1) || v.bit b := by
      funext b
      rw [Function.update_apply]
      split
      · rename_i hb
        simp [hb]
      · rename_i hb
        have : b < n + 1 ↔ b < n := by omega
        simp [this]
    by_cases hn : n < L.sb.totalBlocks
    · rw [← hbit]
      exact ih.setBlockBitmapBit hn
    · rw [Cos.setBlockBitmapBit, if_pos (by rw [ih.sb]; omega)]
      refine ⟨ih.sb, ih.bbs, ih.ibs, ih.cwd, ih.boot, fun b hb => ?_, ih.used, ih.sync, ih.ino,
        ih.blk⟩
      have : b < n := by omega
      rw [ih.bit b hb]
      simp [this, Nat.lt_succ_of_lt this]

/-- `create_root` up to the block: the inode bit is set, whether there is a block or not. -/
theorem createRoot_bit (h : Rep L s v) :
    Rep L { s with inodeBitmap := s.inodeBitmap.setBit 0 }.saveInodeBitmap (v.setUsed 0 true) :=
  h.saveInodeBitmap (s.inodeBitmap.setBit 0) (v.setUsed 0 true).used fun i hi => by
    rw [Buf.bit_setBit _ (by omega), h.used i hi, Img.used_setUsed]
    split <;> simp [*]

theorem createRoot_spec (h : Rep L s v) {nb : Nat} (hff : v.firstFree L = some nb) :
    Rep L s.createRoot (v.born 0 nb (Inode.blank 2) true) := by
  have hff' : (v.setUsed 0 true).firstFree L = some nb := hff
  have hfst := h.createRoot_bit.allocBlock_fst
  rw [hff', Option.getD_some] at hfst
  have hzero : 0 < L.sb.inodeCount := by have := L.inodes_pos; omega
  have hborn : Rep L _ (v.born 0 nb (Inode.blank 2) false) :=
    (h.createRoot_bit.take hff' false).writeInode ((Inode.blank 2).setPtr 0 nb) hzero
  have hbm : s.inodeBitmap.put8 0 (s.inodeBitmap.get 0 ||| 1) = s.inodeBitmap.setBit 0 := rfl
  simp only [Cos.createRoot, hbm, hfst, if_neg (Img.firstFree_facts hff).2.2.1]
  exact hborn.zeroBorn hff

theorem createRoot_none (h : Rep L s v) (hff : v.firstFree L = none) :
    Rep L s.createRoot (v.setUsed 0 true) := by
  have hff' : (v.setUsed 0 true).firstFree L = none := hff
  have hfst := h.createRoot_bit.allocBlock_fst
  have hrep := h.createRoot_bit.allocBlock.2
  rw [Img.alloc, hff'] at hrep
  rw [hff', Option.getD_none] at hfst
  have hbm : s.inodeBitmap.put8 0 (s.inodeBitmap.get 0 ||| 1) = s.inodeBitmap.setBit 0 := rfl
  simp only [Cos.createRoot, hbm, hfst, if_true]
  exact hrep

/-- The root directory alone. -/
theorem root_inv {nb : Nat} (hu : ∀ i, v.used i = false) (hff : v.firstFree L = some nb) :
    Img.Inv L (v.born 0 nb (Inode.blank 2) true) := by
  have hpos := L.inodes_pos
  have hb : Img.Blocks L v := Img.blocks_of_root fun x => if_neg fun hh => by simp [hu] at hh
  have hn := Inode.fresh_blank 2
  have hdir : ∀ d, Img.IsDir L (v.born 0 nb (Inode.blank 2) true) d → d = 0 := by
    intro d hd
    by_contra hne
    have := hd.used
    rw [Img.born_used, if_neg hne, hu] at this
    cases this
  have hent : ∀ d b k, Img.Slot L (v.born 0 nb (Inode.blank 2) true) d b k →
      (v.born 0 nb (Inode.blank 2) true).ent d b k = 0 := by
    intro d b k hs
    rcases Img.born_slot hb (by omega) (hu 0) hff hn (fun _ => rfl) hs with ⟨hne, -⟩ | ⟨-, -, h0⟩
    · exact absurd (hdir d hs.dir) hne
    · exact h0
  obtain ⟨-, -, hnb0, h32⟩ := Img.firstFree_facts hff
  refine ⟨Img.born_blocks hb (by omega) (hu 0) hff hn, ⟨by omega, ?_, ?_⟩, ?_, ?_, ?_, ?_⟩
  · rw [Img.born_used, if_pos rfl]
  · exact Img.born_type.trans (blank_type 2)
  · intro d hd
    rw [hdir d hd, Img.born_ino, if_pos rfl, Inode.ptr_setPtr_same (by omega), h32]
    exact hnb0
  · intro d b hd hlt hne
    rw [hdir d hd, Img.born_ino, if_pos rfl, Inode.ptr_setPtr_ne (by omega),
      hn.ptr _ (by omega)] at hne
    exact absurd rfl hne
  · intro d b k hs hne
    exact absurd (hent d b k hs) hne
  · intro d b k d' b' k' hs _ hne
    exact absurd (hent d b k hs) hne

end Rep

namespace Img

variable {L : Layout} {v v' : Img} {d : Nat} {name : CStr}

theorem DirAdd.boot {idx : Nat} {rc : Int} (h : DirAdd L v d name idx v' rc) :
    v'.boot = v.boot := by
  cases h <;> rfl

theorem DirAdd.cwd {idx : Nat} {rc : Int} (h : DirAdd L v d name idx v' rc) :
    v'.cwd = v.cwd := by
  cases h <;> rfl

section

variable {node : Inode} {zeroed : Bool} {res : Option Nat}
  (h : Create L v d name node zeroed v' res)
include h

theorem Create.boot : v'.boot = v.boot := by
  cases h with
  | refused => rfl
  | made idx nb _ rc hnew hidx hu hfirst hff hadd => exact hadd.boot.trans born_boot

theorem Create.cwd : v'.cwd = v.cwd := by
  cases h with
  | refused => rfl
  | made idx nb _ rc hnew hidx hu hfirst hff hadd => exact hadd.cwd.trans born_cwd

end

end Img

namespace Rep

variable {L : Layout} {s : Cos} {v : Img}

/-- `create_defdirs`, for any list of names, and what creations keep. -/
theorem createDirs_spec {P : Img → Prop} (hP : ∀ {v v' : Img} {name : CStr} {res : Option Nat},
      Img.Inv L v → P v → Img.Create L v 0 name (Inode.blank 2) true v' res → P v')
    (names : List CStr) : ∀ {s : Cos} {v : Img}, Rep L s v → Img.Inv L v → v.cwd = 0 → P v →
    ∃ v', Rep L (names.foldl (fun s name => (s.fsCreateDir name s.gCurrentDir).2) s) v' ∧
      Img.Inv L v' ∧ v'.cwd = 0 ∧ v'.boot = v.boot ∧ P v' := by
  induction names with
  | nil => exact fun h hv hcwd hp => ⟨_, h, hv, hcwd, rfl, hp⟩
  | cons name names ih =>
    intro s v h hv hcwd hp
    rw [List.foldl_cons, h.cwd, hcwd]
    obtain ⟨v1, h1, hc⟩ := h.fsCreateDir_spec hv hv.root name
    have hv1 := hc.inv hv hv.root (Inode.fresh_blank 2) fun _ => rfl
    obtain ⟨v2, h2, hv2, hcwd2, hboot2, hp2⟩ := ih h1 hv1 (hc.cwd.trans hcwd) (hP hv hp hc)
    exact ⟨v2, h2, hv2, hcwd2, hboot2.trans hc.boot, hp2⟩

/-- The image with nothing but the root directory. -/
def rootImg (s : Cos) (L : Layout) : Img :=
  ({ blankImg s L with
      bit := fun b => decide (b < L.sb.dataStart) || (blankImg s L).bit b } : Img).born
    0 L.sb.dataStart (Inode.blank 2) true

/-- A drive as `qformat_fs` has it before `create_root`. -/
abbrev marked (s : Cos) (L : Layout) : Cos :=
  (List.range L.sb.dataStart).foldl Cos.setBlockBitmapBit (s.wipeFs L.sb)

/-- `qformat_fs` up to `create_root`, on a drive with room for data. -/
theorem formatRoot_spec (s : Cos) (L : Layout) (hroom : L.sb.dataStart < L.sb.totalBlocks) :
    Rep L (marked s L).createRoot (rootImg s L) ∧ Img.Inv L (rootImg s L) := by
  have hmark := (wipeFs_spec s L).markBlocks_spec L.sb.dataStart
  have hff : ({ blankImg s L with
      bit := fun b => decide (b < L.sb.dataStart) || (blankImg s L).bit b } : Img).firstFree L =
        some L.sb.dataStart := by
    rw [Img.firstFree_eq_some]
    refine ⟨⟨Nat.le_refl _, by omega⟩, ?_, fun c h1 h2 => absurd h1 (by omega)⟩
    simp [blankImg]
  exact ⟨hmark.createRoot_spec hff, root_inv (fun _ => rfl) hff⟩

section

variable {s : Cos} {v : Img} (h : Rep s.layout (marked s s.layout).createRoot.createDefdirs v)
  (hv : Img.Inv s.layout v) (hboot : v.boot = s.layout.sb.encode)
include h hv hboot

/-- The rest of `qformat_fs`: `init_fs` reads back what is in memory already. -/
theorem qformatFs_eq :
    s.qformatFs = (marked s s.layout).createRoot.createDefdirs := by
  have hfmt : s.qformatFs = (marked s s.layout).createRoot.createDefdirs.initFs := rfl
  rw [hfmt, initFs_eq h hboot hv.root]

theorem qformatFs_rep :
    Rep s.layout s.qformatFs v := by
  rw [qformatFs_eq h hv hboot]
  exact h

end

/-- `qformat_fs` on a drive with room for data, and what holds of the root alone and is kept
by creations. -/
theorem qformatFs_ind (s : Cos) (h : 6 ≤ s.driveSectors) {P : Img → Prop}
    (hroot : P (rootImg s s.layout))
    (hP : ∀ {v v' name res}, Img.Inv s.layout v → P v →
      Img.Create s.layout v 0 name (Inode.blank 2) true v' res → P v') :
    ∃ v, Rep s.layout s.qformatFs v ∧ Img.Inv s.layout v ∧ P v := by
  obtain ⟨hrep0, hinv⟩ := formatRoot_spec s _ (s.room_iff.mpr h)
  obtain ⟨v, hrep, hv, -, hboot, hp⟩ := createDirs_spec hP Cos.defaultDirs hrep0 hinv rfl hroot
  exact ⟨v, qformatFs_rep hrep hv (hboot.trans Img.born_boot), hv, hp⟩

/-! ### Drives without data blocks -/

/-- `fs_create_dir` without a directory to put the entry in and without a block. -/
theorem fsCreateDir_none (h : Rep L s v) (hff : v.firstFree L = none) {d : Nat}
    (hd : d < L.sb.inodeCount) (htype : (v.ino d).type ≠ 2) (name : CStr) :
    Rep L (s.fsCreateDir name d).2 v := by
  rw [Cos.fsCreateDir, h.ino d hd, Cos.dirLookup, if_pos htype]
  cases h.birth with
  | full hres hall =>
    rw [hres]
    exact h
  | bare i s₁ hres hblk _ hrep =>
    simp only [hres, hblk]
    exact hrep
  | made i nb s₁ _ _ _ _ _ _ hff' => exact absurd (hff.symm.trans hff') (by simp)

end Rep

/-- A drive without data blocks: the root's inode is in use and blank, and so is any other. -/
structure Img.Bare (L : Layout) (v : Img) : Prop where
  full : L.sb.totalBlocks ≤ L.sb.dataStart
  root : v.used 0 = true
  ino : ∀ i, v.used i = true → v.ino i = ⟨Buf.zero⟩

namespace Img.Bare

variable {L : Layout} {v : Img}

theorem firstFree (h : Bare L v) : v.firstFree L = none :=
  firstFree_eq_none.mpr fun _ h1 h2 => absurd (Nat.lt_of_lt_of_le h2 h.full) (Nat.not_lt.mpr h1)

theorem type (h : Bare L v) {i : Nat} (hu : v.used i = true) : (v.ino i).type = 0 := by
  rw [h.ino i hu, Inode.type, Buf.get_zero]

/-- No inode has a block. -/
theorem blocks (h : Bare L v) : Blocks L v := by
  refine blocks_of_root fun x => ?_
  show (if x.1 < L.sb.inodeCount ∧ v.used x.1 = true ∧ x.2 < 15 then (v.ino x.1).ptr x.2 else 0) = 0
  split
  · rename_i hx
    rw [h.ino x.1 hx.2.1, Inode.ptr, Buf.get32_zero]
  · rfl

end Img.Bare

namespace Rep

variable {L : Layout} {s : Cos} {v : Img}

/-- `qformat_fs` on a drive of less than six sectors, and what its steps keep. -/
theorem qformatFs_small_ind (s : Cos) (h : s.driveSectors < 6) {P : Cos → Prop}
    (hmark : P (marked s s.layout))
    (hroot : ∀ {s' v}, Rep s.layout s' v → v.firstFree s.layout = none → P s' → P s'.createRoot)
    (hdir : ∀ {s' v name}, Rep s.layout s' v → v.firstFree s.layout = none → P s' →
      P (s'.fsCreateDir name 0).2) :
    ∃ v, Rep s.layout s.qformatFs v ∧ v.Bare s.layout ∧ v.boot = s.layout.sb.encode ∧
      P s.qformatFs := by
  have hroom := s.room_iff.not.mpr (by omega)
  set L := s.layout
  have hpos := L.inodes_pos
  have hrep0 := (wipeFs_spec s L).markBlocks_spec L.sb.dataStart
  set v0 : Img := { blankImg s L with
    bit := fun b => decide (b < L.sb.dataStart) || (blankImg s L).bit b }
  have hff : v0.firstFree L = none := Img.firstFree_eq_none.mpr fun b h1 h2 => by omega
  have hino : v0.ino 0 = ⟨Buf.zero⟩ := by
    have hzero : (s.wipeFs L.sb).blockRead L.sb.inodeStart = Buf.zero := by
      have := L.inodeStart
      simp only [Cos.wipeFs, Cos.blockRead, Disk.read_write, Disk.read_fill]
      rw [if_neg (by omega), if_pos]
      simp only [Cos.tableBlocks, inodeSize, sectorSize]
      omega
    show (s.wipeFs L.sb).readInode 0 = _
    rw [Cos.readInode, show (s.wipeFs L.sb).gSuperblock = L.sb from rfl, Nat.zero_div,
      Nat.add_zero, hzero]
    refine congrArg Inode.mk (Buf.ext_get fun j hj => ?_)
    rw [Buf.get_slice_lt _ hj, Buf.get_zero, Buf.get_zero]
  have hrep1 := hrep0.createRoot_none hff
  have hP1 := hroot hrep0 hff hmark
  set v := v0.setUsed 0 true with hv
  have hused : ∀ i, v.used i = true → i = 0 := by
    intro i hi
    by_contra h0
    rw [hv, Img.used_setUsed, if_neg h0] at hi
    cases hi
  have htype : (v.ino 0).type ≠ 2 := by
    rw [show v.ino 0 = v0.ino 0 from rfl, hino, Inode.type, Buf.get_zero]
    decide
  have hdirs : ∀ names : List CStr, ∀ {s : Cos}, Rep L s v → P s →
      Rep L (names.foldl (fun s name => (s.fsCreateDir name s.gCurrentDir).2) s) v ∧
        P (names.foldl (fun s name => (s.fsCreateDir name s.gCurrentDir).2) s) := by
    intro names
    induction names with
    | nil => exact fun h hp => ⟨h, hp⟩
    | cons name names ih =>
      intro s h hp
      rw [List.foldl_cons, h.cwd]
      exact ih (h.fsCreateDir_none (d := 0) hff (by omega) htype name) (hdir h hff hp)
  obtain ⟨hrep2, hP2⟩ := hdirs Cos.defaultDirs hrep1 hP1
  change Rep L (Cos.createDefdirs _) v at hrep2
  have hfmt : s.qformatFs = (marked s L).createRoot.createDefdirs.initFs := rfl
  rw [hfmt, hrep2.initFs_load rfl, if_neg htype]
  refine ⟨v.setUsed 0 true, hrep2.createRoot_none hff, ⟨by omega, ?_, fun i hi => ?_⟩, rfl,
    hroot hrep2 hff hP2⟩
  · rw [Img.used_setUsed, if_pos rfl]
  · have h0 : i = 0 := by
      rw [Img.used_setUsed] at hi
      split at hi
      · assumption
      · exact hused i hi
    rw [h0]
    exact hino

/-- On a drive of less than six sectors `qformat_fs` leaves no inode but the root's, which
is neither a file nor a directory. -/
theorem qformatFs_small (s : Cos) (h : s.driveSectors < 6) :
    ∃ v, Rep s.layout s.qformatFs v ∧ v.Bare s.layout := by
  obtain ⟨v, hrep, hv, -⟩ := qformatFs_small_ind s h (P := fun _ => True) trivial
    (fun _ _ _ => trivial) fun _ _ _ => trivial
  exact ⟨v, hrep, hv⟩

end Rep

end Crusadia
