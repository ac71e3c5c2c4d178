import Crusadia.Cos.Run

/-!
# Crusadia.Cos.Fresh

**A freshly formatted drive, exactly.** `Img.Filled L names v` describes an image in which
nothing has happened since the format but creations in the root directory: inodes
`0 .. names.length` are in use, the first data blocks are theirs in order, and the first
slots of the root's only block hold `names`. `qformat_fs` leaves such an image, and while
there is room each creation in the root extends it by one (`Filled.create`). Concrete runs
start from here.
-/

namespace Crusadia

variable {name : CStr}

theorem entName_putEnt_same {buf : Sector} {k n j : Nat} (hk : k < 16) (hj : j < 28) :
    entName (putEnt buf k n name) k j = if j < 27 then name.at' j else 0 := by
  rw [entName, putEnt, Buf.get_splice_in (by omega) (by omega) (by omega)]
  have hj' : 32 * k + 4 + j - (32 * k + 4) = j := by omega
  rw [hj']

theorem entName_putEnt_ne {buf : Sector} {k k' n j : Nat} (hk : k' ≠ k) (hj : j < 28) :
    entName (putEnt buf k n name) k' j = entName buf k' j := by
  rw [entName, putEnt, Buf.get_splice_out (by omega), Buf.put32, Buf.get_splice_out (by omega),
    entName]

/-- A stored name of at most 27 bytes matches itself only. -/
theorem strEq_stored {mem : Nat → Byte} {stored : CStr} (hlen : stored.length ≤ 27)
    (hmem : ∀ j, j < 28 → mem j = if j < 27 then stored.at' j else 0) :
    strEq mem name = true ↔ stored = name := by
  have hat : ∀ j, j < 28 → mem j = stored.at' j := by
    intro j hj
    rw [hmem j hj]
    split
    · rfl
    · exact (CStr.at_of_ge (by omega)).symm
  rw [strEq_iff]
  constructor
  · intro h
    have hshort : name.length ≤ 27 := by
      by_contra hgt
      have h27 := (h 27 (by omega)).symm.trans (hat 27 (by omega))
      rw [CStr.at_of_ge hlen] at h27
      exact CStr.at_ne_zero (by omega) h27
    have hends : stored.length ≤ name.length := by
      by_contra hgt
      have h0 := (hat name.length (by omega)).symm.trans (h name.length (Nat.le_refl _))
      rw [CStr.at_of_ge (Nat.le_refl name.length)] at h0
      exact CStr.at_ne_zero (by omega) h0
    refine CStr.ext_at fun j => ?_
    by_cases hj : j ≤ name.length
    · rw [← hat j (by omega), h j hj]
    · rw [CStr.at_of_ge (by omega), CStr.at_of_ge (by omega)]
  · rintro rfl j hj
    exact hat j (by omega)

namespace Img

/-- Nothing but creations of `names` in the root since the format. -/
structure Filled (L : Layout) (names : List CStr) (v : Img) : Prop where
  used : ∀ i, v.used i = decide (i < names.length + 1)
  bit : ∀ b, v.bit b = decide (b < L.sb.dataStart + names.length + 1)
  ptr : ∀ r, r < 15 → (v.ino 0).ptr r = if r = 0 then L.sb.dataStart else 0
  ent : ∀ k, k < 16 → entInode (v.blk L.sb.dataStart) k = if k < names.length then k + 1 else 0
  name : ∀ k nm, names[k]? = some nm → ∀ j, j < 28 →
    entName (v.blk L.sb.dataStart) k j = if j < 27 then nm.at' j else 0
  short : ∀ nm ∈ names, nm.length ≤ 27

variable {L : Layout} {v v' : Img} {names : List CStr}

theorem Filled.firstFree (h : Filled L names v)
    (hroom : L.sb.dataStart + names.length + 1 < L.sb.totalBlocks) :
    v.firstFree L = some (L.sb.dataStart + names.length + 1) := by
  rw [firstFree_eq_some]
  refine ⟨⟨by omega, hroom⟩, by simp [h.bit], fun c _ hc => ?_⟩
  simpa [h.bit] using hc

theorem Filled.freeList (h : Filled L names v) : v.freeList L =
    List.range' (L.sb.dataStart + names.length + 1)
      (L.sb.totalBlocks - (L.sb.dataStart + names.length + 1)) := by
  have hp : (fun b => !v.bit b) = fun b => decide (L.sb.dataStart + names.length + 1 ≤ b) := by
    funext b
    simp only [h.bit, ← decide_not, Nat.not_lt]
  rw [Img.freeList, hp, filter_range'_le _ _ _ (by omega)]
  congr 1
  omega

theorem Filled.ptr_ne (h : Filled L names v) : (v.ino 0).ptr 0 ≠ 0 := by
  have := L.dataStart_gt
  rw [h.ptr 0 (by omega), if_pos rfl]
  omega

/-- Slot `k` of the root matches `name` if it was created there. -/
theorem Filled.slot_iff (h : Filled L names v) {k : Nat} (hk : k < 16) : (v.ent 0 0 k != 0 &&
    strEq (entName (v.blk ((v.ino 0).ptr 0)) k) name) = true ↔ names[k]? = some name := by
  rw [Bool.and_eq_true, bne_iff_ne, Img.ent, h.ptr 0 (by omega), if_pos rfl, h.ent k hk]
  by_cases hlen : k < names.length
  · have hget : names[k]? = some names[k] := List.getElem?_eq_getElem hlen
    rw [if_pos hlen, strEq_stored (h.short _ (List.getElem_mem hlen)) (h.name k _ hget), hget,
      Option.some.injEq]
    exact and_iff_right (by omega)
  · rw [if_neg hlen]
    exact iff_of_false (fun hc => hc.1 rfl) fun hc => hlen (List.getElem?_eq_some_iff.mp hc).1

/-- A name that was not created is not found. -/
theorem Filled.findSlot (h : Filled L names v) (hnew : name ∉ names) :
    v.findSlot 0 name 12 0 = none := by
  rw [Img.findSlot, if_neg h.ptr_ne, List.find?_eq_none.mpr fun k hk hmatch =>
    hnew (List.mem_of_getElem? ((h.slot_iff (List.mem_range.mp hk)).mp hmatch))]
  dsimp only
  have h1 : (v.ino 0).ptr 1 = 0 := h.ptr 1 (by omega)
  rw [Img.findSlot, if_pos h1]

/-- The first of the names that is `name` is the one that is found. -/
theorem Filled.findSlot_first (h : Filled L names v) {k : Nat} (hk : k < 16)
    (hname : names[k]? = some name) (hfirst : ∀ j, j < k → names[j]? ≠ some name) :
    v.findSlot 0 name 12 0 = some (0, k) := by
  rw [Img.findSlot, if_neg h.ptr_ne, List.find?_range_eq_some.mpr]
  refine ⟨(h.slot_iff hk).mpr hname, List.mem_range.mpr hk, fun j hj => ?_⟩
  rw [Bool.not_eq_true', Bool.eq_false_iff, ne_eq, h.slot_iff (by omega)]
  exact hfirst j hj

/-- The image after creating `name` as the next inode, in the next block and the next slot. -/
def extend (L : Layout) (v : Img) (m : Nat) (name : CStr) (node : Inode) (zeroed : Bool) : Img :=
  (v.born (m + 1) (L.sb.dataStart + m + 1) node zeroed).setBlk L.sb.dataStart
    (putEnt (v.blk L.sb.dataStart) m (m + 1) name)

section extend

variable {m : Nat} {name : CStr} {node : Inode} {zeroed : Bool}

theorem extend_ino (j : Nat) : (extend L v m name node zeroed).ino j =
    if j = m + 1 then node.setPtr 0 (L.sb.dataStart + m + 1) else v.ino j :=
  born_ino j

theorem extend_blk {c : Nat} (h : L.sb.dataStart + m + 1 < c) :
    (extend L v m name node zeroed).blk c = v.blk c := by
  rw [extend, blk_setBlk, if_neg (by omega), born_blk (by omega)]

theorem extend_blk_new : (extend L v m name node false).blk (L.sb.dataStart + m + 1) =
    v.blk (L.sb.dataStart + m + 1) := by
  rw [extend, blk_setBlk, if_neg (by omega)]
  rfl

end extend

/-- A creation in the root while there is room for it. -/
theorem Filled.create_eq {node : Inode} {zeroed : Bool} {res : Option Nat} (h : Filled L names v)
    (hroom : L.sb.dataStart + names.length + 1 < L.sb.totalBlocks)
    (hino : names.length + 1 < L.sb.inodeCount) (hslot : names.length < 16) (hnew : name ∉ names)
    (hc : Create L v 0 name node zeroed v' res) :
    res = some (names.length + 1) ∧ v' = extend L v names.length name node zeroed := by
  have hff := h.firstFree hroom
  have hfs := h.findSlot hnew
  have hds := L.dataStart_gt
  cases hc with
  | refused why =>
    rcases why with h1 | h1 | h1
    · exact absurd hfs h1
    · have := h1 _ hino
      rw [h.used] at this
      simp at this
    · rw [hff] at h1
      cases h1
  | made idx nb _ rc _ hidx hu hfirst hff' hadd =>
    -- Inode and block are the next ones.
    obtain rfl : L.sb.dataStart + names.length + 1 = nb := Option.some.inj (hff.symm.trans hff')
    obtain rfl : idx = names.length + 1 := by
      rw [h.used, decide_eq_false_iff_not] at hu
      by_contra hne
      have := hfirst (names.length + 1) (by omega)
      rw [h.used] at this
      simp at this
    rw [extend]
    generalize hw : v.born (names.length + 1) (L.sb.dataStart + names.length + 1) node zeroed
      = w at hadd ⊢
    have hptr : (w.ino 0).ptr 0 = L.sb.dataStart := by
      rw [← hw, born_ino, if_neg (by omega), h.ptr 0 (by omega), if_pos rfl]
    have hblk : w.blk L.sb.dataStart = v.blk L.sb.dataStart := by
      rw [← hw, born_blk (by omega)]
    have hent : ∀ k, k < 16 → w.ent 0 0 k = if k < names.length then k + 1 else 0 := by
      intro k hk
      rw [Img.ent, hptr, hblk, h.ent k hk]
    have hfree : w.ent 0 0 names.length = 0 := by
      rw [hent _ hslot, if_neg (Nat.lt_irrefl _)]
    -- The slot is the next one as well: the root's first block has room.
    have hnotfull : ∀ b, w.FullTo 0 b → b = 0 := fun b hall =>
      Nat.eq_zero_of_not_pos fun hb => (hall 0 names.length hb hslot).2 hfree
    cases hadd with
    | full hfull => exact absurd (hnotfull 12 hfull) (by decide)
    | noBlock b hb h0 hfull hff1 =>
      obtain rfl := hnotfull b hfull
      omega
    | block b nb' hb h0 hfull hff1 =>
      obtain rfl := hnotfull b hfull
      omega
    | slot b k hs hfr hfull hfirst' =>
      obtain rfl := hnotfull b hfull
      obtain rfl : k = names.length := by
        rcases Nat.lt_trichotomy k names.length with hlt | heq | hgt
        · rw [hent k hs.slot, if_pos hlt] at hfr
          omega
        · exact heq
        · exact absurd hfree (hfirst' _ hgt)
      rw [hptr, hblk]
      exact ⟨rfl, rfl⟩

theorem Filled.extend (h : Filled L names v) (node : Inode) (zeroed : Bool)
    (hslot : names.length < 16) (hshort : name.length ≤ 27) :
    Filled L (names ++ [name]) (Img.extend L v names.length name node zeroed) := by
  have hblk : (Img.extend L v names.length name node zeroed).blk L.sb.dataStart =
      putEnt (v.blk L.sb.dataStart) names.length (names.length + 1) name := by
    rw [Img.extend, blk_setBlk, if_pos rfl]
  refine ⟨?_, ?_, ?_, ?_, ?_, ?_⟩
  · intro i
    refine (born_used i).trans ?_
    rw [h.used, List.length_append, List.length_singleton]
    split <;> simp <;> omega
  · intro b
    refine (born_bit b).trans ?_
    rw [h.bit, List.length_append, List.length_singleton]
    split <;> simp <;> omega
  · intro r hr
    rw [extend_ino, if_neg (by omega), h.ptr r hr]
  · intro k hk
    rw [hblk, List.length_append, List.length_singleton]
    by_cases hkn : k = names.length
    · rw [hkn, entInode_putEnt_same hslot, if_pos (by omega), Nat.mod_eq_of_lt (by omega)]
    · rw [entInode_putEnt_ne hkn, h.ent k hk]
      refine if_congr ?_ rfl rfl
      omega
  · intro k nm hget j hj
    rw [hblk]
    by_cases hkn : k = names.length
    · rw [hkn] at hget ⊢
      rw [List.getElem?_concat_length] at hget
      rw [entName_putEnt_same hslot hj, Option.some.inj hget]
    · have hlt : k < names.length := by
        have := (List.getElem?_eq_some_iff.mp hget).1
        rw [List.length_append, List.length_singleton] at this
        omega
      rw [List.getElem?_append_left hlt] at hget
      rw [entName_putEnt_ne hkn hj, h.name k nm hget j hj]
  · intro nm hnm
    rcases List.mem_append.mp hnm with hold | hlast
    · exact h.short nm hold
    · rw [List.mem_singleton.mp hlast]
      exact hshort

end Img

namespace Rep

open Img (Filled)

variable {L : Layout} {s : Cos} {v : Img} {names : List CStr}

/-- Clearing the metadata leaves the data blocks alone. -/
theorem blankImg_blk {c : Nat} (hc : L.sb.dataStart ≤ c) :
    (blankImg s L).blk c = s.blockRead c := by
  have h1 := L.inodeStart
  have h2 := L.dataStart
  have h3 := L.bitmapStart
  have h4 := L.inodes_pos
  have h5 := L.inodes8
  have htable : L.sb.inodeStart + Cos.tableBlocks L.sb.inodeCount ≤ c := by
    simp only [Cos.tableBlocks, inodeSize, sectorSize]
    omega
  show (s.wipeFs L.sb).blockRead c = s.blockRead c
  simp only [Cos.wipeFs, Cos.blockRead, Disk.read_write, Disk.read_fill, ← L.bbs_eq, ← L.ibs_eq]
  rw [if_neg (by omega), if_neg (by omega), if_neg (by omega), if_neg (by omega)]

/-- The root directory alone. -/
theorem filled_rootImg (s : Cos) (hroom : L.sb.dataStart < L.sb.totalBlocks) :
    Filled L [] (rootImg s L) := by
  have h32 := L.total
  refine ⟨?_, ?_, ?_, ?_, ?_, ?_⟩
  · intro i
    rw [rootImg, Img.born_used]
    split <;> simp [blankImg, *]
  · intro b
    rw [rootImg, Img.born_bit]
    split <;> simp [blankImg, *]
    omega
  · intro r hr
    rw [rootImg, Img.born_ino, if_pos rfl, (Inode.fresh_blank 2).ptr_setPtr hr (by omega)]
  · intro k _
    rw [rootImg, Img.born_blk_self, entInode_zero]
    rfl
  · intro k nm hget
    simp at hget
  · intro nm hnm
    simp at hnm

/-- Directories created in a fresh root. -/
theorem createDirs_filled (rest : List CStr) : ∀ {names : List CStr} {s : Cos} {v : Img},
    Rep L s v → Img.Inv L v → v.cwd = 0 → Filled L names v → (names ++ rest).Nodup →
    (∀ nm ∈ rest, nm.length ≤ 27) → names.length + rest.length ≤ 16 →
    L.sb.dataStart + names.length + rest.length < L.sb.totalBlocks →
    names.length + rest.length < L.sb.inodeCount →
    ∃ v', Rep L (rest.foldl (fun s name => (s.fsCreateDir name s.gCurrentDir).2) s) v' ∧
      Img.Inv L v' ∧ v'.cwd = 0 ∧ v'.boot = v.boot ∧ Filled L (names ++ rest) v' ∧
      (∀ c, L.sb.dataStart + names.length + rest.length < c → v'.blk c = v.blk c) ∧
      (∀ j, j ≤ names.length ∨ names.length + rest.length < j → v'.ino j = v.ino j) ∧
      ∀ j, names.length < j → j ≤ names.length + rest.length → ∀ r, r < 15 →
        (v'.ino j).ptr r = if r = 0 then L.sb.dataStart + j else 0 := by
  have h32 := L.total
  induction rest with
  | nil =>
    intro names s v h hv hcwd hf _ _ _ _ _
    refine ⟨v, h, hv, hcwd, rfl, by rwa [List.append_nil], fun _ _ => rfl, fun _ _ => rfl, ?_⟩
    intro j hj hj'
    exact absurd hj' (Nat.not_le_of_lt hj)
  | cons name rest ih =>
    intro names s v h hv hcwd hf hnd hshort hslots hroom hino
    rw [List.length_cons] at hslots hroom hino
    rw [List.foldl_cons, h.cwd, hcwd]
    obtain ⟨v1, h1, hc⟩ := h.fsCreateDir_spec hv hv.root name
    have hv1 := hc.inv hv hv.root (Inode.fresh_blank 2) fun _ => rfl
    have hnew : name ∉ names := fun hmem =>
      (List.nodup_append.mp hnd).2.2 name hmem name (List.mem_cons_self ..) rfl
    obtain ⟨-, hv'⟩ := hf.create_eq (by omega) (by omega) (by omega) hnew hc
    have hf1 : Filled L (names ++ [name]) v1 := by
      rw [hv']
      exact hf.extend _ _ (by omega) (hshort name (List.mem_cons_self ..))
    have happ : names ++ name :: rest = names ++ [name] ++ rest := by simp
    obtain ⟨v2, h2, hv2, hcwd2, hboot2, hf2, hblk2, hino2, hptr2⟩ :=
      ih h1 hv1 (hc.cwd.trans hcwd) hf1
      (happ ▸ hnd) (fun nm hnm => hshort nm (List.mem_cons_of_mem _ hnm))
      (by simp only [List.length_append, List.length_singleton]; omega)
      (by simp only [List.length_append, List.length_singleton]; omega)
      (by simp only [List.length_append, List.length_singleton]; omega)
    rw [List.length_append, List.length_singleton] at hblk2 hino2 hptr2
    rw [List.length_cons]
    refine ⟨v2, h2, hv2, hcwd2, hboot2.trans hc.boot, happ ▸ hf2, fun c hcgt => ?_, fun j hj => ?_,
      fun j hj hj' r hr => ?_⟩
    · rw [hblk2 c (by omega), hv', Img.extend_blk (by omega)]
    · rw [hino2 j (by omega), hv', Img.extend_ino, if_neg (by omega)]
    · -- the first of them is the one created here
      by_cases hfirst : j = names.length + 1
      · rw [hino2 j (by omega), hv', Img.extend_ino, if_pos hfirst, hfirst, Nat.add_assoc,
          (Inode.fresh_blank 2).ptr_setPtr hr (by omega)]
      · exact hptr2 j (by omega) (by omega) r hr

/-- A drive right after `qformat_fs`: the five default directories and nothing else. The
data blocks and inodes after theirs keep what they held. -/
theorem qformatFs_filled (s : Cos)
    (hroom : s.layout.sb.dataStart + 5 <
      s.layout.sb.totalBlocks)
    (hino : 5 < s.layout.sb.inodeCount) :
    ∃ v, Rep s.layout s.qformatFs v ∧
      Img.Inv s.layout v ∧ v.cwd = 0 ∧
      v.boot = s.layout.sb.encode ∧
      Filled s.layout Cos.defaultDirs v ∧
      (∀ c, s.layout.sb.dataStart + 5 < c → v.blk c = s.blockRead c) ∧
      (∀ j, 5 < j → v.ino j = (s.wipeFs s.layout.sb).readInode j) ∧
      ∀ j, j ≤ 5 → ∀ r, r < 15 → (v.ino j).ptr r =
        if r = 0 then s.layout.sb.dataStart + j else 0 := by
  set L := s.layout
  have hlen : Cos.defaultDirs.length = 5 := rfl
  obtain ⟨hroot, hinv⟩ := formatRoot_spec s L (by omega)
  obtain ⟨v, hrep, hv, hcwd, hboot, hf, hblk, hnew, hptr⟩ :=
    createDirs_filled Cos.defaultDirs hroot hinv rfl
    (filled_rootImg s (by omega)) (by decide) (by decide) (by decide) (by simp [hlen]; omega)
    (by simp [hlen]; omega)
  rw [List.length_nil, hlen] at hblk hnew hptr
  have hboot' := hboot.trans Img.born_boot
  refine ⟨v, qformatFs_rep hrep hv hboot', hv, hcwd, hboot', hf, fun c hc => ?_, fun j hj => ?_,
    fun j hj r hr => ?_⟩
  · rw [hblk c (by omega), rootImg, Img.born_blk (by omega)]
    exact blankImg_blk (by omega)
  · rw [hnew j (by omega), rootImg, Img.born_ino, if_neg (by omega)]
    rfl
  · rcases Nat.eq_zero_or_pos j with rfl | hpos
    · exact hf.ptr r hr
    · exact hptr j hpos (by omega) r hr

/-- A file created in a fresh root. -/
theorem createFile_filled (h : Rep L s v) (hv : Img.Inv L v) (hcwd : v.cwd = 0)
    (hf : Filled L names v) (name tag : CStr) (htag : tag.length ≠ 0) (hnew : name ∉ names)
    (hslot : names.length < 16)
    (hroom : L.sb.dataStart + names.length + 1 < L.sb.totalBlocks)
    (hino : names.length + 1 < L.sb.inodeCount) :
    (s.fsCreateFile name tag).1 = some (names.length + 1) ∧
      Rep L (s.fsCreateFile name tag).2 (Img.extend L v names.length name (fileNode tag) false) ∧
      Img.Inv L (Img.extend L v names.length name (fileNode tag) false) := by
  have hd : Img.IsDir L v v.cwd := hcwd ▸ hv.root
  obtain ⟨v', h', hc⟩ := h.fsCreateFile_spec hv hd name tag htag
  have hv' := hc.inv hv hd (fresh_fileNode tag)
    (fileNode_not_dir tag)
  rw [hcwd] at hc
  obtain ⟨hres, heq⟩ := hf.create_eq hroom hino hslot hnew hc
  exact ⟨hres, heq ▸ h', heq ▸ hv'⟩

end Rep

/-! ### A drive with one file -/

namespace Cos

theorem setCwd_self {s : Cos} {d : Nat} (h : s.gCurrentDir = d) :
    { s with gCurrentDir := d } = s := by
  rw [← h]

/-- The file name `"f"`. -/
def fName : CStr := ⟨[0x66], by decide⟩

/-- The state after `qformat_fs` and `fs_create_file("f", "f")` in the root. -/
def oneFile (s₀ : Cos) : Cos := s₀.qformatFs.apply (.createFile 0 fName fName)

end Cos

/-- The image of `Cos.oneFile`: inode 6 is the file, it has one block, and the data blocks
from that one on hold what they held before the format. -/
structure Img.OneFile (s₀ : Cos) (L : Layout) (v : Img) : Prop where
  inv : Inv L v
  room : L.sb.dataStart + 6 < L.sb.totalBlocks
  boot : v.boot = L.sb.encode
  filled : Filled L (Cos.defaultDirs ++ [Cos.fName]) v
  ino : v.ino 6 = (Rep.fileNode Cos.fName).setPtr 0 (L.sb.dataStart + 6)
  blk : ∀ c, L.sb.dataStart + 5 < c → v.blk c = s₀.blockRead c

namespace Cos

/-- A file is created on a fresh drive with room for it. -/
theorem oneFile_spec (s₀ : Cos)
    (hroom : s₀.layout.sb.dataStart + 6 <
      s₀.layout.sb.totalBlocks) :
    Run s₀ s₀.oneFile ∧ ∃ v, Rep s₀.layout s₀.oneFile v ∧
      Img.OneFile s₀ s₀.layout v := by
  have hino := s₀.layout.inodes_pos
  have hlen : defaultDirs.length = 5 := rfl
  obtain ⟨v, hrep, hv, hcwd, hboot, hf, hblk, -⟩ :=
    Rep.qformatFs_filled s₀ (by omega) (by omega)
  obtain ⟨-, hrep', hv'⟩ := hrep.createFile_filled hv hcwd hf fName fName
    (by decide) (by decide) (by rw [hlen]; omega) (by rw [hlen]; omega) (by rw [hlen]; omega)
  rw [hlen] at hrep' hv'
  have happly : s₀.oneFile = (s₀.qformatFs.fsCreateFile fName fName).2 := by
    rw [oneFile, apply, setCwd_self (hrep.cwd.trans hcwd)]
  have hstep : Step s₀.qformatFs s₀.oneFile :=
    ⟨.createFile 0 fName fName, hrep.dirInode_iff.mpr hv.root, rfl⟩
  refine ⟨Relation.ReflTransGen.single hstep, _, happly ▸ hrep', hv', hroom, ?_, ?_, ?_, ?_⟩
  · exact Img.born_boot.trans hboot
  · rw [← hlen]
    exact hf.extend _ _ (by rw [hlen]; omega) (by decide)
  · rw [Img.extend_ino, if_pos rfl]
  · intro c hc
    by_cases h6 : c = s₀.layout.sb.dataStart + 6
    · rw [h6, Img.extend_blk_new, hblk _ (by omega)]
    · rw [Img.extend_blk (by omega), hblk c hc]

end Cos

namespace Img

variable {s₀ : Cos} {L : Layout} {v : Img}

section

variable (h : OneFile s₀ L v)
include h

theorem OneFile.used : v.used 6 = true := by
  rw [h.filled.used]
  decide

theorem OneFile.type : (v.ino 6).type = 1 := by
  rw [h.ino, Inode.type, Inode.raw_setPtr (by omega) (by omega)]
  exact Rep.fileNode_type _

theorem OneFile.size : (v.ino 6).size = 0 := by
  rw [h.ino, ← (Rep.fresh_fileNode Cos.fName).size]
  exact Buf.get32_put32_out (by omega)

/-- The file has its first direct block and no other. -/
theorem OneFile.ptr {r : Nat} (hr : r < 15) :
    (v.ino 6).ptr r = if r = 0 then L.sb.dataStart + 6 else 0 := by
  have h32 := L.total
  have hroom := h.room
  rw [h.ino, (Rep.fresh_fileNode Cos.fName).ptr_setPtr hr (by omega)]

/-- The second block is not there, and is allocated. -/
theorem OneFile.alloc_second {s : Cos} (hrep : Rep L s v) (hlt : 6 < L.sb.inodeCount)
    (hroom : L.sb.dataStart + 7 < L.sb.totalBlocks) : s.lookup 6 1 = 0 ∧
      (s.getPhysicalBlock 6 (s.readInode 6) 1 true).1 ≠ 0 := by
  have hp : Cos.blockPath 1 = some (1, []) := by decide
  have hptr : (v.ino 6).ptr 1 = 0 := h.ptr (by omega)
  obtain ⟨v', -, -, -, -, hres, hacc, -⟩ := hrep.getPhysicalBlock_alloc h.inv.blocks hlt h.used hp
  rw [hrep.ino 6 hlt, hres]
  refine ⟨?_, ?_⟩
  · rw [Cos.lookup_eq hrep h.inv.blocks ⟨hlt, h.used⟩, Img.dataBlock_eq hp]
    exact (Img.forest_root hlt h.used (by omega)).trans hptr
  · have hff := h.filled.firstFree hroom
    rcases hacc with ⟨-, hne, -⟩ | ⟨hfree, -⟩
    · exact hne
    · rw [Img.missingBlocks, hp] at hfree
      simp only [hptr, if_true, List.length_nil] at hfree
      rw [Img.free_eq_zero.mp (by omega)] at hff
      cases hff

end

end Img

namespace Cos

variable {L : Layout} {s s₀ : Cos}

/-- **Ownership.** In every state of every run, a block pointer that can be reached from a
used inode is a data block, is marked used, and is found at one place of one inode. -/
theorem run_pointer_owned (s₀ : Cos) (hsize : 1024 ≤ s₀.driveSectors) (hrun : Run s₀ s)
    {i r : Nat} {p : List Nat} (hp : s.Pointer i r p) (hne : s.pointerAt i r p ≠ 0) :
    (s.gSuperblock.dataStart ≤ s.pointerAt i r p ∧ s.pointerAt i r p < s.gSuperblock.totalBlocks) ∧
      s.blockBit (s.pointerAt i r p) = true ∧
      ∀ i' r' p', s.Pointer i' r' p' → s.pointerAt i' r' p' = s.pointerAt i r p →
        i' = i ∧ r' = r ∧ p' = p := by
  obtain ⟨v, hrep, hv⟩ := hrun.sound (by omega)
  have hplace : ∀ {i r p}, s.Pointer i r p → PtrPlace (i, r) p := fun h => ⟨h.2.2.1, h.2.2.2⟩
  have heq := hrep.pointerAt_eq hv.blocks hp
  rw [heq] at hne
  obtain ⟨hrange, hbit⟩ := hv.blocks.live (i, r) p (hplace hp) hne
  rw [heq, hrep.sb, hrep.bit _ hrange.2]
  refine ⟨hrange, hbit, fun i' r' p' hp' he => ?_⟩
  rw [hrep.pointerAt_eq hv.blocks hp'] at he
  obtain ⟨hx, rfl⟩ := hv.blocks.owned (i, r) p (i', r') p' (hplace hp) (hplace hp') hne he.symm
  cases hx
  exact ⟨rfl, rfl, rfl⟩

theorem run_pointer_owned_file :
    let s := (zeroDrive 1024).oneFile
    s.pointerAt 6 0 [] ≠ 0 ∧ s.blockBit (s.pointerAt 6 0 []) = true := by
  obtain ⟨hrun, v, hrep, hone⟩ := oneFile_spec (zeroDrive 1024) (by decide)
  have hlt : 6 < (zeroDrive 1024).layout.sb.inodeCount := by decide
  have hp : Pointer _ 6 0 [] :=
    ⟨hrep.inUse_iff.mpr ⟨hlt, hone.used⟩, by omega, by simp, by simp⟩
  have hne : (v.ino 6).ptr 0 ≠ 0 := by
    rw [hone.ptr (by omega), if_pos rfl]
    omega
  have hat := (hrep.pointerAt_eq hone.inv.blocks hp).trans
    (Img.forest_root hlt hone.used (by omega))
  exact ⟨hat ▸ hne, (run_pointer_owned _ (Nat.le_refl _) hrun hp (hat ▸ hne)).2.1⟩

/-- In every state of every run, `get_physical_block` with `do_alloc` updates one entry of the array
of all inodes' blocks: the entry gets the block that is returned, which is its old one or was free,
and every other entry keeps its block, which is another. -/
theorem run_blocks_array (s₀ : Cos) (hsize : 1024 ≤ s₀.driveSectors) (hrun : Run s₀ s)
    {i : Nat} (hi : s.InUse i) (l : Nat) :
    let t := s.getPhysicalBlock i (s.readInode i) l true
    t.2.1 = t.2.2.readInode i ∧ t.2.2.lookup i l = t.1 ∧ (s.lookup i l ≠ 0 → t.1 = s.lookup i l) ∧
      (s.lookup i l = 0 → t.1 ≠ 0 → s.blockBit t.1 = false) ∧
      ∀ j m, s.InUse j → (j, m) ≠ (i, l) →
        t.2.2.lookup j m = s.lookup j m ∧ (t.1 ≠ 0 → s.lookup j m ≠ t.1) := by
  obtain ⟨v, hrep, hv⟩ := hrun.sound (by omega)
  have hb := hv.blocks
  have hi' := hrep.inUse_iff.mp hi
  intro t
  cases hp : blockPath l with
  | none =>
    -- past the last block of the triple indirect pointer
    have ht : ∀ a, s.getPhysicalBlock i (s.readInode i) l a = (0, s.readInode i, s) := fun a => by
      rw [getPhysicalBlock, hp]
    have h0 : s.lookup i l = 0 := congrArg Prod.fst (ht false)
    simp [t, ht, h0]
  | some rp =>
    obtain ⟨r, path⟩ := rp
    obtain ⟨v', hrep', hb', hg, hino, hres, -⟩ := hrep.getPhysicalBlock_alloc hb hi'.1 hi'.2 hp
    rw [← hrep.ino i hi'.1] at hrep' hino hres
    change t.1 = _ at hres
    have hx := ptrPlace_of_path (i := i) hp
    have hleaf : v'.dataBlock s₀.layout i l = _ := Img.dataBlock_eq hp
    have hlook : ∀ j m, s.InUse j → s.lookup j m = v.dataBlock _ j m ∧
        t.2.2.lookup j m = v'.dataBlock _ j m := fun j m hj => by
      have hj' := hrep.inUse_iff.mp hj
      exact ⟨lookup_eq hrep hb hj' m, lookup_eq hrep' hb' (hg.used ▸ hj') m⟩
    refine ⟨hino.trans (hrep'.ino i hi'.1).symm, (hlook i l hi).2.trans hres.symm, fun h0 => ?_,
      fun h0 hne => ?_, fun j m hj hne => ?_⟩
    · rw [(hlook i l hi).1] at h0 ⊢
      exact hres.trans (hg.dataBlock_of_ne_zero h0)
    · rw [(hlook i l hi).1, Img.dataBlock_eq hp] at h0
      rw [hres, hleaf] at hne ⊢
      have hfree := ((hg.ptr _ _ hx).resolve_left fun h => hne (h.trans h0)).2.2.2
      exact (hrep.bit _ (hb'.live _ _ hx hne).1.2).trans hfree
    · have heq : t.2.2.lookup j m = s.lookup j m := by
        rw [(hlook j m hj).1, (hlook j m hj).2]
        by_cases hji : j = i
        · subst hji
          exact hg.dataBlock_ne hp fun h => hne (by rw [h])
        · exact Img.dataBlock_congr (fun r' p' hx' => (hg.ptr _ _ hx').resolve_right fun h =>
            hji (congrArg Prod.fst h.1)) m
      refine ⟨heq, fun h0 hsame => ?_⟩
      -- both entries would have the block after the call, and a block has one place
      rw [← heq, (hlook j m hj).2] at hsame
      obtain ⟨r', p', hp', hx', -, hd⟩ := Img.exists_path fun h => h0 (hsame.symm.trans h)
      rw [hres, hleaf] at h0
      rw [hd, hres, hleaf] at hsame
      obtain ⟨hxx, rfl⟩ := hb'.owned _ _ _ _ hx hx' h0 hsame.symm
      cases hxx
      exact hne (by rw [Img.path_eq_of_init hp hp' (List.prefix_refl _)])

theorem run_blocks_array_file :
    let s := (zeroDrive 1024).oneFile
    let t := s.getPhysicalBlock 6 (s.readInode 6) 1 true
    s.lookup 6 1 = 0 ∧ t.1 ≠ 0 ∧ s.blockBit t.1 = false ∧ t.2.2.lookup 6 1 = t.1 ∧
      t.2.2.lookup 6 0 = s.lookup 6 0 := by
  obtain ⟨hrun, v, hrep, hone⟩ := oneFile_spec (zeroDrive 1024) (by decide)
  have hlt : 6 < (zeroDrive 1024).layout.sb.inodeCount := by decide
  have hi := hrep.inUse_iff.mpr ⟨hlt, hone.used⟩
  obtain ⟨h0, hne⟩ := hone.alloc_second hrep hlt (by decide)
  obtain ⟨-, hnew, -, hfree, hother⟩ := run_blocks_array _ (Nat.le_refl _) hrun hi 1
  generalize oneFile _ = s at *
  exact ⟨h0, hne, hfree h0 hne, hnew, (hother 6 0 hi (by decide)).1⟩

end Cos

end Crusadia
