import Crusadia.Cos.Read

/-!
# Crusadia.Cos.Dir

**Directories of a COS image** and the filesystem's invariant.

A directory's entries are the 16 slots of each of its direct blocks. `Img.Inv` adds to the
ownership of blocks what the operations need from the directories: a directory's direct
pointers are filled from the front, every entry names a used inode, and no inode is named
twice. `dir_lookup` and `dir_remove` search the slots in the same order, so what one finds
the other removes (`Rep.dirRemove_of_lookup`); `dir_add` has four outcomes (`DirAdd`).
-/

namespace Crusadia

/-! ### Entries as bytes -/

section entries

variable {buf : Sector} {i j n : Nat} {name : CStr}

theorem entInode_putEnt_same (hi : i < 16) : entInode (putEnt buf i n name) i = n % 2 ^ 32 := by
  rw [entInode, putEnt, Buf.get32_splice_out (by omega), Buf.get32_put32_same _ (by omega)]

theorem entInode_putEnt_ne (h : j ≠ i) : entInode (putEnt buf i n name) j = entInode buf j := by
  rw [entInode, putEnt, Buf.get32_splice_out (by omega), Buf.get32_put32_out (by omega), entInode]

theorem entInode_clearEnt_ne (h : j ≠ i) : entInode (clearEnt buf i) j = entInode buf j := by
  rw [entInode, clearEnt, Buf.get32_splice_out (by omega), entInode]

theorem entInode_zero (i : Nat) : entInode (Buf.zero : Sector) i = 0 := Buf.get32_zero _

theorem entInode_clearEnt_same (hi : i < 16) : entInode (clearEnt buf i) i = 0 := by
  rw [← entInode_zero i, entInode, entInode]
  refine Buf.get32_congr fun k hk => ?_
  rw [clearEnt, Buf.get_splice_in (by omega) (by omega) (by omega), Buf.get_zero]

end entries

namespace Img

/-- `d` is a used directory inode. -/
structure IsDir (L : Layout) (v : Img) (d : Nat) : Prop where
  lt : d < L.sb.inodeCount
  used : v.used d = true
  type : (v.ino d).type = 2

/-- Slot `k` of direct block `b` of directory `d`. -/
structure Slot (L : Layout) (v : Img) (d b k : Nat) : Prop where
  dir : IsDir L v d
  block : b < 12
  ptr : (v.ino d).ptr b ≠ 0
  slot : k < 16

/-- The same, as far as the inode goes. -/
structure Place (v : Img) (d b k : Nat) : Prop where
  block : b < 12
  ptr : (v.ino d).ptr b ≠ 0
  slot : k < 16

theorem Place.inDir {L : Layout} {v : Img} {d b k : Nat} (h : Place v d b k) (hd : IsDir L v d) :
    Slot L v d b k := ⟨hd, h.block, h.ptr, h.slot⟩

/-- The inode number in a slot, 0 if the slot is free. -/
def ent (v : Img) (d b k : Nat) : Nat := entInode (v.blk ((v.ino d).ptr b)) k

/-- What every operation of the filesystem keeps. -/
structure Inv (L : Layout) (v : Img) : Prop where
  blocks : Blocks L v
  root : IsDir L v 0
  first : ∀ d, IsDir L v d → (v.ino d).ptr 0 ≠ 0
  dense : ∀ d b, IsDir L v d → b + 1 < 12 → (v.ino d).ptr (b + 1) ≠ 0 → (v.ino d).ptr b ≠ 0
  live : ∀ d b k, Slot L v d b k → v.ent d b k ≠ 0 →
    v.ent d b k < L.sb.inodeCount ∧ v.used (v.ent d b k) = true
  unique : ∀ d b k d' b' k', Slot L v d b k → Slot L v d' b' k' → v.ent d b k ≠ 0 →
    v.ent d b k = v.ent d' b' k' → d = d' ∧ b = b' ∧ k = k'

/-- What `dir_lookup`, `dir_add` and `dir_remove` rely on: the blocks of inode `d` are data blocks
with no gap between them, and its entries name inodes. -/
structure DirWf (L : Layout) (v : Img) (d : Nat) : Prop where
  lt : d < L.sb.inodeCount
  type : (v.ino d).type = 2
  range : ∀ b, b < 12 → (v.ino d).ptr b ≠ 0 →
    L.sb.dataStart ≤ (v.ino d).ptr b ∧ (v.ino d).ptr b < L.sb.totalBlocks
  dense : ∀ b, b + 1 < 12 → (v.ino d).ptr (b + 1) ≠ 0 → (v.ino d).ptr b ≠ 0
  live : ∀ b k, Place v d b k → v.ent d b k < L.sb.inodeCount

variable {L : Layout} {v v' : Img} {d b k i : Nat}

/-- A directory block has a place of its own. -/
theorem Slot.ptr_eq (h : Slot L v d b k) : v.ptr L (d, b) [] = (v.ino d).ptr b :=
  forest_root h.dir.lt h.dir.used (by have := h.block; omega)

/-- A directory block is a leaf. -/
theorem dir_leaf (hb : b < 12) : ([] : List Nat).length = ptrDepth (d, b) := by
  simp only [ptrDepth, List.length_nil]
  omega

/-- Data blocks of different places do not share a block: directory blocks. -/
theorem Slot.injective {d' b' k' : Nat} (hb : Blocks L v) (h : Slot L v d b k)
    (h' : Slot L v d' b' k') (heq : (v.ino d).ptr b = (v.ino d').ptr b') : d = d' ∧ b = b' := by
  have hp := hb.owned (d, b) [] (d', b') [] (Forest.place_nil _) (Forest.place_nil _)
  have hptr : (v.forest L).ptr (d, b) [] = (v.ino d).ptr b := h.ptr_eq
  have hptr' : (v.forest L).ptr (d', b') [] = (v.ino d').ptr b' := h'.ptr_eq
  rw [hptr, hptr'] at hp
  exact Prod.mk.inj (hp h.ptr heq).1

theorem IsDir.congr (hd : IsDir L v d) (hu : v'.used d = v.used d) (hi : v'.ino d = v.ino d) :
    IsDir L v' d :=
  ⟨hd.lt, hu.trans hd.used, hi ▸ hd.type⟩

theorem IsDir.ne (hd : IsDir L v d) (hu : v.used i = false) : d ≠ i := by
  rintro rfl
  exact absurd (hd.used.symm.trans hu) (by decide)

theorem Slot.congr (hs : Slot L v d b k) (hu : v'.used d = v.used d) (hi : v'.ino d = v.ino d) :
    Slot L v' d b k :=
  ⟨hs.dir.congr hu hi, hs.block, hi ▸ hs.ptr, hs.slot⟩

theorem dir_range (hb : Blocks L v) (hd : IsDir L v d) (hlt : b < 12) (h0 : (v.ino d).ptr b ≠ 0) :
    L.sb.dataStart ≤ (v.ino d).ptr b ∧ (v.ino d).ptr b < L.sb.totalBlocks := by
  have hptr : v.ptr L (d, b) [] = (v.ino d).ptr b := forest_root hd.lt hd.used (by omega)
  rw [← hptr] at h0 ⊢
  exact (hb.live _ _ (Forest.place_nil _) h0).1

section

variable (h : Frame L i v v') (hne : d ≠ i)
include h hne

theorem Frame.isDir : IsDir L v' d ↔ IsDir L v d :=
  ⟨fun hd => hd.congr (h.used_ne d hne).symm (h.ino d hne).symm,
    fun hd => hd.congr (h.used_ne d hne) (h.ino d hne)⟩

/-- The directories that a change does not concern. -/
theorem Frame.slot (hs : Slot L v' d b k) :
    Slot L v d b k ∧ v'.blk ((v'.ino d).ptr b) = v.blk ((v.ino d).ptr b) := by
  have hino := h.ino d hne
  have hs' : Slot L v d b k := hs.congr (h.used_ne d hne).symm hino.symm
  refine ⟨hs', ?_⟩
  rw [hino, ← hs'.ptr_eq,
    h.blk (d, b) [] (Forest.place_nil _) hne (by rw [hs'.ptr_eq]; exact hs'.ptr)]

theorem Frame.entry (hs : Slot L v' d b k) :
    Slot L v d b k ∧ v'.ent d b k = v.ent d b k :=
  (h.slot hne hs).imp_right (congrArg (entInode · k))

end

theorem Edit.type (h : Edit L i v v') : (v'.ino i).type = (v.ino i).type := h.raw 64 (by omega)

/-- The directories stay the same. -/
theorem Edit.isDir (h : Edit L i v v') : IsDir L v' d ↔ IsDir L v d := by
  by_cases hne : d = i
  · subst hne
    exact ⟨fun hd => ⟨hd.lt, h.used ▸ hd.used, h.type ▸ hd.type⟩,
      fun hd => ⟨hd.lt, h.used ▸ hd.used, h.type ▸ hd.type⟩⟩
  · exact h.toFrame.isDir hne

/-! ### From one image to another -/

section

variable (h : Inv L v) (hb' : Blocks L v') (hroot : IsDir L v' 0)
  (hdir : ∀ d, IsDir L v' d → (IsDir L v d ∧ v'.ino d = v.ino d) ∨ (v'.ino d).ptr 0 ≠ 0 ∧
    ∀ b, b + 1 < 12 → (v'.ino d).ptr (b + 1) ≠ 0 → (v'.ino d).ptr b ≠ 0)
include h hb' hroot hdir

/-- Every entry is an old one, or the one at `x`, which names an inode that had no entry. -/
theorem Inv.of_entries (x : Nat × Nat × Nat) (hent : ∀ d b k, Slot L v' d b k → v'.ent d b k ≠ 0 →
      (v'.ent d b k < L.sb.inodeCount ∧ v'.used (v'.ent d b k) = true) ∧
      ((Slot L v d b k ∧ v'.ent d b k = v.ent d b k) ∨
        (d, b, k) = x ∧ ∀ d' b' k', Slot L v d' b' k' → v.ent d' b' k' ≠ v'.ent d b k)) :
    Inv L v' := by
  refine ⟨hb', hroot, fun d hd => ?_, fun d b hd => ?_, fun d b k hs h0 => (hent d b k hs h0).1, ?_⟩
  · rcases hdir d hd with ⟨hd', hino⟩ | hown
    · rw [hino]
      exact h.first d hd'
    · exact hown.1
  · rcases hdir d hd with ⟨hd', hino⟩ | hown
    · rw [hino]
      exact h.dense d b hd'
    · exact hown.2 b
  · intro d b k d' b' k' hs hs' h0 heq
    rcases (hent d b k hs h0).2 with ⟨hold, he⟩ | ⟨hx, hnew⟩ <;>
      rcases (hent d' b' k' hs' (heq ▸ h0)).2 with ⟨hold', he'⟩ | ⟨hx', hnew'⟩
    · exact h.unique d b k d' b' k' hold hold' (he ▸ h0) (he.symm.trans (heq.trans he'))
    · exact absurd (he.symm.trans heq) (hnew' d b k hold)
    · exact absurd (he'.symm.trans heq.symm) (hnew d' b' k' hold')
    · cases hx.trans hx'.symm
      exact ⟨rfl, rfl, rfl⟩

/-- No entry is new. -/
theorem Inv.of_old (hent : ∀ d b k, Slot L v' d b k → v'.ent d b k ≠ 0 →
      Slot L v d b k ∧ v'.ent d b k = v.ent d b k)
    (hused : ∀ d b k, Slot L v d b k → v'.ent d b k = v.ent d b k → v.ent d b k < L.sb.inodeCount →
      v.used (v.ent d b k) = true → v'.used (v.ent d b k) = true) : Inv L v' := by
  refine h.of_entries hb' hroot hdir (0, 0, 0) fun d b k hs h0 => ?_
  obtain ⟨hs', heq⟩ := hent d b k hs h0
  obtain ⟨hlt, hu⟩ := h.live d b k hs' (heq ▸ h0)
  refine ⟨?_, .inl ⟨hs', heq⟩⟩
  rw [heq]
  exact ⟨hlt, hused d b k hs' heq hlt hu⟩

end

theorem Edit.ne (hf : Edit L i v v') (hi : (v.ino i).type ≠ 2) (hd : IsDir L v' d) : d ≠ i := by
  rintro rfl
  exact hi (hf.type ▸ hd.type)

/-- Changes to a file cannot be seen from the directories. -/
theorem Inv.edit (h : Inv L v) (hf : Edit L i v v') (hb' : Blocks L v')
    (hi : (v.ino i).type ≠ 2) : Inv L v' :=
  h.of_old hb' (hf.isDir.mpr h.root)
    (fun d hd => .inl ⟨hf.isDir.mp hd, hf.ino d (hf.ne hi hd)⟩)
    (fun _ _ _ hs _ => hf.toFrame.entry (hf.ne hi hs.dir) hs) fun _ _ _ _ _ _ hu => hf.used ▸ hu

/-- Images that agree on the drive satisfy the invariant together. -/
theorem Inv.congr (h : Inv L v) (hused : ∀ i, i < L.sb.inodeCount → v'.used i = v.used i)
    (hino : ∀ i, i < L.sb.inodeCount → v'.ino i = v.ino i)
    (hbit : ∀ b, b < L.sb.totalBlocks → v'.bit b = v.bit b)
    (hblk : ∀ b, L.sb.dataStart ≤ b → b < L.sb.totalBlocks → v'.blk b = v.blk b) : Inv L v' := by
  have h0 := h.root.lt
  refine h.of_old (h.blocks.congr hused hino hblk hbit) (h.root.congr (hused 0 h0) (hino 0 h0))
    (fun d hd => .inl ⟨hd.congr (hused d hd.lt).symm (hino d hd.lt).symm, hino d hd.lt⟩)
    (fun d b k hs _ => ?_) fun _ _ _ _ _ hlt hu => (hused _ hlt).trans hu
  have hd := hino d hs.dir.lt
  have hs' : Slot L v d b k := hs.congr (hused d hs.dir.lt).symm hd.symm
  obtain ⟨h1, h2⟩ := dir_range h.blocks hs'.dir hs'.block hs'.ptr
  exact ⟨hs', by rw [ent, ent, hd, hblk _ h1 h2]⟩

/-- The current directory is no part of the drive. -/
theorem Inv.cwd (h : Inv L v) (d : Nat) : Inv L { v with cwd := d } :=
  h.congr (fun _ _ => rfl) (fun _ _ => rfl) (fun _ _ => rfl) fun _ _ _ => rfl

end Img

/-! ### Searching -/

namespace Img

/-- The first slot of directory `d`, from block `b` on, that holds `name`. -/
def findSlot (v : Img) (d : Nat) (name : CStr) : Nat → Nat → Option (Nat × Nat)
  | 0, _ => none
  | count + 1, b =>
    if (v.ino d).ptr b = 0 then none else
    match (List.range 16).find? fun k =>
        v.ent d b k != 0 && strEq (entName (v.blk ((v.ino d).ptr b)) k) name with
    | some k => some (b, k)
    | none => findSlot v d name count (b + 1)

variable {L : Layout} {v v' : Img} {d b k : Nat} {name : CStr}

theorem findSlot_some {count b' : Nat} (h : v.findSlot d name count b = some (b', k)) :
    (b ≤ b' ∧ b' < b + count) ∧ (v.ino d).ptr b' ≠ 0 ∧ k < 16 ∧ v.ent d b' k ≠ 0 := by
  induction count generalizing b with
  | zero => cases h
  | succ count ih =>
    rw [findSlot] at h
    split at h
    · cases h
    · rename_i h0
      split at h
      · rename_i k' hfind
        cases h
        have hmem := List.mem_of_find?_eq_some hfind
        have hk := List.find?_some hfind
        simp only [Bool.and_eq_true, bne_iff_ne] at hk
        exact ⟨⟨Nat.le_refl _, by omega⟩, h0, List.mem_range.mp hmem, hk.1⟩
      · obtain ⟨hr, hrest⟩ := ih h
        exact ⟨⟨by omega, by omega⟩, hrest⟩

theorem DirWf.ptr_zero_of_le (h : DirWf L v d) (h0 : (v.ino d).ptr b = 0) :
    ∀ b', b ≤ b' → b' < 12 → (v.ino d).ptr b' = 0 := by
  intro b' hle
  induction b', hle using Nat.le_induction with
  | base => exact fun _ => h0
  | succ n _ ih =>
    intro hn
    by_contra hne
    exact h.dense n hn hne (ih (by omega))

/-- All blocks of a directory before one of its blocks. -/
theorem DirWf.ptr_before (h : DirWf L v d) (hb : b < 12) (h0 : (v.ino d).ptr b ≠ 0) {c : Nat}
    (hc : c ≤ b) : (v.ino d).ptr c ≠ 0 :=
  fun hzero => h0 (h.ptr_zero_of_le hzero b hc hb)

/-- What a search finds is an entry that names an inode in use. -/
theorem Inv.find (h : Inv L v) (hd : IsDir L v d) (hfind : v.findSlot d name 12 0 = some (b, k)) :
    Slot L v d b k ∧ v.ent d b k ≠ 0 ∧ v.ent d b k < L.sb.inodeCount ∧
      v.used (v.ent d b k) = true := by
  obtain ⟨⟨-, hb⟩, hptr, hk, hent⟩ := findSlot_some hfind
  have hs : Slot L v d b k := ⟨hd, by omega, hptr, hk⟩
  exact ⟨hs, hent, h.live d b k hs hent⟩

theorem Inv.dirWf (h : Inv L v) (hd : IsDir L v d) : DirWf L v d where
  lt := hd.lt
  type := hd.type
  range := fun _ => dir_range h.blocks hd
  dense := fun b => h.dense d b hd
  live := by
    intro b k hp
    by_cases h0 : v.ent d b k = 0
    · rw [h0]
      exact Nat.lt_of_le_of_lt (Nat.zero_le _) hd.lt
    · exact (h.live d b k ⟨hd, hp.block, hp.ptr, hp.slot⟩ h0).1

end Img

namespace Rep

variable {L : Layout} {s : Cos} {v : Img} {d b : Nat} {name : CStr}

section

variable (h : Rep L s v) (hd : Img.DirWf L v d)
include h hd

theorem read_dir (hlt : b < 12)
    (h0 : (v.ino d).ptr b ≠ 0) : s.blockRead ((v.ino d).ptr b) = v.blk ((v.ino d).ptr b) :=
  h.blk _ (hd.range b hlt h0).1 (hd.range b hlt h0).2

theorem dirLookupFrom_eq : ∀ count b, b + count ≤ 12 → s.dirLookupFrom (v.ino d) name count b =
      (v.findSlot d name count b).map fun bk => v.ent d bk.1 bk.2 := by
  intro count
  induction count with
  | zero => exact fun _ _ => rfl
  | succ count ih =>
    intro b hb
    rw [Cos.dirLookupFrom, Img.findSlot]
    by_cases h0 : (v.ino d).ptr b = 0
    · simp [h0]
    · rw [if_neg h0, if_neg h0]
      have hpred : ∀ k ∈ List.range 16,
          (entInode (v.blk ((v.ino d).ptr b)) k != 0 &&
            decide (entInode (v.blk ((v.ino d).ptr b)) k < L.sb.inodeCount) &&
            strEq (entName (v.blk ((v.ino d).ptr b)) k) name) =
          (v.ent d b k != 0 && strEq (entName (v.blk ((v.ino d).ptr b)) k) name) := by
        intro k hk
        rw [Img.ent]
        by_cases hent : entInode (v.blk ((v.ino d).ptr b)) k = 0
        · simp [hent]
        · have := hd.live b k ⟨by omega, h0, List.mem_range.mp hk⟩
          rw [Img.ent] at this
          simp [this]
      simp only [h.read_dir hd (by omega) h0, h.sb]
      rw [List.find?_congr hpred]
      cases (List.range 16).find? fun k =>
          v.ent d b k != 0 && strEq (entName (v.blk ((v.ino d).ptr b)) k) name with
      | some k => rfl
      | none => exact ih (b + 1) (by omega)

/-- `dir_lookup` returns the inode in the first slot with that name. -/
theorem dirLookup_wf : s.dirLookup (v.ino d) name =
      (v.findSlot d name 12 0).map fun bk => v.ent d bk.1 bk.2 := by
  rw [Cos.dirLookup, if_neg (fun hne => hne hd.type)]
  exact h.dirLookupFrom_eq hd 12 0 (by omega)

end

theorem dirLookup_eq (h : Rep L s v) (hv : Img.Inv L v) (hd : Img.IsDir L v d) :
    s.dirLookup (v.ino d) name =
      (v.findSlot d name 12 0).map fun bk => v.ent d bk.1 bk.2 :=
  h.dirLookup_wf (hv.dirWf hd)

theorem dirRemoveFrom_of_zero (s : Cos) (node : Inode) (name : CStr) :
    ∀ count b, (∀ b', b ≤ b' → b' < b + count → node.ptr b' = 0) →
      s.dirRemoveFrom node name count b = (-1, s) := by
  intro count
  induction count with
  | zero => exact fun _ _ => rfl
  | succ count ih =>
    intro b h0
    rw [Cos.dirRemoveFrom, if_pos (h0 b (Nat.le_refl _) (by omega))]
    exact ih (b + 1) fun b' h1 h2 => h0 b' (by omega) (by omega)

/-- What `dir_remove` returns, for the slot that has the name. -/
def removeAt (s : Cos) (v : Img) (d : Nat) : Option (Nat × Nat) → Int × Cos
  | some (b, k) => (0, s.blockWrite ((v.ino d).ptr b) (clearEnt (v.blk ((v.ino d).ptr b)) k))
  | none => (-1, s)

/-- `dir_remove` clears the first slot with that name, if the directory has no gaps. -/
theorem dirRemove_of_dense (h : Rep L s v) (htype : (v.ino d).type = 2)
    (hrange : ∀ b, b < 12 → (v.ino d).ptr b ≠ 0 →
      L.sb.dataStart ≤ (v.ino d).ptr b ∧ (v.ino d).ptr b < L.sb.totalBlocks)
    (hdense : ∀ b, (v.ino d).ptr b = 0 → ∀ b', b ≤ b' → b' < 12 → (v.ino d).ptr b' = 0) :
    s.dirRemove (v.ino d) name = removeAt s v d (v.findSlot d name 12 0) := by
  have hfrom : ∀ count b, b + count = 12 → s.dirRemoveFrom (v.ino d) name count b =
      removeAt s v d (v.findSlot d name count b) := by
    intro count
    induction count with
    | zero => exact fun _ _ => rfl
    | succ count ih =>
      intro b hbc
      by_cases h0 : (v.ino d).ptr b = 0
      · rw [dirRemoveFrom_of_zero s _ name _ b fun b' h1 h2 => hdense b h0 b' h1 (by omega),
          Img.findSlot, if_pos h0, removeAt]
      · obtain ⟨h1, h2⟩ := hrange b (by omega) h0
        rw [Cos.dirRemoveFrom, Img.findSlot, if_neg h0, if_neg h0, h.blk _ h1 h2]
        simp only [Img.ent]
        cases (List.range 16).find? fun k => entInode (v.blk ((v.ino d).ptr b)) k != 0 &&
            strEq (entName (v.blk ((v.ino d).ptr b)) k) name with
        | some k => rfl
        | none => exact ih (b + 1) (by omega)
  rw [Cos.dirRemove, if_neg (fun hne => hne htype)]
  exact hfrom 12 0 rfl

/-- `dir_remove` clears the slot that `dir_lookup` finds. -/
theorem dirRemove_wf (h : Rep L s v) (hd : Img.DirWf L v d) :
    s.dirRemove (v.ino d) name = removeAt s v d (v.findSlot d name 12 0) :=
  h.dirRemove_of_dense hd.type hd.range fun _ => hd.ptr_zero_of_le

/-- `fs_dir_is_empty`: no slot is taken. -/
theorem fsDirIsEmpty_iff (h : Rep L s v) (hv : Img.Inv L v) (hd : Img.IsDir L v d) :
    s.fsDirIsEmpty d = true ↔ ∀ b k, Img.Slot L v d b k → v.ent d b k = 0 := by
  rw [Cos.fsDirIsEmpty, h.ino d hd.lt]
  dsimp only
  rw [if_neg (fun hne => hne hd.type), List.all_eq_true]
  constructor
  · intro hall b k hs
    have hb := hall b (List.mem_range.mpr hs.block)
    rw [if_neg hs.ptr, h.read_dir (hv.dirWf hd) hs.block hs.ptr, List.all_eq_true] at hb
    have hk := hb k (List.mem_range.mpr hs.slot)
    by_contra hne
    have := (hv.live d b k hs hne).1
    simp only [Img.ent] at hne this
    simp [hne, h.sb, this] at hk
  · intro hall b hb
    have hb := List.mem_range.mp hb
    split
    · rfl
    · rename_i h0
      rw [List.all_eq_true]
      intro k hk
      have := hall b k ⟨hd, hb, h0, List.mem_range.mp hk⟩
      rw [Img.ent] at this
      rw [h.read_dir (hv.dirWf hd) hb h0, this]
      rfl

end Rep

/-! ### Adding an entry -/

namespace Img

/-- The first `b` blocks of directory `d` have no free slot. -/
def FullTo (v : Img) (d b : Nat) : Prop :=
  ∀ b' k, b' < b → k < 16 → (v.ino d).ptr b' ≠ 0 ∧ v.ent d b' k ≠ 0

/-- The outcomes of `dir_add`: the image afterwards and the returned status. -/
inductive DirAdd (L : Layout) (v : Img) (d : Nat) (name : CStr) (idx : Nat) : Img → Int → Prop
  /-- An existing block has a free slot; the first one is taken. -/
  | slot (b k : Nat) (hp : Place v d b k) (hfree : v.ent d b k = 0) (hfull : FullTo v d b)
      (hfirst : ∀ k', k' < k → v.ent d b k' ≠ 0) :
      DirAdd L v d name idx
        (v.setBlk ((v.ino d).ptr b) (putEnt (v.blk ((v.ino d).ptr b)) k idx name)) 0
  /-- All blocks are full and a new one is added. -/
  | block (b nb : Nat) (hb : b < 12) (h0 : (v.ino d).ptr b = 0) (hfull : FullTo v d b)
      (hff : v.firstFree L = some nb) :
      DirAdd L v d name idx (((v.take nb false).setIno d ((v.ino d).setPtr b nb)).setBlk nb
        (putEnt Buf.zero 0 idx name)) 0
  /-- All blocks are full and there is no block to add. -/
  | noBlock (b : Nat) (hb : b < 12) (h0 : (v.ino d).ptr b = 0) (hfull : FullTo v d b)
      (hff : v.firstFree L = none) : DirAdd L v d name idx v (-1)
  /-- All twelve blocks are full. -/
  | full (hfull : FullTo v d 12) : DirAdd L v d name idx v (-1)

end Img

namespace Rep

variable {L : Layout} {s : Cos} {v : Img} {d : Nat}

/-- The first slot of an empty directory block is free. -/
theorem find?_zero : ((List.range 16).find? fun i => entInode (Buf.zero : Sector) i == 0) =
    some 0 := by
  simp [entInode_zero, List.range_succ_eq_map]

/-- The loop of `dir_add` from block `b` on, the blocks before it being full. -/
theorem dirAddFrom_spec (h : Rep L s v) (hd : Img.DirWf L v d) (name : CStr) (idx : Nat) :
    ∀ count b, b + count = 12 → v.FullTo d b →
    ∃ v', Rep L (Cos.dirAddFrom d name idx count b (v.ino d) s).2 v' ∧
      Img.DirAdd L v d name idx v' (Cos.dirAddFrom d name idx count b (v.ino d) s).1 ∧
      ((Cos.dirAddFrom d name idx count b (v.ino d) s).1 ≠ 0 →
        (Cos.dirAddFrom d name idx count b (v.ino d) s).2 = s) := by
  intro count
  induction count with
  | zero =>
    intro b hb hfull
    exact ⟨v, h, .full fun b' k hb' hk => hfull b' k (by omega) hk, fun _ => rfl⟩
  | succ count ih =>
    intro b hb hfull
    rw [Cos.dirAddFrom, Cos.dirAddBlock]
    by_cases h0 : (v.ino d).ptr b = 0
    · cases hff : v.firstFree L with
      | none =>
        simp only [if_pos h0, h.allocBlock_of_none hff]
        exact ⟨v, h, .noBlock b (by omega) h0 hfull hff, fun _ => rfl⟩
      | some nb =>
        simp only [if_pos h0, h.allocBlock_fst, hff]
        obtain ⟨⟨hr1, hr2⟩, -, hnb0, h32⟩ := Img.firstFree_facts hff
        have hptr : ((v.ino d).setPtr b nb).ptr b = nb := by
          rw [Inode.ptr_setPtr_same (by omega), h32]
        simp only [Option.getD_some, if_neg hnb0, find?_zero, hptr]
        have hrep := ((h.take hff false).writeInode ((v.ino d).setPtr b nb) hd.lt).writeBlk
          (putEnt Buf.zero 0 idx name) hr1 hr2
        exact ⟨_, hrep, .block b nb (by omega) h0 hfull hff, fun hne => absurd rfl hne⟩
    · obtain ⟨hr1, hr2⟩ := hd.range b (by omega) h0
      simp only [if_neg h0, h.blk _ hr1 hr2]
      cases hfind : (List.range 16).find? fun i => entInode (v.blk ((v.ino d).ptr b)) i == 0 with
      | some k =>
        rw [List.range_eq_range', List.find?_range'_eq_some, List.mem_range'_1, beq_iff_eq] at hfind
        obtain ⟨hfree, hk, hfirst⟩ := hfind
        refine ⟨_, h.writeBlk _ hr1 hr2,
          .slot b k ⟨by omega, h0, by omega⟩ hfree hfull fun k' hk' => ?_,
            fun hne => absurd rfl hne⟩
        have := hfirst k' (Nat.zero_le _) hk'
        rw [Bool.not_eq_true', beq_eq_false_iff_ne] at this
        exact this
      | none =>
        refine ih (b + 1) (by omega) fun b' k hb' hk => ?_
        by_cases hlt : b' < b
        · exact hfull b' k hlt hk
        · obtain rfl : b' = b := by omega
          have := List.find?_eq_none.mp hfind k (List.mem_range.mpr hk)
          rw [beq_iff_eq] at this
          exact ⟨h0, this⟩

/-- `dir_add`: when it fails, it has changed nothing. -/
theorem dirAdd_wf (h : Rep L s v) (hd : Img.DirWf L v d) (name : CStr) (idx : Nat) :
    ∃ v', Rep L (s.dirAdd d (v.ino d) name idx).2 v' ∧
      Img.DirAdd L v d name idx v' (s.dirAdd d (v.ino d) name idx).1 ∧
      ((s.dirAdd d (v.ino d) name idx).1 ≠ 0 → (s.dirAdd d (v.ino d) name idx).2 = s) :=
  h.dirAddFrom_spec hd name idx 12 0 rfl fun b' k hb' => absurd hb' (by omega)

/-- `dir_add` on a used directory. -/
theorem dirAdd_spec (h : Rep L s v) (hv : Img.Inv L v) (hd : Img.IsDir L v d) (name : CStr)
    (idx : Nat) : ∃ v', Rep L (s.dirAdd d (v.ino d) name idx).2 v' ∧
      Img.DirAdd L v d name idx v' (s.dirAdd d (v.ino d) name idx).1 := by
  obtain ⟨v', hrep, hadd, -⟩ := h.dirAdd_wf (hv.dirWf hd) name idx
  exact ⟨v', hrep, hadd⟩

end Rep

/-! ### The invariant after a directory changed -/

namespace Img

variable {L : Layout} {v v' : Img} {d b idx k : Nat} {name : CStr}

/-- The new entry of a successful `dir_add`, and the others. -/
structure Added (L : Layout) (v : Img) (d idx : Nat) (v' : Img) : Prop where
  blocks : Blocks L v'
  edit : Edit L d v v'
  size : (v'.ino d).size = (v.ino d).size
  first : (v'.ino d).ptr 0 ≠ 0
  dense : ∀ b, b + 1 < 12 → (v'.ino d).ptr (b + 1) ≠ 0 → (v'.ino d).ptr b ≠ 0
  entry : ∃ b₀ k₀, Slot L v' d b₀ k₀ ∧ v'.ent d b₀ k₀ = idx % 2 ^ 32 ∧
    (Slot L v d b₀ k₀ → v.ent d b₀ k₀ = 0) ∧
    ∀ b k, ¬ (b = b₀ ∧ k = k₀) →
      (Slot L v d b k → Slot L v' d b k ∧ v'.ent d b k = v.ent d b k) ∧
      (Slot L v' d b k → v'.ent d b k ≠ 0 → Slot L v d b k)

theorem Added.inv (ha : Added L v d idx v') (h : Inv L v)
    (hidx : idx < L.sb.inodeCount ∧ v.used idx = true)
    (hnew : ∀ d b k, Slot L v d b k → v.ent d b k ≠ idx) : Inv L v' := by
  obtain ⟨b₀, k₀, hs0, hent0, -, hrest⟩ := ha.entry
  have h32 : idx % 2 ^ 32 = idx := by
    have := L.inodes_le
    omega
  rw [h32] at hent0
  refine h.of_entries ha.blocks (ha.edit.isDir.mpr h.root) (fun d' hd' => ?_) (d, b₀, k₀)
    fun d' b k hs h0 => ?_
  · by_cases hne : d' = d
    · subst hne
      exact .inr ⟨ha.first, ha.dense⟩
    · exact .inl ⟨ha.edit.isDir.mp hd', ha.edit.ino d' hne⟩
  · rw [ha.edit.used]
    by_cases hnew' : (d', b, k) = (d, b₀, k₀)
    · cases hnew'
      rw [hent0]
      exact ⟨hidx, .inr ⟨rfl, hnew⟩⟩
    · have hold : Slot L v d' b k ∧ v'.ent d' b k = v.ent d' b k := by
        by_cases hne : d' = d
        · subst hne
          obtain ⟨hkeep, hback⟩ := hrest b k fun hbk => hnew' (by rw [hbk.1, hbk.2])
          exact ⟨hback hs h0, (hkeep (hback hs h0)).2⟩
        · exact ha.edit.toFrame.entry hne hs
      refine ⟨?_, .inl hold⟩
      rw [hold.2] at h0 ⊢
      exact h.live d' b k hold.1 h0

theorem slot_setBlk {c : Nat} {sec : Sector} :
    Slot L (v.setBlk c sec) d b k ↔ Slot L v d b k :=
  ⟨fun h => h.congr rfl rfl, fun h => h.congr rfl rfl⟩

/-- Writing a directory block changes the entries of that block. -/
theorem ent_setBlk {d' b' k' : Nat} (hb : Blocks L v) (hs : Slot L v d b k)
    (hs' : Slot L v d' b' k') (sec : Sector) :
    (v.setBlk ((v.ino d).ptr b) sec).ent d' b' k' =
      if d' = d ∧ b' = b then entInode sec k' else v.ent d' b' k' := by
  show entInode ((v.setBlk ((v.ino d).ptr b) sec).blk ((v.ino d').ptr b')) k' = _
  rw [blk_setBlk]
  by_cases heq : (v.ino d').ptr b' = (v.ino d).ptr b
  · rw [if_pos heq, if_pos (Slot.injective hb hs' hs heq)]
  · rw [if_neg heq, if_neg (fun hh => heq (by rw [hh.1, hh.2])), ent]

/-- A directory block can be written like any leaf. -/
theorem Slot.setBlk (hs : Slot L v d b k) (hb : Blocks L v) (sec : Sector) :
    Blocks L (v.setBlk ((v.ino d).ptr b) sec) ∧
      Edit L d v (v.setBlk ((v.ino d).ptr b) sec) := by
  have hp0 : v.ptr L (d, b) [] ≠ 0 := by
    rw [hs.ptr_eq]
    exact hs.ptr
  rw [← hs.ptr_eq]
  exact ⟨hb.setBlk_leaf (Forest.place_nil _) (dir_leaf hs.block) hp0 _,
    edit_setBlk hb (Forest.place_nil _) (dir_leaf hs.block) hp0 _⟩

theorem added_slot (h : Inv L v) (hs : Slot L v d b k) (hfree : v.ent d b k = 0) :
    Added L v d idx
      (v.setBlk ((v.ino d).ptr b) (putEnt (v.blk ((v.ino d).ptr b)) k idx name)) := by
  obtain ⟨hblocks, hedit⟩ :=
    hs.setBlk h.blocks (putEnt (v.blk ((v.ino d).ptr b)) k idx name)
  refine ⟨hblocks, hedit, rfl, h.first d hs.dir, fun b' => h.dense d b' hs.dir, b, k,
    slot_setBlk.mpr hs, ?_,
    fun _ => hfree, ?_⟩
  · rw [ent_setBlk h.blocks hs hs, if_pos ⟨rfl, rfl⟩, entInode_putEnt_same hs.slot]
  · intro b' k' hne
    refine ⟨fun hs' => ⟨slot_setBlk.mpr hs', ?_⟩, fun hs' _ => slot_setBlk.mp hs'⟩
    rw [ent_setBlk h.blocks hs hs']
    split
    · rename_i hb
      rw [entInode_putEnt_ne (fun hk => hne ⟨hb.2, hk⟩), ent, hb.2]
    · rfl

theorem added_block {nb : Nat} (h : Inv L v) (hd : IsDir L v d) (hb : b < 12)
    (h0 : (v.ino d).ptr b = 0) (hfull : FullTo v d b)
    (hff : v.firstFree L = some nb) : Added L v d idx
      (((v.take nb false).setIno d ((v.ino d).setPtr b nb)).setBlk nb
        (putEnt Buf.zero 0 idx name)) := by
  obtain ⟨-, hfree, hnb0, h32⟩ := firstFree_facts hff
  have hstep := linkRoot h.blocks hff hd.lt hd.used (by omega) (dir_leaf hb) h0
  simp only [List.isEmpty_nil, Bool.not_true] at hstep
  set v1 := (v.take nb false).setIno d ((v.ino d).setPtr b nb) with hv1
  have hino : v1.ino d = (v.ino d).setPtr b nb := by rw [hv1, ino_setIno, if_pos rfl]
  have hb1 := hstep.blocks h.blocks
  have hgrow := hstep.grow h.blocks
  have hpb : (v1.ino d).ptr b = nb := by rw [hino, Inode.ptr_setPtr_same (by omega), h32]
  have hpne : ∀ b', b' ≠ b → (v1.ino d).ptr b' = (v.ino d).ptr b' := by
    intro b' hne
    rw [hino, Inode.ptr_setPtr_ne hne]
  have hedit1 := hgrow.edit hb1 (Forest.place_nil _)
  have hdir : IsDir L v1 d :=
    ⟨hd.lt, hedit1.used.symm ▸ hd.used, (hedit1.raw 64 (by omega)).trans hd.type⟩
  have hs1 : Slot L v1 d b 0 := ⟨hdir, hb, hpb.symm ▸ hnb0, by omega⟩
  obtain ⟨hblocks, hedit⟩ := hs1.setBlk hb1 (putEnt Buf.zero 0 idx name)
  have hent := fun b' k' (hs' : Slot L v1 d b' k') =>
    ent_setBlk hb1 hs1 hs' (putEnt Buf.zero 0 idx name)
  rw [hpb] at hblocks hedit hent
  have hfirst : b ≠ 0 := by
    rintro rfl
    exact h.first d hd h0
  refine ⟨hblocks, hedit1.trans hedit, hgrow.size, hpne 0 hfirst.symm ▸ h.first d hd, ?_, b, 0,
    slot_setBlk.mpr hs1, ?_, fun hs => absurd h0 hs.ptr, ?_⟩
  · intro b' hb' (hne : (v1.ino d).ptr (b' + 1) ≠ 0)
    show (v1.ino d).ptr b' ≠ 0
    by_cases hbb : b' = b
    · rw [hbb, hpb]
      exact hnb0
    · rw [hpne b' hbb]
      by_cases hlt : b' < b
      · exact (hfull b' 0 hlt (by omega)).1
      · rw [hpne (b' + 1) (by omega)] at hne
        exact h.dense d b' hd hb' hne
  · rw [hent b 0 hs1, if_pos ⟨rfl, rfl⟩, entInode_putEnt_same (by omega)]
  · intro b' k' hne
    constructor
    · intro hs
      have hbb : b' ≠ b := by
        rintro rfl
        exact hs.ptr h0
      have hs' : Slot L v1 d b' k' := ⟨hdir, hs.block, hpne b' hbb ▸ hs.ptr, hs.slot⟩
      refine ⟨slot_setBlk.mpr hs', ?_⟩
      rw [hent b' k' hs', if_neg (fun hh => hbb hh.2), ent, hpne b' hbb]
      rfl
    · intro hs hne0
      have hs' := slot_setBlk.mp hs
      have hbb : b' ≠ b := by
        rintro rfl
        rw [hent b' k' hs', if_pos ⟨rfl, rfl⟩,
          entInode_putEnt_ne (fun hk => hne ⟨rfl, hk⟩), entInode_zero] at hne0
        exact hne0 rfl
      exact ⟨hd, hs.block, hpne b' hbb ▸ hs'.ptr, hs.slot⟩

/-- `dir_add` returns 0 just when it has stored the entry; otherwise nothing changed. -/
theorem DirAdd.added {rc : Int} (ha : DirAdd L v d name idx v' rc) (h : Inv L v)
    (hd : IsDir L v d) :
    (rc = 0 ∧ Added L v d idx v') ∨ (rc = -1 ∧ v' = v) := by
  cases ha with
  | slot b k hp hfree hfull hfirst => exact Or.inl ⟨rfl, added_slot h (hp.inDir hd) hfree⟩
  | block b nb hb h0 hfull hff => exact Or.inl ⟨rfl, added_block h hd hb h0 hfull hff⟩
  | noBlock b hb h0 hfull hff => exact Or.inr ⟨rfl, rfl⟩
  | full hfull => exact Or.inr ⟨rfl, rfl⟩

end Img

end Crusadia
