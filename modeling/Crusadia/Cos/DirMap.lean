import Crusadia.Cos.Names
import Crusadia.Lib.Field
import Crusadia.Lib.SlotMap

/-!
# Crusadia.Cos.DirMap

**A directory is a finite map from names to inodes.** Its twelve direct blocks of sixteen entries
make a table of 192 slots (`Img.table`); a block that is not there yet counts as one without
entries. In these terms `dir_add` fills a free slot and `dir_remove` frees one, so the table holds a
map (`SlotMap`), and `dir_lookup` reads it. `dir_lookup` ends at the first missing block where
`dir_remove` goes on: that the two agree is `Img.DirWf.dense`, which every call keeps (`Img.DirOk`).
-/

namespace Crusadia

/-! ### One entry -/

/-- The name in entry `k` of a directory block. -/
def entText (sec : Sector) (k : Nat) : CStr := CStr.ofField 27 (entName sec k)

/-- Entry `k` of a directory block: free, or a name and an inode. -/
def entCell (sec : Sector) (k : Nat) : Option (CStr × Nat) :=
  if entInode sec k = 0 then none else some (entText sec k, entInode sec k)

section cell

variable {sec : Sector} {k k' idx : Nat} {name : CStr}

theorem entText_congr {sec' : Sector} (h : ∀ j, j < 28 → entName sec' k j = entName sec k j) :
    entText sec' k = entText sec k := by
  refine congrArg CStr.ofBytes (List.map_congr_left fun j hj => h j ?_)
  have := List.mem_range.mp hj
  omega

theorem entCell_zero (k : Nat) : entCell Buf.zero k = none := if_pos (entInode_zero k)

theorem entCell_eq_none : entCell sec k = none ↔ entInode sec k = 0 := by
  rw [entCell]
  split <;> simp [*]

theorem entCell_putEnt_same (hk : k < 16) (hlen : name.length ≤ 27) (h0 : idx ≠ 0)
    (h32 : idx < 2 ^ 32) : entCell (putEnt sec k idx name) k = some (name, idx) := by
  have hent : entInode (putEnt sec k idx name) k = idx :=
    (entInode_putEnt_same hk).trans (Nat.mod_eq_of_lt h32)
  have htext : entText (putEnt sec k idx name) k = name := by
    refine (CStr.ofField_eq_iff hlen).mpr ⟨fun j hj => ?_, fun hlt => ?_⟩
    · rw [entName_putEnt_same hk (by omega), if_pos (by omega)]
    · rw [entName_putEnt_same hk (by omega), if_pos hlt]
      exact CStr.at_of_ge (Nat.le_refl _)
  rw [entCell, hent, if_neg h0, htext]

theorem entCell_putEnt_ne (hk : k' ≠ k) : entCell (putEnt sec k idx name) k' = entCell sec k' := by
  rw [entCell, entInode_putEnt_ne hk, entText_congr fun j hj => entName_putEnt_ne hk hj, entCell]

theorem entCell_clearEnt_same (hk : k < 16) : entCell (clearEnt sec k) k = none :=
  entCell_eq_none.mpr (entInode_clearEnt_same hk)

theorem entCell_clearEnt_ne (hk : k' ≠ k) : entCell (clearEnt sec k) k' = entCell sec k' := by
  rw [entCell, entInode_clearEnt_ne hk, entText_congr fun j hj => entName_clearEnt_ne hk hj,
    entCell]

/-- Comparing with a name, when the name in the entry ends within its field. -/
theorem entMatch_iff (hend : entInode sec k ≠ 0 → entName sec k 27 = 0) :
    entMatch sec k name = true ↔ (entCell sec k).map Prod.fst = some name := by
  rw [entMatch, Bool.and_eq_true, bne_iff_ne, entCell]
  by_cases h0 : entInode sec k = 0
  · simp [h0]
  · rw [if_neg h0, CStr.strEq_ended (hend h0)]
    simp [h0, entText]

theorem entInode_of_entCell {i : Nat} (h : entCell sec k = some (name, i)) :
    entInode sec k = i := by
  rw [entCell] at h
  split at h
  · cases h
  · exact (Prod.mk.inj (Option.some.inj h)).2

end cell

/-! ### The table of a directory -/

namespace Img

/-- Direct block `b` of inode `d`; a missing one has no entries. -/
def dirBlk (v : Img) (d b : Nat) : Sector :=
  if (v.ino d).ptr b = 0 then Buf.zero else v.blk ((v.ino d).ptr b)

/-- The slots of directory `d`. -/
def table (v : Img) (d : Nat) (p : Fin 12 × Fin 16) : Option (CStr × Nat) :=
  entCell (v.dirBlk d p.1) p.2

/-- A directory whose blocks are its own, marked used, with names that end within their fields. -/
structure DirOk (L : Layout) (v : Img) (d : Nat) : Prop extends DirWf L v d where
  inj : ∀ b b', b < 12 → b' < 12 → (v.ino d).ptr b ≠ 0 → (v.ino d).ptr b = (v.ino d).ptr b' → b = b'
  bit : ∀ b, b < 12 → (v.ino d).ptr b ≠ 0 → v.bit ((v.ino d).ptr b) = true
  ended : ∀ b k, Place v d b k → v.ent d b k ≠ 0 → v.term d b k = 0

variable {L : Layout} {v v' : Img} {d b k idx : Nat} {name : CStr} {rc : Int} {sec : Sector}

theorem dirBlk_of_ptr (h : (v.ino d).ptr b ≠ 0) : v.dirBlk d b = v.blk ((v.ino d).ptr b) := if_neg h

theorem table_of_zero (h : (v.ino d).ptr b = 0) (hb : b < 12) (k : Fin 16) :
    v.table d (⟨b, hb⟩, k) = none := by
  rw [table, dirBlk, if_pos h]
  exact entCell_zero _

theorem table_of_place (h : Place v d b k) :
    v.table d (⟨b, h.block⟩, ⟨k, h.slot⟩) = entCell (v.blk ((v.ino d).ptr b)) k := by
  rw [table, dirBlk_of_ptr h.ptr]

/-- A slot that is taken lies in a block of the directory. -/
theorem place_of_table {p : Fin 12 × Fin 16} (h : v.table d p ≠ none) : Place v d p.1 p.2 :=
  ⟨p.1.isLt, fun h0 => h (table_of_zero h0 p.1.isLt p.2), p.2.isLt⟩

theorem Inv.dirOk (h : Inv L v) (hn : Named L v) (hd : IsDir L v d) : DirOk L v d where
  toDirWf := h.dirWf hd
  inj := by
    intro b b' hb hb' h0 heq
    have hs : Slot L v d b 0 := ⟨hd, hb, h0, by decide⟩
    have hs' : Slot L v d b' 0 := ⟨hd, hb', heq ▸ h0, by decide⟩
    exact (hs.injective h.blocks hs' heq).2
  bit := by
    intro b hb h0
    have hs : Slot L v d b 0 := ⟨hd, hb, h0, by decide⟩
    have hptr := hs.ptr_eq
    rw [← hptr] at h0 ⊢
    exact (h.blocks.live _ _ (Forest.place_nil _) h0).2
  ended := fun b k hp => hn d b k ⟨hd, hp.block, hp.ptr, hp.slot⟩

/-- The blocks of a directory are a prefix of its direct pointers. -/
theorem DirOk.exists_length (h : DirOk L v d) :
    ∃ n, n ≤ 12 ∧ ∀ b, b < 12 → ((v.ino d).ptr b ≠ 0 ↔ b < n) := by
  by_cases hz : ∃ b, b < 12 ∧ (v.ino d).ptr b = 0
  · obtain ⟨hn, hzero⟩ := Nat.find_spec hz
    refine ⟨Nat.find hz, Nat.le_of_lt hn, fun b hb => ⟨fun hp => ?_, fun hlt h0 => ?_⟩⟩
    · by_contra hge
      exact hp (h.ptr_zero_of_le hzero b (by omega) hb)
    · exact Nat.find_min hz hlt ⟨hb, h0⟩
  · exact ⟨12, Nat.le_refl _, fun b hb => iff_of_true (fun h0 => hz ⟨b, hb, h0⟩) hb⟩

/-! ### Lookups -/

theorem matchesAt_iff (h : DirOk L v d) (hp : Place v d b k) : v.matchesAt d b k name = true ↔
    (v.table d (⟨b, hp.block⟩, ⟨k, hp.slot⟩)).map Prod.fst = some name := by
  rw [table_of_place hp]
  exact entMatch_iff (h.ended b k hp)

theorem ent_of_table {p : Fin 12 × Fin 16} {i : Nat} (h : v.table d p = some (name, i)) :
    v.ent d p.1 p.2 = i := by
  have hp := place_of_table (v := v) (d := d) (p := p) (by simp [h])
  exact entInode_of_entCell ((table_of_place hp).symm.trans h)

theorem DirOk.table_findSlot (h : DirOk L v d) (hfind : v.findSlot d name 12 0 = some (b, k)) :
    ∃ hp : Place v d b k, v.table d (⟨b, hp.block⟩, ⟨k, hp.slot⟩) = some (name, v.ent d b k) := by
  obtain ⟨⟨-, hb⟩, hptr, hk, hent⟩ := findSlot_some hfind
  have hp : Place v d b k := ⟨by omega, hptr, hk⟩
  have hmatch : v.matchesAt d b k name = true := by
    rw [matchesAt, entMatch, Bool.and_eq_true, bne_iff_ne]
    exact ⟨hent, findSlot_name hfind⟩
  obtain ⟨⟨nm, i⟩, htab, rfl⟩ := Option.map_eq_some_iff.mp ((matchesAt_iff h hp).mp hmatch)
  exact ⟨hp, by rw [htab, ent_of_table htab]⟩

/-- A lookup that finds something has found it in the table. -/
theorem DirOk.lookup_some (h : DirOk L v d) {i : Nat} (hl : v.lookup d name = some i) :
    ∃ p, v.table d p = some (name, i) := by
  rw [lookup, Option.map_eq_some_iff] at hl
  obtain ⟨bk, hbk, rfl⟩ := hl
  obtain ⟨hp, htab⟩ := h.table_findSlot hbk
  exact ⟨_, htab⟩

/-- A lookup that finds nothing has seen the whole table. -/
theorem DirOk.lookup_none (h : DirOk L v d) (hl : v.lookup d name = none) (p : Fin 12 × Fin 16)
    (i : Nat) : v.table d p ≠ some (name, i) := by
  intro hp
  have hplace : Place v d p.1 p.2 := place_of_table (by simp [hp])
  have hno := findSlot_none 12 0 (Option.map_eq_none_iff.mp hl) p.1 p.2 (Nat.zero_le _)
    (by omega) (fun c _ hc => h.ptr_before hplace.block hplace.ptr hc) hplace.slot
  rw [(matchesAt_iff h hplace).mpr (congrArg (Option.map Prod.fst) hp)] at hno
  cases hno

theorem DirOk.lookup_eq (h : DirOk L v d) {m : CStr → Option Nat} (hm : SlotMap (v.table d) m)
    (name : CStr) : v.lookup d name = m name := by
  cases hl : v.lookup d name with
  | some i => exact ((hm.mem name i).mpr (h.lookup_some hl)).symm
  | none => exact (hm.eq_none.mpr (h.lookup_none hl)).symm

/-! ### Changing one slot -/

/-- The entries of a directory block name inodes, and their names end within their fields. -/
def SecOk (L : Layout) (sec : Sector) : Prop := ∀ k, k < 16 →
  entInode sec k < L.sb.inodeCount ∧ (entInode sec k ≠ 0 → entName sec k 27 = 0)

theorem DirOk.secOk (h : DirOk L v d) (hb : b < 12) (h0 : (v.ino d).ptr b ≠ 0) :
    SecOk L (v.blk ((v.ino d).ptr b)) := fun k hk =>
  ⟨h.live b k ⟨hb, h0, hk⟩, h.ended b k ⟨hb, h0, hk⟩⟩

theorem secOk_zero (hpos : 0 < L.sb.inodeCount) : SecOk L Buf.zero := by
  intro k _
  rw [entInode_zero]
  exact ⟨hpos, fun h0 => absurd rfl h0⟩

theorem SecOk.putEnt (h : SecOk L sec) (k : Nat) (name : CStr) (hidx : idx < L.sb.inodeCount) :
    SecOk L (putEnt sec k idx name) := by
  intro k' hk'
  by_cases hkk : k' = k
  · subst hkk
    rw [entInode_putEnt_same hk', entName_putEnt_same hk' (by decide), if_neg (by decide)]
    exact ⟨Nat.lt_of_le_of_lt (Nat.mod_le _ _) hidx, fun _ => rfl⟩
  · rw [entInode_putEnt_ne hkk, entName_putEnt_ne hkk (by decide)]
    exact h k' hk'

theorem SecOk.clearEnt (h : SecOk L sec) (k : Nat) (hpos : 0 < L.sb.inodeCount) :
    SecOk L (clearEnt sec k) := by
  intro k' hk'
  by_cases hkk : k' = k
  · subst hkk
    rw [entInode_clearEnt_same hk']
    exact ⟨hpos, fun h0 => absurd rfl h0⟩
  · rw [entInode_clearEnt_ne hkk, entName_clearEnt_ne hkk (by decide)]
    exact h k' hk'

/-- Block `b` of directory `d` has become `sec`, and nothing else in it has changed. -/
structure Rewritten (v : Img) (d b : Nat) (sec : Sector) (v' : Img) : Prop where
  lt : b < 12
  same : v'.dirBlk d b = sec
  other : ∀ b', b' < 12 → b' ≠ b → v'.dirBlk d b' = v.dirBlk d b'
  keep : ∀ b', b' < 12 → (v.ino d).ptr b' ≠ 0 → (v'.ino d).ptr b' ≠ 0

/-- One cell of the rewritten block has changed, so one slot of the table has. -/
theorem Rewritten.table (h : Rewritten v d b sec v') (hk : k < 16) {x : Option (CStr × Nat)}
    (hself : entCell sec k = x)
    (hrest : ∀ k', k' ≠ k → entCell sec k' = entCell (v.dirBlk d b) k') :
    v'.table d = Function.update (v.table d) (⟨b, h.lt⟩, ⟨k, hk⟩) x := by
  funext p
  obtain ⟨⟨b', hb'⟩, k', hk'⟩ := p
  rw [Function.update_apply, Img.table, Img.table]
  by_cases hbb : b' = b
  · subst hbb
    simp only [h.same]
    by_cases hkk : k' = k
    · subst hkk
      rw [if_pos rfl, hself]
    · rw [if_neg (by simpa using hkk), hrest k' hkk]
  · rw [if_neg (by simp [hbb]), h.other b' hb' hbb]

/-- An entry of a block that the directory has is rewritten. -/
theorem DirOk.setBlk (h : DirOk L v d) (hb : b < 12) (h0 : (v.ino d).ptr b ≠ 0)
    (hsec : SecOk L sec) :
    DirOk L (v.setBlk ((v.ino d).ptr b) sec) d ∧
      Rewritten v d b sec (v.setBlk ((v.ino d).ptr b) sec) := by
  have hblk := blk_setBlk v ((v.ino d).ptr b) sec
  refine ⟨⟨⟨h.lt, h.type, h.range, h.dense, fun b' k hp => ?_⟩, h.inj, h.bit, fun b' k hp => ?_⟩,
    hb, ?_, fun b' hb' hne => ?_, fun _ _ h0 => h0⟩
  · show entInode ((v.setBlk _ sec).blk ((v.ino d).ptr b')) k < _
    rw [hblk]
    split
    · exact (hsec k hp.slot).1
    · exact h.live b' k ⟨hp.block, hp.ptr, hp.slot⟩
  · show entInode ((v.setBlk _ sec).blk ((v.ino d).ptr b')) k ≠ 0 →
      entName ((v.setBlk _ sec).blk ((v.ino d).ptr b')) k 27 = 0
    rw [hblk]
    split
    · exact (hsec k hp.slot).2
    · exact h.ended b' k ⟨hp.block, hp.ptr, hp.slot⟩
  · exact (dirBlk_of_ptr (v := v.setBlk _ sec) h0).trans ((hblk _).trans (if_pos rfl))
  · -- the other blocks are other sectors
    show (if (v.ino d).ptr b' = 0 then _ else (v.setBlk _ sec).blk ((v.ino d).ptr b')) = _
    rw [dirBlk]
    split
    · rfl
    · next hb0 => rw [hblk, if_neg fun heq => hne (h.inj b' b hb' hb hb0 heq)]

/-- The directory gets block `b`, the first that it does not have. -/
theorem DirOk.newBlk (h : DirOk L v d) (hb : b < 12) (hbefore : ∀ b', b' < b → (v.ino d).ptr b' ≠ 0)
    {nb : Nat} (hff : v.firstFree L = some nb) (hok : SecOk L sec) :
    DirOk L (((v.take nb false).setIno d ((v.ino d).setPtr b nb)).setBlk nb sec) d ∧
      Rewritten v d b sec (((v.take nb false).setIno d ((v.ino d).setPtr b nb)).setBlk nb sec) := by
  set v' := ((v.take nb false).setIno d ((v.ino d).setPtr b nb)).setBlk nb sec
  obtain ⟨hrange, hfree, hnb0, h32⟩ := firstFree_facts hff
  have hino : v'.ino d = (v.ino d).setPtr b nb := (ino_setIno _ _ _ _).trans (if_pos rfl)
  have hsame : (v'.ino d).ptr b = nb := by rw [hino, Inode.ptr_setPtr_same (by omega), h32]
  have hptr : ∀ b', b' ≠ b → (v'.ino d).ptr b' = (v.ino d).ptr b' := by
    intro b' hne
    rw [hino, Inode.ptr_setPtr_ne hne]
  have hblk : ∀ c, v'.blk c = if c = nb then sec else v.blk c := blk_setBlk _ nb sec
  -- the new block is free, so it is none of the directory's own
  have hfresh : ∀ b', b' < 12 → (v.ino d).ptr b' ≠ 0 → (v.ino d).ptr b' ≠ nb := by
    intro b' hb' hp heq
    rw [← heq, h.bit b' hb' hp] at hfree
    cases hfree
  have hbit : ∀ c, v'.bit c = if c = nb then true else v.bit c := fun c =>
    Function.update_apply v.bit nb true c
  have hold : ∀ b' k, b' ≠ b → Place v' d b' k → Place v d b' k := fun b' k hne hp =>
    ⟨hp.block, hptr b' hne ▸ hp.ptr, hp.slot⟩
  have hsec : ∀ b' k, b' ≠ b → Place v' d b' k →
      v'.blk ((v'.ino d).ptr b') = v.blk ((v.ino d).ptr b') := by
    intro b' k hne hp
    rw [hblk, hptr b' hne, if_neg (hfresh b' hp.block (hold b' k hne hp).ptr)]
  refine ⟨⟨⟨h.lt, ?_, fun b' hb' hp => ?_, fun b' hb' hp => ?_, fun b' k hp => ?_⟩,
    fun b1 b2 h1 h2 hp heq => ?_, fun b' hb' hp => ?_, fun b' k hp => ?_⟩, hb, ?_,
      fun b' hb' hne => ?_,
    fun b' hb' hp => ?_⟩
  · rw [hino, Inode.type, Inode.raw_setPtr (by omega) (by omega)]
    exact h.type
  · by_cases hbb : b' = b
    · rw [hbb, hsame]
      exact hrange
    · rw [hptr b' hbb] at hp ⊢
      exact h.range b' hb' hp
  · -- the blocks before `b` are there, and there are none behind it
    by_cases hbb : b' = b
    · rw [hbb, hsame]
      exact hnb0
    · rw [hptr b' hbb]
      by_cases hb1 : b' + 1 = b
      · exact hbefore b' (by omega)
      · rw [hptr _ hb1] at hp
        exact h.dense b' hb' hp
  · rw [ent]
    by_cases hbb : b' = b
    · rw [hbb, hsame, hblk, if_pos rfl]
      exact (hok k hp.slot).1
    · rw [hsec b' k hbb hp]
      exact h.live b' k (hold b' k hbb hp)
  · by_cases hb₁ : b1 = b <;> by_cases hb2 : b2 = b
    · rw [hb₁, hb2]
    · rw [hb₁, hsame, hptr b2 hb2] at heq
      exact absurd heq.symm (hfresh b2 h2 (heq ▸ hnb0))
    · rw [hb2, hsame, hptr b1 hb₁] at heq
      exact absurd heq (hfresh b1 h1 (heq ▸ hnb0))
    · rw [hptr b1 hb₁] at hp heq
      rw [hptr b2 hb2] at heq
      exact h.inj b1 b2 h1 h2 hp heq
  · rw [hbit]
    split
    · rfl
    · next hne =>
        have hbb : b' ≠ b := fun hbb => hne (hbb ▸ hsame)
        rw [hptr b' hbb] at hp ⊢
        exact h.bit b' hb' hp
  · rw [ent, term]
    by_cases hbb : b' = b
    · rw [hbb, hsame, hblk, if_pos rfl]
      exact (hok k hp.slot).2
    · rw [hsec b' k hbb hp]
      exact h.ended b' k (hold b' k hbb hp)
  · rw [dirBlk, if_neg (hsame ▸ hnb0), hsame, hblk, if_pos rfl]
  · rw [dirBlk, dirBlk, hptr b' hne]
    split
    · rfl
    · next hp => rw [hblk, if_neg (hfresh b' hb' hp)]
  · by_cases hbb : b' = b
    · rw [hbb, hsame]
      exact hnb0
    · rwa [hptr b' hbb]

/-! ### The calls -/

/-- **`dir_add`.** A free slot is filled; or there is none, and no block to add. -/
theorem DirAdd.outcome (ha : DirAdd L v d name idx v' rc) (h : DirOk L v d)
    (hlen : name.length ≤ 27) (h0 : idx ≠ 0) (hidx : idx < L.sb.inodeCount) :
    (rc = 0 ∧ DirOk L v' d ∧ (∀ b, b < 12 → (v.ino d).ptr b ≠ 0 → (v'.ino d).ptr b ≠ 0) ∧
      ∃ p, v.table d p = none ∧ v'.table d = Function.update (v.table d) p (some (name, idx))) ∨
    (rc = -1 ∧ v' = v ∧ (∀ b k, Place v d b k → v.ent d b k ≠ 0) ∧
      ((∀ b, b < 12 → (v.ino d).ptr b ≠ 0) ∨ v.firstFree L = none)) := by
  have h32 : idx < 2 ^ 32 := by
    have := L.inodes_le
    omega
  cases ha with
  | slot b k hp hfree =>
    obtain ⟨hok, hrew⟩ := h.setBlk hp.block hp.ptr ((h.secOk hp.block hp.ptr).putEnt k name hidx)
    refine Or.inl ⟨rfl, hok, hrew.keep, (⟨b, hp.block⟩, ⟨k, hp.slot⟩), ?_, ?_⟩
    · rw [table_of_place hp]
      exact entCell_eq_none.mpr hfree
    · refine hrew.table hp.slot (entCell_putEnt_same hp.slot hlen h0 h32) fun k' hk' => ?_
      rw [dirBlk_of_ptr hp.ptr]
      exact entCell_putEnt_ne hk'
  | block b nb hb hzero hfull hff =>
    have hpos : 0 < L.sb.inodeCount := Nat.lt_of_le_of_lt (Nat.zero_le _) hidx
    obtain ⟨hok, hrew⟩ := h.newBlk hb (fun b' hb' => (hfull b' 0 hb' (by decide)).1) hff
      ((secOk_zero hpos).putEnt 0 name hidx)
    refine Or.inl ⟨rfl, hok, hrew.keep, (⟨b, hb⟩, 0), table_of_zero hzero hb 0, ?_⟩
    refine hrew.table (k := 0) (by decide) (entCell_putEnt_same (by decide) hlen h0 h32)
      fun k' hk' => ?_
    rw [dirBlk, if_pos hzero]
    exact entCell_putEnt_ne hk'
  | noBlock b hb hzero hfull hff =>
    refine Or.inr ⟨rfl, rfl, fun b' k hp => ?_, Or.inr hff⟩
    -- the blocks it has are those before `b`
    have hlt : b' < b := by
      by_contra hge
      exact hp.ptr (h.ptr_zero_of_le hzero b' (by omega) hp.block)
    exact (hfull b' k hlt hp.slot).2
  | full hfull =>
    exact Or.inr ⟨rfl, rfl, fun b k hp => (hfull b k hp.block hp.slot).2,
      Or.inl fun b hb => (hfull b 0 hb (by decide)).1⟩

/-- The slot that a lookup finds is freed. -/
theorem DirOk.clear (h : DirOk L v d) (hfind : v.findSlot d name 12 0 = some (b, k)) :
    (L.sb.dataStart ≤ (v.ino d).ptr b ∧ (v.ino d).ptr b < L.sb.totalBlocks) ∧
    DirOk L (v.clear d b k) d ∧ ∃ p i, v.table d p = some (name, i) ∧
      (v.clear d b k).table d = Function.update (v.table d) p none := by
  obtain ⟨hp, htab⟩ := h.table_findSlot hfind
  have hpos : 0 < L.sb.inodeCount := Nat.lt_of_le_of_lt (Nat.zero_le _) h.lt
  obtain ⟨hok, hrew⟩ := h.setBlk hp.block hp.ptr ((h.secOk hp.block hp.ptr).clearEnt k hpos)
  refine ⟨h.range b hp.block hp.ptr, hok, _, _, htab, ?_⟩
  refine hrew.table hp.slot (entCell_clearEnt_same hp.slot) fun k' hk' => ?_
  rw [dirBlk_of_ptr hp.ptr]
  exact entCell_clearEnt_ne hk'

/-- **A new entry.** It is found, and whatever was found before is found still. -/
theorem DirAdd.lookup (ha : DirAdd L v d name idx v' 0) (h : DirOk L v d)
    (hnew : v.findSlot d name 12 0 = none) (hlen : name.length ≤ 27) (h0 : idx ≠ 0)
    (hidx : idx < L.sb.inodeCount) :
    v'.lookup d name = some idx ∧ ∀ nm i, v.lookup d nm = some i → v'.lookup d nm = some i := by
  rcases ha.outcome h hlen h0 hidx with ⟨-, h', hkeep, p, hfree, htab⟩ | ⟨hrc, -⟩
  swap
  · exact absurd hrc (by decide)
  have hold : ∀ q, q ≠ p → v'.table d q = v.table d q := fun q hq => by
    rw [htab, Function.update_of_ne hq]
  constructor
  · cases hl : v'.lookup d name with
    | none => exact absurd (by rw [htab, Function.update_self]) (h'.lookup_none hl p idx)
    | some i =>
      obtain ⟨q, hq⟩ := h'.lookup_some hl
      by_cases hqp : q = p
      · rw [hqp, htab, Function.update_self] at hq
        exact congrArg some (Prod.mk.inj (Option.some.inj hq)).2.symm
      · rw [hold q hqp] at hq
        exact absurd hq (h.lookup_none (Option.map_eq_none_iff.mpr hnew) q i)
  · intro nm i hl
    have hne : nm ≠ name := by
      rintro rfl
      rw [Img.lookup, hnew] at hl
      cases hl
    -- the search stops at the same slot: only the new one differs, and it has another name
    have hmatch : ∀ b k, b < 12 → k < 16 → (v.ino d).ptr b ≠ 0 →
        v'.matchesAt d b k nm = v.matchesAt d b k nm := by
      intro b k hb hk hptr
      have hp : Place v d b k := ⟨hb, hptr, hk⟩
      have hp' : Place v' d b k := ⟨hb, hkeep b hb hptr, hk⟩
      rw [Bool.eq_iff_iff, matchesAt_iff h hp, matchesAt_iff h' hp']
      by_cases hq : ((⟨b, hb⟩, ⟨k, hk⟩) : Fin 12 × Fin 16) = p
      · rw [hq, htab, Function.update_self, hfree]
        simp [Ne.symm hne]
      · rw [hold _ hq]
    rw [Img.lookup, Option.map_eq_some_iff] at hl ⊢
    obtain ⟨bk, hbk, rfl⟩ := hl
    obtain ⟨hp, htab0⟩ := h.table_findSlot hbk
    refine ⟨bk, findSlot_congr hkeep hmatch 12 0 bk (by omega) hbk, ?_⟩
    have hq : ((⟨bk.1, hp.block⟩, ⟨bk.2, hp.slot⟩) : Fin 12 × Fin 16) ≠ p := fun hq => by
      rw [hq, hfree] at htab0
      cases htab0
    have hent := ent_of_table ((hold _ hq).trans htab0)
    exact hent

end Img

/-! ### Runs -/

/-- The calls that change a directory. -/
inductive DirOp
  | add (name : CStr) (inodeIdx : Nat)
  | remove (name : CStr)

/-- What the calls so far, the last one first, and the status each returned say of a name: the inode
of the last `dir_add` that succeeded, unless there was a `dir_remove` after it. -/
def bound : List (DirOp × Int) → CStr → Option Nat
  | [], _ => none
  | (.add name i, rc) :: hist, n => if rc = 0 ∧ name = n then some i else bound hist n
  | (.remove name, _) :: hist, n => if name = n then none else bound hist n

theorem bound_added (name : CStr) (i : Nat) (hist : List (DirOp × Int)) :
    bound ((.add name i, 0) :: hist) = Function.update (bound hist) name (some i) := by
  funext n
  simp [bound, Function.update_apply, eq_comm]

theorem bound_refused {name : CStr} {i : Nat} {rc : Int} {hist : List (DirOp × Int)} (h : rc ≠ 0) :
    bound ((.add name i, rc) :: hist) = bound hist := by
  funext n
  simp [bound, h]

theorem bound_removed (name : CStr) (rc : Int) (hist : List (DirOp × Int)) :
    bound ((.remove name, rc) :: hist) = Function.update (bound hist) name none := by
  funext n
  simp [bound, Function.update_apply, eq_comm]

/-- The names and inodes that `dir_add` is called with. -/
def DirOp.Ok (inodeCount : Nat) (hist : List (DirOp × Int)) : DirOp → Prop
  | .add name i => (1 ≤ name.length ∧ name.length ≤ 27) ∧ bound hist name = none ∧ i ≠ 0 ∧
    i < inodeCount
  | .remove _ => True

namespace Cos

/-- A call on directory inode `d`. -/
def dirOp (s : Cos) (d : Nat) : DirOp → Int × Cos
  | .add name i => s.dirAdd d (s.readInode d) name i
  | .remove name => s.dirRemove (s.readInode d) name

/-- Any sequence of calls on directory inode `d`. -/
inductive DirRun (d : Nat) (s₀ : Cos) : List (DirOp × Int) → Cos → Prop
  | start : DirRun d s₀ [] s₀
  | call {hist : List (DirOp × Int)} {s : Cos} (h : DirRun d s₀ hist s) (op : DirOp)
      (hok : op.Ok s.gSuperblock.inodeCount hist) :
      DirRun d s₀ ((op, (s.dirOp d op).1) :: hist) (s.dirOp d op).2

/-- Directory inode `d` has one zeroed block, which the bitmap marks used. -/
structure OneBlock (L : Layout) (s : Cos) (d : Nat) : Prop where
  rep : Rep L s s.img
  lt : d < L.sb.inodeCount
  type : (s.readInode d).type = 2
  block : L.sb.dataStart ≤ (s.readInode d).ptr 0 ∧ (s.readInode d).ptr 0 < L.sb.totalBlocks
  used : s.blockBit ((s.readInode d).ptr 0) = true
  zero : s.blockRead ((s.readInode d).ptr 0) = Buf.zero
  rest : ∀ b, b < 12 → b ≠ 0 → (s.readInode d).ptr b = 0

/-- Slot `k` of block `b` is taken. -/
def Taken (s : Cos) (d b k : Nat) : Prop :=
  (s.readInode d).ptr b ≠ 0 ∧ entInode (s.blockRead ((s.readInode d).ptr b)) k ≠ 0

/-- All 192 slots are taken; or those of the blocks it has are, and there is no other block. -/
def NoRoom (s : Cos) (d : Nat) : Prop :=
  (∀ b k, b < 12 → k < 16 → s.Taken d b k) ∨
  ((∀ b k, b < 12 → k < 16 → (s.readInode d).ptr b ≠ 0 → s.Taken d b k) ∧ s.allocBlock = (0, s))

/-- The directory inode `d` holds the map `m`. -/
def DirHolds (L : Layout) (s : Cos) (d : Nat) (m : CStr → Option Nat) : Prop :=
  ∃ v, Rep L s v ∧ Img.DirOk L v d ∧ SlotMap (v.table d) m

variable {L : Layout} {s s₀ : Cos} {d i : Nat} {m : CStr → Option Nat} {name : CStr}
  {hist : List (DirOp × Int)}

namespace DirHolds

theorem lookup (h : DirHolds L s d m) (name : CStr) :
    s.dirLookup (s.readInode d) name = m name := by
  obtain ⟨v, hrep, hok, hm⟩ := h
  rw [hrep.ino d hok.lt, hrep.dirLookup_wf hok.toDirWf]
  exact hok.lookup_eq hm name

theorem add (h : DirHolds L s d m) (hlen : name.length ≤ 27) (hnew : m name = none) (h0 : i ≠ 0)
    (hi : i < L.sb.inodeCount) :
    ((s.dirOp d (.add name i)).1 = 0 ∧
      DirHolds L (s.dirOp d (.add name i)).2 d (Function.update m name (some i))) ∨
    ((s.dirOp d (.add name i)).1 = -1 ∧ (s.dirOp d (.add name i)).2 = s ∧ s.NoRoom d) := by
  obtain ⟨v, hrep, hok, hm⟩ := h
  have hino := hrep.ino d hok.lt
  obtain ⟨v', hrep', hadd, hsame⟩ := hrep.dirAdd_wf hok.toDirWf name i
  rw [dirOp, hino]
  rcases hadd.outcome hok hlen h0 hi with ⟨hrc, hok', -, p, hfree, htab⟩ | ⟨hrc, -, htaken, hwhy⟩
  · exact Or.inl ⟨hrc, v', hrep', hok', htab ▸ hm.insert i hfree hnew⟩
  · have hslot : ∀ b k, b < 12 → k < 16 → (v.ino d).ptr b ≠ 0 → s.Taken d b k := by
      intro b k hb hk hptr
      rw [Taken, hino, hrep.read_dir hok.toDirWf hb hptr]
      exact ⟨hptr, htaken b k ⟨hb, hptr, hk⟩⟩
    refine Or.inr ⟨hrc, hsame (by rw [hrc]; decide), ?_⟩
    rcases hwhy with hall | hff
    · exact Or.inl fun b k hb hk => hslot b k hb hk (hall b hb)
    · exact Or.inr ⟨fun b k hb hk hptr => hslot b k hb hk (hino ▸ hptr),
        hrep.allocBlock_of_none hff⟩

theorem remove (h : DirHolds L s d m) (name : CStr) :
    DirHolds L (s.dirOp d (.remove name)).2 d (Function.update m name none) := by
  obtain ⟨v, hrep, hok, hm⟩ := h
  rw [dirOp, hrep.ino d hok.lt, hrep.dirRemove_wf hok.toDirWf]
  cases hfind : v.findSlot d name 12 0 with
  | none =>
    have hnone : m name = none := by
      rw [← hok.lookup_eq hm, Img.lookup, hfind, Option.map_none]
    rw [← hnone, Function.update_eq_self]
    exact ⟨v, hrep, hok, hm⟩
  | some bk =>
    obtain ⟨⟨h1, h2⟩, hok', p, i, htab, hclear⟩ := hok.clear hfind
    exact ⟨_, hrep.writeBlk _ h1 h2, hok', hclear ▸ hm.erase htab⟩

end DirHolds

/-- A zeroed block has no entries. -/
theorem OneBlock.dirHolds (h : OneBlock L s d) : DirHolds L s d fun _ => none := by
  have hpos : 0 < L.sb.inodeCount := Nat.lt_of_le_of_lt (Nat.zero_le _) h.lt
  have hptr : ∀ b, b < 12 → (s.img.ino d).ptr b ≠ 0 → b = 0 := fun b hb hp => by
    by_contra hne
    exact hp (h.rest b hb hne)
  have hent : ∀ b k, Img.Place s.img d b k → s.img.ent d b k = 0 := by
    intro b k hp
    rw [Img.ent, hptr b hp.block hp.ptr,
      show s.img.blk ((s.img.ino d).ptr 0) = Buf.zero from h.zero, entInode_zero]
  have hfirst : ∀ b, b < 12 → (s.img.ino d).ptr b ≠ 0 →
      (s.img.ino d).ptr b = (s.readInode d).ptr 0 := fun b hb hp => by
    rw [hptr b hb hp]
    rfl
  refine ⟨s.img, h.rep, ⟨⟨h.lt, h.type, fun b hb hp => ?_, fun b hb hp => ?_, fun b k hp => ?_⟩,
    fun b b' hb hb' hp heq => ?_, fun b hb hp => ?_, fun b k hp hne => ?_⟩,
      SlotMap.empty fun p => ?_⟩
  · rw [hfirst b hb hp]
    exact h.block
  · exact absurd (hptr (b + 1) hb hp) (by omega)
  · rw [hent b k hp]
    exact hpos
  · rw [hptr b hb hp, hptr b' hb' (heq ▸ hp)]
  · rw [hfirst b hb hp]
    exact h.used
  · exact absurd (hent b k hp) hne
  · by_contra hne
    have hp := Img.place_of_table hne
    exact hne ((Img.table_of_place hp).trans (entCell_eq_none.mpr (hent _ _ hp)))

/-- The superblock in memory is that of the drive. -/
theorem DirHolds.inodeCount (h : DirHolds L s d m) :
    s.gSuperblock.inodeCount = L.sb.inodeCount := by
  obtain ⟨v, hrep, -⟩ := h
  rw [hrep.sb]

/-- What every sequence of calls keeps. -/
theorem DirRun.dirHolds (hrun : DirRun d s₀ hist s) (h₀ : OneBlock L s₀ d) :
    DirHolds L s d (bound hist) := by
  induction hrun with
  | start => exact h₀.dirHolds
  | @call hist s _ op hok ih =>
    cases op with
    | add name i =>
      obtain ⟨⟨-, hlen⟩, hnew, h0, hi⟩ := hok
      rw [ih.inodeCount] at hi
      rcases ih.add hlen hnew h0 hi with ⟨hrc, hholds⟩ | ⟨hrc, hsame, -⟩
      · rw [hrc, bound_added]
        exact hholds
      · rw [hsame, bound_refused (by rw [hrc]; decide)]
        exact ih
    | remove name =>
      rw [bound_removed]
      exact ih.remove name

/-- **A directory is a finite map of up to 192 names.** -/
theorem dirRun_map (h₀ : OneBlock L s₀ d) (hrun : DirRun d s₀ hist s) :
    (∀ n, s.dirLookup (s.readInode d) n = bound hist n) ∧
    ({n | bound hist n ≠ none}.Finite ∧ {n | bound hist n ≠ none}.ncard ≤ 192) ∧
    (∀ name i, (DirOp.add name i).Ok s.gSuperblock.inodeCount hist →
      (s.dirOp d (.add name i)).1 = 0 ∨ ((s.dirOp d (.add name i)).1 = -1 ∧
        (s.dirOp d (.add name i)).2 = s ∧ s.NoRoom d)) ∧
    ∃ n, n ≤ 12 ∧ ∀ b, b < 12 → ((s.readInode d).ptr b ≠ 0 ↔ b < n) := by
  have hholds := hrun.dirHolds h₀
  refine ⟨hholds.lookup, ?_, fun name i hok => ?_, ?_⟩
  · obtain ⟨v, -, -, hm⟩ := hholds
    have hcard := hm.ncard_le
    rw [Nat.card_prod, Nat.card_fin, Nat.card_fin] at hcard
    exact ⟨hm.finite, hcard⟩
  · obtain ⟨⟨-, hlen⟩, hnew, h0, hi⟩ := hok
    rw [hholds.inodeCount] at hi
    exact (hholds.add hlen hnew h0 hi).imp And.left id
  · obtain ⟨v, hrep, hok, -⟩ := hholds
    rw [hrep.ino d hok.lt]
    exact hok.exists_length

/-- A drive after `create_root`: the root directory is there and empty. -/
def emptyRoot (s : Cos) : Cos :=
  ((List.range (Layout.ofDrive s.driveSectors).sb.dataStart).foldl setBlockBitmapBit
    (s.wipeFs (Layout.ofDrive s.driveSectors).sb)).createRoot

theorem oneBlock_emptyRoot (s : Cos) (hsize : 6 ≤ s.driveSectors) :
    OneBlock s.layout s.emptyRoot 0 := by
  have hroom := s.room_iff.mpr hsize
  obtain ⟨hrep, hv⟩ := Rep.formatRoot_spec s s.layout hroom
  have hf := Rep.filled_rootImg s hroom
  have hino := hrep.ino 0 hv.root.lt
  have hptr : (s.emptyRoot.readInode 0).ptr 0 = s.layout.sb.dataStart := by
    rw [emptyRoot, hino, hf.ptr 0 (by decide), if_pos rfl]
  refine ⟨(Sound.img ⟨_, hrep, hv⟩).1, hv.root.lt, ?_, ?_, ?_, ?_, fun b hb hne => ?_⟩
  · rw [emptyRoot, hino]
    exact hv.root.type
  · rw [hptr]
    exact ⟨Nat.le_refl _, hroom⟩
  · rw [hptr, emptyRoot, hrep.bit _ hroom, hf.bit]
    exact decide_eq_true (by simp)
  · rw [hptr, emptyRoot, hrep.blk _ (Nat.le_refl _) hroom]
    exact Img.born_blk_self
  · rw [emptyRoot, hino, hf.ptr b (by omega), if_neg hne]

/-- The first entry of a new drive. -/
theorem dirRun_map_first : ∃ s, DirRun 0 (zeroDrive 1024).emptyRoot
    [(.add fName 1, 0)] s ∧ s.dirLookup (s.readInode 0) fName = some 1 := by
  have h₀ := oneBlock_emptyRoot (zeroDrive 1024) (by decide)
  have hcount : 1 < (Layout.ofDrive 1024).sb.inodeCount := by decide
  have hok : (DirOp.add fName 1).Ok
      (zeroDrive 1024).emptyRoot.gSuperblock.inodeCount [] := by
    rw [h₀.rep.sb]
    exact ⟨by decide, rfl, by decide, hcount⟩
  have hrun := DirRun.call (d := 0) .start _ hok
  -- the first slot is free
  have hfree : ¬ (zeroDrive 1024).emptyRoot.Taken 0 0 0 := fun ht =>
    ht.2 (by rw [h₀.zero, entInode_zero])
  have hroom : ¬ (zeroDrive 1024).emptyRoot.NoRoom 0 := by
    rintro (hall | ⟨hall, -⟩)
    · exact hfree (hall 0 0 (by decide) (by decide))
    · refine hfree (hall 0 0 (by decide) (by decide) fun h0 => ?_)
      have hdata := h₀.block.1
      rw [h0] at hdata
      exact absurd hdata (by decide)
  rcases (dirRun_map h₀ .start).2.2.1 fName 1 hok with hrc | ⟨-, -, hno⟩
  · rw [hrc] at hrun
    exact ⟨_, hrun, (dirRun_map h₀ hrun).1 fName⟩
  · exact absurd hno hroom

end Cos

end Crusadia
