import Crusadia.Cos.Create

/-!
# Crusadia.Cos.Delete

`fs_delete_in`: the entry is cleared, every block of the inode's trees is freed, and the
inode is given back. `free_indirect_tree` clears exactly the bits of the blocks below its
argument (`Rep.freeIndirectTree_spec`, by induction on the depth with the 128 slots of a
row as an inner induction); by ownership none of them belongs to anyone else.
-/

namespace Crusadia

namespace Img

/-- The rows of the image's blocks, as `Forest` reads them. -/
def rows (v : Img) (b k : Nat) : Nat := (v.blk b).get32 (4 * k)

/-- The bits of the blocks in `T` are cleared. -/
structure Cleared (T : Nat → Prop) (v v' : Img) : Prop where
  rest : ∃ bit, v' = { v with bit := bit }
  bit : ∀ c, v'.bit c = true ↔ v.bit c = true ∧ ¬ T c

variable {v v' v'' : Img} {T T' : Nat → Prop}

theorem Cleared.refl (v : Img) (h : ∀ c, ¬ T c) : Cleared T v v :=
  ⟨⟨v.bit, rfl⟩, fun c => by simp [h c]⟩

theorem Cleared.trans (h : Cleared T v v') (h' : Cleared T' v' v'') :
    Cleared (fun c => T c ∨ T' c) v v'' := by
  obtain ⟨bit, rfl⟩ := h.rest
  obtain ⟨bit', rfl⟩ := h'.rest
  refine ⟨⟨bit', rfl⟩, fun c => ?_⟩
  rw [h'.bit, h.bit, not_or, and_assoc]

theorem Cleared.congr (h : Cleared T v v') (hT : ∀ c, T c ↔ T' c) : Cleared T' v v' :=
  ⟨h.rest, fun c => by rw [h.bit, hT]⟩

theorem cleared_setBit (v : Img) (b : Nat) : Cleared (· = b) v (v.setBit b false) := by
  refine ⟨⟨_, rfl⟩, fun c => ?_⟩
  rw [bit_setBit]
  split <;> simp [*]

theorem Cleared.rows (h : Cleared T v v') : v'.rows = v.rows := by
  obtain ⟨bit, rfl⟩ := h.rest
  rfl

end Img

namespace Rep

variable {L : Layout} {s : Cos} {v : Img}

/-- Freeing one thing after the other, each of them described by what it clears. -/
theorem foldl_free {α : Type} (f : Cos → α → Cos) (T : α → Nat → Prop) (rows : Nat → Nat → Nat) :
    ∀ (xs : List α) {s : Cos} {v : Img}, Rep L s v → v.rows = rows →
    (∀ x ∈ xs, ∀ {s : Cos} {v : Img}, Rep L s v → v.rows = rows →
      ∃ v', Rep L (f s x) v' ∧ Img.Cleared (T x) v v') →
    ∃ v', Rep L (xs.foldl f s) v' ∧ Img.Cleared (fun c => ∃ x ∈ xs, T x c) v v' := by
  intro xs
  induction xs with
  | nil => exact fun h _ _ => ⟨_, h, Img.Cleared.refl _ (by simp)⟩
  | cons x xs ih =>
    intro s v h hrows hstep
    obtain ⟨v1, h1, hc1⟩ := hstep x (by simp) h hrows
    obtain ⟨v2, h2, hc2⟩ := ih h1 (hc1.rows.trans hrows) fun y hy => hstep y (by simp [hy])
    refine ⟨v2, h2, (hc1.trans hc2).congr fun c => ?_⟩
    simp

theorem freeBlock_spec (h : Rep L s v) {b : Nat} (hb : b < L.sb.totalBlocks) :
    ∃ v', Rep L (s.freeBlock b) v' ∧ Img.Cleared (· = b) v v' :=
  ⟨_, h.freeBlock hb, Img.cleared_setBit v b⟩

/-- `free_indirect_tree` frees a block and everything below it. -/
theorem freeIndirectTree_spec {rows : Nat → Nat → Nat} : ∀ depth b {s : Cos} {v : Img},
    Rep L s v → v.rows = rows →
    (∀ c, Forest.InTree rows ptrsPerBlock b depth c →
      L.sb.dataStart ≤ c ∧ c < L.sb.totalBlocks) →
    ∃ v', Rep L (Cos.freeIndirectTree depth b s) v' ∧
      Img.Cleared (Forest.InTree rows ptrsPerBlock b depth) v v' := by
  intro depth
  induction depth with
  | zero =>
    intro b s v h _ hrange
    rw [Cos.freeIndirectTree]
    split
    · rename_i h0
      subst h0
      exact ⟨v, h, Img.Cleared.refl v fun c => Forest.not_inTree_of_zero⟩
    · rename_i h0
      obtain ⟨v', h', hc⟩ := h.freeBlock_spec
        (hrange b ((Forest.inTree_zero h0).mpr rfl)).2
      exact ⟨v', h', hc.congr fun c => (Forest.inTree_zero h0).symm⟩
  | succ depth ih =>
    intro b s v h hrows hrange
    rw [Cos.freeIndirectTree]
    split
    · rename_i h0
      subst h0
      exact ⟨v, h, Img.Cleared.refl v fun c => Forest.not_inTree_of_zero⟩
    · rename_i h0
      obtain ⟨hb1, hb2⟩ := hrange b ((Forest.inTree_succ h0).mpr (Or.inl rfl))
      simp only [h.blk b hb1 hb2]
      have hrow : ∀ k, (v.blk b).get32 (4 * k) = rows b k := fun k => hrows ▸ rfl
      simp only [hrow]
      obtain ⟨v1, h1, hc1⟩ := foldl_free
        (fun s k => if rows b k ≠ 0 then Cos.freeIndirectTree depth (rows b k) s else s)
        (fun k => Forest.InTree rows ptrsPerBlock (rows b k) depth) rows
        (List.range ptrsPerBlock) h hrows (by
          intro k hk s v h hrows
          split
          · refine ih (rows b k) h hrows fun c hc => hrange c ?_
            exact (Forest.inTree_succ h0).mpr (Or.inr ⟨k, List.mem_range.mp hk, hc⟩)
          · rename_i hz
            rw [ne_eq, not_not] at hz
            rw [hz]
            exact ⟨v, h, Img.Cleared.refl v fun c => Forest.not_inTree_of_zero⟩)
      obtain ⟨v2, h2, hc2⟩ := h1.freeBlock_spec hb2
      refine ⟨v2, h2, (hc1.trans hc2).congr fun c => ?_⟩
      rw [Forest.inTree_succ h0, or_comm]
      simp only [List.mem_range]

/-- `fs_free_inode_data` frees everything below the fifteen block pointers. -/
theorem fsFreeInodeData_spec (h : Rep L s v) (node : Inode)
    (hrange : ∀ r c, r < 15 → Forest.InTree v.rows ptrsPerBlock (node.ptr r) (r - 11) c →
      L.sb.dataStart ≤ c ∧ c < L.sb.totalBlocks) :
    ∃ v', Rep L (s.fsFreeInodeData node) v' ∧ Img.Cleared
      (fun c => ∃ r, r < 15 ∧ Forest.InTree v.rows ptrsPerBlock (node.ptr r) (r - 11) c) v v' := by
  -- One indirect pointer, guarded as in the source.
  have htree : ∀ r, r < 15 → ∀ {s' : Cos} {v' : Img}, Rep L s' v' → v'.rows = v.rows →
      ∃ v'', Rep L (if node.ptr r ≠ 0 then Cos.freeIndirectTree (r - 11) (node.ptr r) s' else s')
        v'' ∧ Img.Cleared (Forest.InTree v.rows ptrsPerBlock (node.ptr r) (r - 11)) v' v'' := by
    intro r hr s' v' h' hrows'
    split
    · exact freeIndirectTree_spec (r - 11) (node.ptr r) h' hrows' fun c => hrange r c hr
    · rename_i hz
      rw [ne_eq, not_not] at hz
      rw [hz]
      exact ⟨v', h', Img.Cleared.refl v' fun c => Forest.not_inTree_of_zero⟩
  have hdirect : ∀ r ∈ List.range inodeDirect, ∀ {s' : Cos} {v' : Img}, Rep L s' v' →
      v'.rows = v.rows → ∃ v'', Rep L (if node.ptr r ≠ 0 then s'.freeBlock (node.ptr r) else s')
        v'' ∧ Img.Cleared (Forest.InTree v.rows ptrsPerBlock (node.ptr r) (r - 11)) v' v'' := by
    intro r hr s' v' h' hrows'
    have hr : r < 12 := List.mem_range.mp hr
    have := htree r (by omega) h' hrows'
    rw [show r - 11 = 0 by omega] at this ⊢
    simp only [Cos.freeIndirectTree] at this
    split
    · rename_i h0
      rwa [if_pos h0, if_neg h0] at this
    · rename_i h0
      rwa [if_neg h0] at this
  obtain ⟨v1, h1, hc1⟩ := foldl_free _ _ v.rows (List.range inodeDirect) h rfl hdirect
  have hr1 := hc1.rows
  obtain ⟨v2, h2, hc2⟩ := htree 12 (by omega) h1 hr1
  have hr2 := hc2.rows.trans hr1
  obtain ⟨v3, h3, hc3⟩ := htree 13 (by omega) h2 hr2
  have hr3 := hc3.rows.trans hr2
  obtain ⟨v4, h4, hc4⟩ := htree 14 (by omega) h3 hr3
  refine ⟨v4, h4, (((hc1.trans hc2).trans hc3).trans hc4).congr fun c => ?_⟩
  constructor
  · rintro (((⟨r, hr, hc⟩ | hc) | hc) | hc)
    · have : r < 12 := List.mem_range.mp hr
      exact ⟨r, by omega, hc⟩
    · exact ⟨12, by omega, hc⟩
    · exact ⟨13, by omega, hc⟩
    · exact ⟨14, by omega, hc⟩
  · rintro ⟨r, hr, hc⟩
    by_cases hlt : r < 12
    · exact Or.inl (Or.inl (Or.inl ⟨r, List.mem_range.mpr hlt, hc⟩))
    · obtain rfl | rfl | rfl : r = 12 ∨ r = 13 ∨ r = 14 := by omega
      · exact Or.inl (Or.inl (Or.inr hc))
      · exact Or.inl (Or.inr hc)
      · exact Or.inr hc

end Rep

namespace Img

variable {L : Layout} {v v' : Img} {d e : Nat}

/-- Block `c` belongs to inode `e`. -/
def Owns (L : Layout) (v : Img) (e c : Nat) : Prop :=
  c ≠ 0 ∧ ∃ r p, PtrPlace (e, r) p ∧ v.ptr L (e, r) p = c

/-- The blocks below the pointers of a used inode are the ones it owns. -/
theorem inTree_iff_owns (he : e < L.sb.inodeCount) (hu : v.used e = true) (c : Nat) :
    (∃ r, r < 15 ∧ Forest.InTree v.rows ptrsPerBlock ((v.ino e).ptr r) (r - 11) c) ↔
      Owns L v e c := by
  constructor
  · rintro ⟨r, hr, hc, p, hlen, hk, hw⟩
    refine ⟨hc, r, p, ⟨hlen, hk⟩, ?_⟩
    rw [← hw, ptr, Forest.ptr, forest_root he hu hr]
    rfl
  · rintro ⟨hc, r, p, hp, heq⟩
    have hr : r < 15 := by
      by_contra hge
      refine hc (heq.symm.trans ?_)
      have hroot : (v.forest L).root (e, r) = 0 := if_neg fun hh => hge hh.2.2
      rw [ptr, Forest.ptr, hroot, Forest.walk_zero]
    refine ⟨r, hr, hc, p, hp.1, hp.2, ?_⟩
    rw [← heq, ptr, Forest.ptr, forest_root he hu hr]
    rfl

/-- Inode `e` goes out of use and its blocks are freed. -/
structure Dropped (L : Layout) (e : Nat) (v v' : Img) : Prop where
  rest : ∃ bit, v' = ({ v with bit := bit } : Img).setUsed e false
  bit : ∀ c, v'.bit c = true ↔ v.bit c = true ∧ ¬ Owns L v e c

section

variable (h : Dropped L e v v')
include h

theorem Dropped.ptr_eq (y : Nat × Nat) (q : List Nat) :
    (y.1 = e → v'.ptr L y q = 0) ∧ (y.1 ≠ e → v'.ptr L y q = v.ptr L y q) := by
  obtain ⟨bit, rfl⟩ := h.rest
  set v' := ({ v with bit := bit } : Img).setUsed e false with hv'
  have hdrop : ∀ y : Nat × Nat, y.1 = e → (v'.forest L).root y = 0 := by
    intro y hy
    refine if_neg fun hh => ?_
    have := hh.2.1
    rw [hv', used_setUsed, if_pos hy] at this
    cases this
  have hkeep : ∀ y : Nat × Nat, ¬ y.1 = e → (v'.forest L).root y = (v.forest L).root y := by
    intro y hy
    simp only [forest, hv', used_setUsed, if_neg hy]
    rfl
  have hmem : (v'.forest L).mem = (v.forest L).mem := rfl
  exact Forest.ptr_dropRoots hdrop hkeep hmem y q

theorem Dropped.frame : Frame L e v v' where
  cwd := by
    obtain ⟨bit, rfl⟩ := h.rest
    rfl
  used_ne := by
    obtain ⟨bit, rfl⟩ := h.rest
    intro j hj
    rw [used_setUsed, if_neg hj]
  ino := by
    obtain ⟨bit, rfl⟩ := h.rest
    exact fun _ _ => rfl
  ptr := fun y q _ hy => (h.ptr_eq y q).2 hy
  blk := by
    obtain ⟨bit, rfl⟩ := h.rest
    exact fun _ _ _ _ _ => rfl

theorem Dropped.not_used : v'.used e = false := by
  obtain ⟨bit, rfl⟩ := h.rest
  rw [used_setUsed, if_pos rfl]

theorem Dropped.blocks (hb : Blocks L v) : Blocks L v' := by
  have hne : ∀ y q, v'.ptr L y q ≠ 0 → y.1 ≠ e := fun y q h0 hy => h0 ((h.ptr_eq y q).1 hy)
  refine ⟨?_, ?_⟩
  · intro y q z r hq hr h0 heq
    have hy := (h.ptr_eq y q).2 (hne y q h0)
    have hz := (h.ptr_eq z r).2 (hne z r fun hz => h0 (heq.trans hz))
    rw [ptr] at hy hz
    rw [hy] at h0 heq
    rw [hz] at heq
    exact hb.owned y q z r hq hr h0 heq
  · intro y q hq h0
    have hye := hne y q h0
    have hy := (h.ptr_eq y q).2 hye
    rw [hy] at h0 ⊢
    obtain ⟨hr, hbit⟩ := hb.live y q hq h0
    refine ⟨hr, (h.bit _).mpr ⟨hbit, ?_⟩⟩
    rintro ⟨-, r, p, hp, heq⟩
    exact hye (by rw [(hb.owned y q (e, r) p hq hp h0 heq.symm).1])

/-- An inode that no entry names can be dropped. -/
theorem Dropped.inv (hv : Inv L v) (h0 : e ≠ 0)
    (hno : ∀ d b k, Slot L v d b k → v.ent d b k ≠ e) : Inv L v' := by
  have hf := h.frame
  have hne : ∀ {d}, IsDir L v' d → d ≠ e := by
    rintro d hd rfl
    exact absurd hd.used (by rw [h.not_used]; decide)
  refine hv.of_old (h.blocks hv.blocks) ((hf.isDir h0.symm).mpr hv.root)
    (fun d hd => .inl ⟨(hf.isDir (hne hd)).mp hd, hf.ino d (hne hd)⟩)
    (fun d b k hs _ => hf.entry (hne hs.dir) hs) fun d b k hs _ _ hu => ?_
  rw [hf.used_ne _ (hno d b k hs)]
  exact hu

end

/-- The image with one entry cleared. -/
def clear (v : Img) (d b k : Nat) : Img :=
  v.setBlk ((v.ino d).ptr b) (clearEnt (v.blk ((v.ino d).ptr b)) k)

theorem ent_clear (h : Inv L v) (hs : Slot L v d b k) (hs' : Slot L v d' b' k') :
    (v.clear d b k).ent d' b' k' = if d' = d ∧ b' = b ∧ k' = k then 0 else v.ent d' b' k' := by
  rw [clear, ent_setBlk h.blocks hs hs']
  by_cases hdb : d' = d ∧ b' = b
  · obtain ⟨rfl, rfl⟩ := hdb
    rw [if_pos ⟨rfl, rfl⟩]
    by_cases hk : k' = k
    · rw [hk, if_pos ⟨rfl, rfl, rfl⟩, entInode_clearEnt_same hs.slot]
    · rw [entInode_clearEnt_ne hk, if_neg (fun hh => hk hh.2.2), ent]
  · rw [if_neg hdb, if_neg (fun hh => hdb ⟨hh.1, hh.2.1⟩)]

/-- Clearing one entry. -/
theorem clear_inv (h : Inv L v) (hs : Slot L v d b k) :
    Inv L (v.clear d b k) ∧ Edit L d v (v.clear d b k) := by
  obtain ⟨hblocks, hedit⟩ := hs.setBlk h.blocks (clearEnt (v.blk ((v.ino d).ptr b)) k)
  refine ⟨h.of_old hblocks (hedit.isDir.mpr h.root) (fun d' hd' => .inl ⟨hedit.isDir.mp hd', rfl⟩)
    (fun d' b' k' hs' hne => ?_) fun _ _ _ _ _ _ hu => hu, hedit⟩
  have hs1 := slot_setBlk.mp hs'
  refine ⟨hs1, ?_⟩
  change (v.clear d b k).ent d' b' k' ≠ 0 at hne
  show (v.clear d b k).ent d' b' k' = _
  rw [ent_clear h hs hs1] at hne ⊢
  split at hne
  · exact absurd rfl hne
  · rename_i hn
    rw [if_neg hn]

/-- The outcomes of `fs_delete_in` in directory `d`. -/
inductive Delete (L : Layout) (v : Img) (d : Nat) (name : CStr) : Img → Int → Prop
  /-- There is no such entry, or it is a directory that is not empty. -/
  | refused (why : ∀ b k, v.findSlot d name 12 0 = some (b, k) →
      (v.ino (v.ent d b k)).type = 2 ∧ ∃ b' k', Slot L v (v.ent d b k) b' k' ∧
        v.ent (v.ent d b k) b' k' ≠ 0) : Delete L v d name v (-1)
  /-- The entry is cleared and its inode dropped. -/
  | done (b k : Nat) (v' : Img) (hfind : v.findSlot d name 12 0 = some (b, k))
      (hs : Slot L v d b k) (hent : v.ent d b k ≠ 0)
      (hempty : ∀ b' k', Slot L v (v.ent d b k) b' k' → v.ent (v.ent d b k) b' k' = 0)
      (hdrop : Dropped L (v.ent d b k) (v.clear d b k) v') : Delete L v d name v' 0

theorem Delete.inv {name : CStr} {rc : Int} (hd : Delete L v d name v' rc) (h : Inv L v) :
    Inv L v' := by
  cases hd with
  | refused => exact h
  | done b k _ hfind hs hent hempty hdrop =>
    refine hdrop.inv (clear_inv h hs).1 hent fun d' b' k' hs' heq => ?_
    have hs1 := slot_setBlk.mp hs'
    rw [ent_clear h hs hs1] at heq
    split at heq
    · exact hent heq.symm
    · rename_i hne
      obtain ⟨rfl, rfl, rfl⟩ := h.unique d b k d' b' k' hs hs1 hent heq.symm
      exact hne ⟨rfl, rfl, rfl⟩

theorem Delete.boot {name : CStr} {rc : Int} (h : Delete L v d name v' rc) : v'.boot = v.boot := by
  cases h with
  | refused => rfl
  | done b k _ _ _ _ _ hdrop =>
    obtain ⟨bit, rfl⟩ := hdrop.rest
    rfl

end Img

namespace Rep

variable {L : Layout} {s : Cos} {v : Img} {d e : Nat}

/-- Freeing the data of a used inode and the inode itself. -/
theorem drop_spec (h : Rep L s v) (hb : Img.Blocks L v) (he : e < L.sb.inodeCount)
    (hu : v.used e = true) :
    ∃ v', Rep L ((s.fsFreeInodeData (v.ino e)).freeInode e) v' ∧ Img.Dropped L e v v' := by
  have howns := fun c => Img.inTree_iff_owns (L := L) he hu c
  obtain ⟨v1, h1, hc⟩ := h.fsFreeInodeData_spec (v.ino e) (by
    intro r c hr hc
    obtain ⟨hc0, r', p, hp, heq⟩ := (howns c).mp ⟨r, hr, hc⟩
    exact heq ▸ (hb.live (e, r') p hp (heq ▸ hc0)).1)
  obtain ⟨bit, hv1⟩ := hc.rest
  refine ⟨_, h1.freeInode he, ⟨bit, by rw [hv1]⟩, fun c => ?_⟩
  rw [← howns]
  exact hc.bit c

/-- `fs_delete_in` in a used directory. -/
theorem fsDeleteIn_spec (h : Rep L s v) (hv : Img.Inv L v) (hd : Img.IsDir L v d) (name : CStr) :
    ∃ v', Rep L (s.fsDeleteIn d name).2 v' ∧ Img.Delete L v d name v' (s.fsDeleteIn d name).1 := by
  rw [Cos.fsDeleteIn, h.ino d hd.lt]
  dsimp only
  rw [if_neg (fun hne => hne hd.type), h.dirLookup_eq hv hd]
  cases hfind : v.findSlot d name 12 0 with
  | none => exact ⟨v, h, .refused fun b k hbk => by rw [hfind] at hbk; cases hbk⟩
  | some bk =>
    obtain ⟨b, k⟩ := bk
    obtain ⟨hs, hent, hlt, hu⟩ := hv.find hd hfind
    obtain ⟨i, hi⟩ := Nat.exists_eq_succ_of_ne_zero hent
    simp only [Option.map_some, hi, Nat.succ_eq_add_one]
    rw [← Nat.succ_eq_add_one, ← hi, h.ino _ hlt]
    split
    · rename_i hc
      refine ⟨v, h, .refused fun b' k' hbk => ?_⟩
      rw [hfind] at hbk
      cases hbk
      refine ⟨hc.1, ?_⟩
      have hne := (h.fsDirIsEmpty_iff hv ⟨hlt, hu, hc.1⟩).not.mp (by rw [hc.2]; decide)
      push Not at hne
      exact hne
    · rename_i hc
      have hempty : ∀ b' k', Img.Slot L v (v.ent d b k) b' k' →
          v.ent (v.ent d b k) b' k' = 0 := by
        intro b' k' hs'
        refine (h.fsDirIsEmpty_iff hv hs'.dir).mp ?_ b' k' hs'
        by_contra hne
        exact hc ⟨hs'.dir.type, by simpa using hne⟩
      obtain ⟨hr1, hr2⟩ := Img.dir_range hv.blocks hd hs.block hs.ptr
      have hrep := h.writeBlk (clearEnt (v.blk ((v.ino d).ptr b)) k) hr1 hr2
      obtain ⟨v', hv', hdrop⟩ := hrep.drop_spec (Img.clear_inv hv hs).1.blocks hlt hu
      rw [h.dirRemove_wf (hv.dirWf hd), hfind]
      exact ⟨v', hv', .done b k v' hfind hs hent hempty hdrop⟩

end Rep

end Crusadia
