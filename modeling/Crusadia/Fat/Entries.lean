import Crusadia.Fat.Model

/-!
# Crusadia.Fat.Entries

**What a directory lists.** A directory is a sequence of slots and a record in each slot.
`entries` is the list of its live records, up to the end mark, with the name that each is
shown under; every callback that the driver runs over a directory is a function of it. A
name depends on the long-name records in front of the record, through the state that
`lfn_add` keeps.
-/

namespace Crusadia

open Function (update)

namespace Dirent

/-- The record of a file or a directory. -/
def Live (e : Dirent) : Prop := e.get 0 ≠ 0 ∧ e.get 0 ≠ deletedMark ∧ e.attr ≠ fat32AttrLfn

instance (e : Dirent) : Decidable e.Live := inferInstanceAs (Decidable (_ ∧ _))

end Dirent

/-- The long-name state after a record. -/
def LfnState.next (s : LfnState) (e : Dirent) : LfnState :=
  if e.get 0 ≠ deletedMark ∧ e.attr = fat32AttrLfn then s.add e else s.reset

namespace LfnState

variable {s : LfnState} {e : Dirent}

theorem next_live (h : e.Live) : s.next e = s.reset := by
  rw [next, if_neg fun hc => h.2.2 hc.2]

theorem next_deleted (h : e.get 0 = deletedMark) : s.next e = s.reset := by
  rw [next, if_neg fun hc => hc.1 h]

theorem next_lfn (h : e.get 0 ≠ deletedMark) (ha : e.attr = fat32AttrLfn) : s.next e = s.add e := by
  rw [next, if_pos ⟨h, ha⟩]

end LfnState

namespace Fat

/-- The live records of a directory and their names. -/
def entries (rec : SlotPos → Dirent) : LfnState → List SlotPos → List (SlotPos × CStr)
  | _, [] => []
  | lfn, p :: ps =>
    if (rec p).get 0 = 0 then [] else
    if (rec p).Live then (p, lfn.take (rec p)) :: entries rec (lfn.next (rec p)) ps
    else entries rec (lfn.next (rec p)) ps

section Callbacks

variable {rec : SlotPos → Dirent} {lfn : LfnState} {p : SlotPos} {ps : List SlotPos} {α σ : Type}

theorem entries_zero (h : (rec p).get 0 = 0) : entries rec lfn (p :: ps) = [] := by
  rw [entries, if_pos h]

theorem entries_live (h : (rec p).Live) :
    entries rec lfn (p :: ps) = (p, lfn.take (rec p)) :: entries rec lfn.reset ps := by
  rw [entries, if_neg h.1, if_pos h, LfnState.next_live h]

theorem entries_skip (h0 : (rec p).get 0 ≠ 0) (h : ¬ (rec p).Live) :
    entries rec lfn (p :: ps) = entries rec (lfn.next (rec p)) ps := by
  rw [entries, if_neg h0, if_neg h]

/-- A record that is not live and not an end mark is deleted or a long-name record. -/
theorem deleted_or_lfn {e : Dirent} (h0 : e.get 0 ≠ 0) (h : ¬ e.Live) :
    e.get 0 = deletedMark ∨ e.get 0 ≠ deletedMark ∧ e.attr = fat32AttrLfn := by
  rw [Dirent.Live] at h
  tauto

section

variable {cb : α → σ → Bool × σ} {a : α} {as : List α} {ctx ctx' : σ}

theorem runUntil_stop (h : cb a ctx = (true, ctx')) : runUntil cb (a :: as) ctx = (true, ctx') := by
  rw [runUntil, h]
  rfl

theorem runUntil_go (h : cb a ctx = (false, ctx')) :
    runUntil cb (a :: as) ctx = runUntil cb as ctx' := by
  rw [runUntil, h]
  rfl

end

theorem runUntil_append (cb : α → σ → Bool × σ) (as bs : List α) (ctx : σ) :
    runUntil cb (as ++ bs) ctx =
      if (runUntil cb as ctx).1 then runUntil cb as ctx else runUntil cb bs
        (runUntil cb as ctx).2 := by
  induction as generalizing ctx with
  | nil => rfl
  | cons a as ih =>
    rw [List.cons_append, runUntil, runUntil]
    split
    case isTrue => rfl
    case isFalse => exact ih _

/-- `find_in_dir` returns the first record shown under the name. -/
theorem runUntil_findCb (name : CStr) (lfn : LfnState) (ps : List SlotPos) :
    (runUntil (fun p => findCb name (rec p) p) ps ⟨none, lfn⟩).2.found =
      ((entries rec lfn ps).find? fun x => ciEq x.2 name).map fun x => (rec x.1, x.1) := by
  induction ps generalizing lfn with
  | nil => rfl
  | cons p ps ih =>
    by_cases h0 : (rec p).get 0 = 0
    · rw [entries_zero h0, runUntil_stop (by rw [findCb, if_pos h0])]
      rfl
    · by_cases hl : (rec p).Live
      · have hcb : findCb name (rec p) p ⟨none, lfn⟩ = if ciEq (lfn.take (rec p)) name
            then (true, ⟨some (rec p, p), lfn⟩) else (false, ⟨none, lfn.reset⟩) := by
          rw [findCb, if_neg h0, if_neg hl.2.1, if_neg hl.2.2]
        rw [entries_live hl, List.find?_cons]
        cases hn : ciEq (lfn.take (rec p)) name with
        | true =>
          rw [runUntil_stop (by rw [hcb, hn, if_pos rfl])]
          rfl
        | false =>
          rw [runUntil_go (by rw [hcb, hn, if_neg Bool.false_ne_true])]
          exact ih lfn.reset
      · rw [entries_skip h0 hl]
        rcases deleted_or_lfn h0 hl with hd | ⟨hd, ha⟩
        · rw [runUntil_go (by rw [findCb, if_neg h0, if_pos hd]), LfnState.next_deleted hd]
          exact ih lfn.reset
        · rw [runUntil_go (by rw [findCb, if_neg h0, if_neg hd, if_pos ha]),
            LfnState.next_lfn hd ha]
          exact ih (lfn.add (rec p))

/-- `short_name_exists` looks at the live records. -/
theorem runUntil_shortExistsCb (name11 : Buf 11) (lfn : LfnState) (ps : List SlotPos) :
    (runUntil (fun p => shortExistsCb name11 (rec p) p) ps false).2 =
      (entries rec lfn ps).any fun x => decide ((rec x.1).name = name11) := by
  induction ps generalizing lfn with
  | nil => rfl
  | cons p ps ih =>
    by_cases h0 : (rec p).get 0 = 0
    · rw [entries_zero h0, runUntil_stop (by rw [shortExistsCb, if_pos h0])]
      rfl
    · by_cases hl : (rec p).Live
      · have hcb : shortExistsCb name11 (rec p) p false =
            if (rec p).name = name11 then (true, true) else (false, false) := by
          rw [shortExistsCb, if_neg h0, if_neg hl.2.1, if_neg hl.2.2]
        rw [entries_live hl, List.any_cons]
        by_cases hn : (rec p).name = name11
        · rw [runUntil_stop (by rw [hcb, if_pos hn]), decide_eq_true hn]
          rfl
        · rw [runUntil_go (by rw [hcb, if_neg hn]), decide_eq_false hn, Bool.false_or]
          exact ih lfn.reset
      · rw [entries_skip h0 hl]
        have hcb : shortExistsCb name11 (rec p) p false = (false, false) := by
          rcases deleted_or_lfn h0 hl with hd | ⟨hd, ha⟩
          · rw [shortExistsCb, if_neg h0, if_pos hd]
          · rw [shortExistsCb, if_neg h0, if_neg hd, if_pos ha]
        rw [runUntil_go (by rw [hcb])]
        exact ih _

end Callbacks

end Fat

end Crusadia
