import Crusadia.Lib.Buf
import Mathlib.Data.List.TakeWhile

/-!
# Crusadia.Lib.Field

**Text in a field of fixed width.** The text ends at the first NUL or with the field. `strcmp` knows
nothing of the width: it compares a text that fills its field with whatever stands behind it as well
(`strEq_ofField`). A NUL right behind the field makes it exact (`strEq_ended`).
-/

namespace Crusadia

/-- The bytes before the first NUL are `cs` just when they are there and a NUL or the end
follows. -/
theorem takeWhile_eq_iff {l cs : List Byte} (hnz : ∀ b ∈ cs, b ≠ 0) (hlen : cs.length ≤ l.length) :
    l.takeWhile (· ≠ 0) = cs ↔ (∀ j, j < cs.length → l.getD j 0 = cs.getD j 0) ∧
      (cs.length < l.length → l.getD cs.length 0 = 0) := by
  induction l generalizing cs with
  | nil =>
    obtain rfl : cs = [] := List.length_eq_zero_iff.mp (Nat.le_zero.mp hlen)
    simp
  | cons a l ih =>
    cases cs with
    | nil => by_cases ha : a = 0 <;> simp [ha]
    | cons c cs =>
      have hc : c ≠ 0 := hnz c List.mem_cons_self
      by_cases ha : a = 0
      · -- a NUL at once
        refine iff_of_false (by simp [ha]) fun h => hc ?_
        have h0 := h.1 0 (Nat.succ_pos _)
        rw [List.getD_cons_zero, List.getD_cons_zero] at h0
        rw [← h0, ha]
      · rw [List.takeWhile_cons_of_pos (by simpa using ha), List.cons.injEq,
          ih (fun b hb => hnz b (List.mem_cons_of_mem _ hb)) (Nat.le_of_succ_le_succ hlen)]
        simp only [List.length_cons, Nat.add_lt_add_iff_right, List.getD_cons_succ]
        constructor
        · rintro ⟨rfl, hall, hend⟩
          refine ⟨fun j hj => ?_, hend⟩
          cases j with
          | zero => rfl
          | succ j => exact hall j (Nat.lt_of_succ_lt_succ hj)
        · rintro ⟨hall, hend⟩
          exact ⟨hall 0 (Nat.succ_pos _), fun j hj => hall (j + 1) (Nat.succ_lt_succ hj), hend⟩

namespace CStr

/-- A buffer read as a C string: it ends at the first NUL. -/
def ofBytes (l : List Byte) : CStr where
  chars := l.takeWhile (· ≠ 0)
  nz := fun b hb => by simpa using List.mem_takeWhile_imp hb

theorem ofBytes_chars {l : List Byte} (h : ∀ b ∈ l, b ≠ 0) : (ofBytes l).chars = l := by
  refine List.takeWhile_eq_self_iff.mpr ?_
  simpa using h

/-- The text in a field of `w` bytes. -/
def ofField (w : Nat) (mem : Nat → Byte) : CStr := ofBytes ((List.range w).map mem)

variable {w : Nat} {mem : Nat → Byte} {s : CStr}

theorem length_ofField : (ofField w mem).length ≤ w := by
  calc (ofField w mem).length ≤ ((List.range w).map mem).length :=
        (List.takeWhile_prefix _).length_le
    _ = w := by simp

theorem ofField_eq_iff (hw : s.length ≤ w) : ofField w mem = s ↔
    (∀ j, j < s.length → mem j = s.at' j) ∧ (s.length < w → mem s.length = 0) := by
  have hget : ∀ j, j < w → ((List.range w).map mem).getD j 0 = mem j := by
    intro j hj
    rw [List.getD_eq_getElem _ _ (by simpa using hj), List.getElem_map, List.getElem_range]
  have hiff := takeWhile_eq_iff (l := (List.range w).map mem) s.nz
    (by rw [List.length_map, List.length_range]; exact hw)
  rw [List.length_map, List.length_range] at hiff
  have htext : ofField w mem = s ↔ ((List.range w).map mem).takeWhile (· ≠ 0) = s.chars :=
    ⟨fun h => congrArg chars h, fun h => ext_chars (s := ofField w mem) h⟩
  rw [htext, hiff]
  refine and_congr (forall_congr' fun j => forall_congr' fun hj => ?_) (forall_congr' fun hlt => ?_)
  · rw [hget j (Nat.lt_of_lt_of_le hj hw)]
    rfl
  · rw [hget _ hlt]
    rfl

/-- `strcmp` on a field: the text must be `s`, and behind a full field there must be a NUL. -/
theorem strEq_ofField (hw : s.length ≤ w) : strEq mem s = true ↔
    ofField w mem = s ∧ (s.length = w → mem w = 0) := by
  have hend : s.at' s.length = 0 := at_of_ge (Nat.le_refl _)
  rw [strEq_iff, ofField_eq_iff hw]
  constructor
  · intro h
    have hlast := (h s.length (Nat.le_refl _)).trans hend
    exact ⟨⟨fun j hj => h j (Nat.le_of_lt hj), fun _ => hlast⟩, fun heq => heq ▸ hlast⟩
  · rintro ⟨⟨hall, hshort⟩, hlong⟩ j hj
    rcases Nat.lt_or_eq_of_le hj with hlt | rfl
    · exact hall j hlt
    · rw [hend]
      rcases Nat.lt_or_eq_of_le hw with hlt | heq
      · exact hshort hlt
      · rw [heq]
        exact hlong heq

theorem strEq_ended (h0 : mem w = 0) : strEq mem s = true ↔ ofField w mem = s := by
  by_cases hw : s.length ≤ w
  · rw [strEq_ofField hw]
    exact and_iff_left fun _ => h0
  · refine iff_of_false (fun h => ?_) fun h => hw (h ▸ length_ofField)
    exact at_ne_zero (s := s) (i := w) (by omega)
      ((strEq_iff.mp h w (by omega)).symm.trans h0)

end CStr

end Crusadia
