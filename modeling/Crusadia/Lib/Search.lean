import Mathlib.Tactic

/-!
# Crusadia.Lib.Search

First-fit search and counting over an interval of indices. A C loop
`for (i = s; i < s + n; i++) if (…) return …;` is `List.findSome?` on `List.range' s n`;
these are its two outcomes.
-/

namespace Crusadia

variable {α : Type} {f : Nat → Option α}

theorem findSome?_range'_eq_some {s n i : Nat} {a : α} (hi : s ≤ i) (hn : i < s + n)
    (hf : f i = some a) (hlt : ∀ j, s ≤ j → j < i → f j = none) :
    (List.range' s n).findSome? f = some a := by
  induction n generalizing s with
  | zero => omega
  | succ n ih =>
    rw [List.range'_succ, List.findSome?_cons]
    by_cases hs : s = i
    · rw [hs, hf]
    · rw [hlt s (Nat.le_refl s) (by omega)]
      exact ih (by omega) (by omega) fun j h1 h2 => hlt j (by omega) h2

/-- Every hit of the search satisfies what every hit of `f` satisfies. -/
theorem findSome?_range'_ne {s n : Nat} {a : α} (h : ∀ j, s ≤ j → j < s + n → f j ≠ some a) :
    (List.range' s n).findSome? f ≠ some a := by
  intro hf
  obtain ⟨j, hj, hfj⟩ := List.exists_of_findSome?_eq_some hf
  rw [List.mem_range'_1] at hj
  exact h j hj.1 hj.2 hfj

theorem findSome?_range'_eq_none {s n : Nat} (h : ∀ j, s ≤ j → j < s + n → f j = none) :
    (List.range' s n).findSome? f = none := by
  rw [List.findSome?_eq_none_iff]
  intro j hj
  rw [List.mem_range'_1] at hj
  exact h j hj.1 hj.2

/-- The part of an interval from `a` on. -/
theorem filter_range'_le (a : Nat) : ∀ (n s : Nat), s ≤ a →
    (List.range' s n).filter (fun b => decide (a ≤ b)) = List.range' a (s + n - a) := by
  intro n
  induction n with
  | zero =>
    intro s hs
    rw [List.range'_zero, List.filter_nil, Nat.add_zero, Nat.sub_eq_zero_of_le hs, List.range'_zero]
  | succ n ih =>
    intro s hs
    by_cases ha : a = s
    · subst ha
      rw [Nat.add_sub_cancel_left, List.filter_eq_self]
      intro b hb
      exact decide_eq_true (List.mem_range'_1.mp hb).1
    · rw [List.range'_succ, List.filter_cons_of_neg (by simp; omega), ih _ (by omega)]
      congr 1
      omega

/-- Counting again after one index has changed. -/
theorem countP_range_update {p q : Nat → Bool} {k : Nat} (h : ∀ j, j ≠ k → p j = q j) (n : Nat)
    (hk : k < n) : (List.range n).countP p + (q k).toNat =
    (List.range n).countP q + (p k).toNat := by
  have hcount : ∀ r : Nat → Bool, ∀ n,
      (List.range (n + 1)).countP r = (List.range n).countP r + (r n).toNat := by
    intro r n
    rw [List.range_succ, List.countP_append, List.countP_singleton, Bool.toNat]
    cases r n <;> rfl
  induction n with
  | zero => omega
  | succ n ih =>
    rw [hcount, hcount]
    by_cases hn : k = n
    · have hsame : (List.range n).countP p = (List.range n).countP q :=
        List.countP_congr fun j hj => by rw [h j (by have := List.mem_range.mp hj; omega)]
      rw [hsame, hn]
      omega
    · have := ih (by omega)
      rw [h n (Ne.symm hn)]
      omega

end Crusadia
