import Mathlib.Data.List.Basic
import Mathlib.Logic.Function.Basic
import Mathlib.Tactic

/-!
# Crusadia.Lib.CycleRing

**Rings with a cycle bit.** A producer writes its items into `n` cells, over and over, and marks
every item with a bit that flips from one lap to the next. A consumer that is less than a lap
behind tells from the bit of a cell whether the cell holds its next item (`Filled.written`) or one
of the lap before, or nothing yet (`Filled.next`).
-/

namespace Crusadia.CycleRing

variable {α β : Type*} {n p q : Nat}

/-- The bit of the lap that item `p` belongs to: set in the first lap. -/
def phase (n p : Nat) : Bool := p / n % 2 == 0

theorem phase_of_lt (h : p < n) : phase n p = true := by
  rw [phase, Nat.div_eq_of_lt h]
  rfl

theorem phase_congr (h : p / n = q / n) : phase n p = phase n q := by
  rw [phase, phase, h]

theorem phase_eq_not (h : q / n = p / n + 1) : phase n q = !phase n p := by
  rw [phase, phase, h]
  rcases Nat.mod_two_eq_zero_or_one (p / n) with h0 | h1
  · rw [Nat.add_mod, h0]
    rfl
  · rw [Nat.add_mod, h1]
    rfl

theorem phase_add_self (hn : 0 < n) (p : Nat) : phase n (p + n) = !phase n p :=
  phase_eq_not (Nat.add_div_right p hn)

theorem succ_div_of_lt (h : p % n + 1 < n) : (p + 1) / n = p / n := by
  have hp := Nat.div_add_mod p n
  rw [Nat.div_eq_iff (by omega)]
  rw [Nat.mul_comm]
  omega

theorem succ_div_of_eq (h : p % n + 1 = n) : (p + 1) / n = p / n + 1 := by
  have hp := Nat.div_add_mod p n
  have hs : p + 1 = n * (p / n + 1) := by
    rw [Nat.mul_add, Nat.mul_one]
    omega
  rw [hs, Nat.mul_div_cancel_left _ (by omega)]

theorem succ_mod_of_lt (h : p % n + 1 < n) : (p + 1) % n = p % n + 1 := by
  rw [Nat.add_mod, Nat.mod_eq_of_lt (show 1 < n by omega), Nat.mod_eq_of_lt h]

theorem succ_mod_of_eq (h : p % n + 1 = n) : (p + 1) % n = 0 := by
  have hp := Nat.div_add_mod p n
  have hs : p + 1 = n * (p / n + 1) := by
    rw [Nat.mul_add, Nat.mul_one]
    omega
  rw [hs, Nat.mul_mod_right]

/-- Items less than a lap apart are in different cells. -/
theorem mod_ne_mod (h : p < q) (hq : q < p + n) : p % n ≠ q % n := by
  intro he
  have hd : n ∣ q - p := (Nat.modEq_iff_dvd' (Nat.le_of_lt h)).mp he
  have := Nat.le_of_dvd (by omega) hd
  omega

/-- What was taken so far, and the next item. -/
theorem prefix_append_next {l m : List β} (h : l <+: m) (hlt : l.length < m.length) :
    l ++ [m[l.length]] <+: m := by
  have hpre := List.prefix_iff_eq_take.mp h
  rw [List.prefix_iff_eq_take, List.length_append, List.length_singleton,
    List.take_succ_eq_append_getElem hlt, ← hpre]

/-- The producer has written `items`: the cells hold the last lap of them, each with the bit of its
lap, and cells it has not come to yet have the bit clear. -/
structure Filled (n : Nat) (bit : α → Bool) (val : α → β) (cells : Nat → α) (items : List β) :
    Prop where
  written : ∀ p (h : p < items.length), items.length ≤ p + n →
    bit (cells (p % n)) = phase n p ∧ val (cells (p % n)) = items[p]
  fresh : ∀ i, items.length ≤ i → i < n → bit (cells i) = false

section

variable {bit : α → Bool} {val : α → β} {cells : Nat → α} {items : List β}

theorem Filled.nil (h : ∀ i, bit (cells i) = false) : Filled n bit val cells [] :=
  ⟨fun _ hp => absurd hp (Nat.not_lt_zero _), fun i _ _ => h i⟩

section

variable (h : Filled n bit val cells items)
include h

/-- The cell of the next item does not look as if it were there. -/
theorem Filled.next (hn : 0 < n) : bit (cells (items.length % n)) = !phase n items.length := by
  rcases Nat.lt_or_ge items.length n with hlt | hge
  · rw [Nat.mod_eq_of_lt hlt, h.fresh _ (Nat.le_refl _) hlt, phase_of_lt hlt]
    rfl
  · -- it holds the item of the lap before
    obtain ⟨p, hp⟩ := Nat.exists_eq_add_of_le' hge
    have hw := (h.written p (by omega) (by omega)).1
    rw [hp, Nat.add_mod_right, hw, phase_add_self hn, Bool.not_not]

/-- Cells outside the ring do not matter. -/
theorem Filled.congr {cells' : Nat → α} (hn : 0 < n)
    (hc : ∀ i, i < n → cells' i = cells i) : Filled n bit val cells' items where
  written p hp hl := by
    rw [hc _ (Nat.mod_lt _ hn)]
    exact h.written p hp hl
  fresh i hi hin := by
    rw [hc i hin]
    exact h.fresh i hi hin

theorem Filled.push {c : α} (hc : bit c = phase n items.length) :
    Filled n bit val (Function.update cells (items.length % n) c) (items ++ [val c]) where
  written p hp hl := by
    rw [List.length_append, List.length_singleton] at hp hl
    rcases Nat.lt_or_ge p items.length with hlt | hge
    · rw [Function.update_of_ne (mod_ne_mod hlt (by omega)), List.getElem_append_left hlt]
      exact h.written p hlt (by omega)
    · obtain rfl : p = items.length := by omega
      rw [Function.update_self, List.getElem_append_right (Nat.le_refl _)]
      exact ⟨hc, by simp⟩
  fresh i hi hin := by
    rw [List.length_append, List.length_singleton] at hi
    have hne : i ≠ items.length % n := by
      have := Nat.mod_le items.length n
      omega
    rw [Function.update_of_ne hne]
    exact h.fresh i (by omega) hin

end

end

end Crusadia.CycleRing
