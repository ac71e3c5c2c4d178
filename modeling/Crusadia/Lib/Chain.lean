import Mathlib.Data.List.Basic
import Mathlib.Data.Set.Finite.Basic
import Mathlib.Data.Set.Insert
import Mathlib.Logic.Function.Iterate

/-!
# Crusadia.Lib.Chain

**Linked chains in a table.** A table `next` gives every node its successor. A chain starts
at a node, runs through nodes that are `ok` and ends where a successor is a `fin`, an end
mark. There is one chain from a node on at most, and it has no node twice.

In a table that says nothing about its chains, a walk either leaves the nodes or is `Cyclic`.
-/

namespace Crusadia

variable {α : Type*}

/-- Following `next` from `a` through the nodes of a list leads to `b`. -/
def Path (next : α → α) : α → List α → α → Prop
  | a, [], b => a = b
  | a, x :: l, b => x = a ∧ Path next (next a) l b

section Path

variable {next next' : α → α} {a b : α} {l l' : List α}

theorem path_append : Path next a (l ++ l') b ↔ ∃ m, Path next a l m ∧ Path next m l' b := by
  induction l generalizing a with
  | nil =>
    constructor
    · exact fun h => ⟨a, rfl, h⟩
    · rintro ⟨m, rfl, h⟩
      exact h
  | cons x l ih =>
    rw [List.cons_append, Path, ih]
    constructor
    · rintro ⟨hx, m, h1, h2⟩
      exact ⟨m, ⟨hx, h1⟩, h2⟩
    · rintro ⟨m, ⟨hx, h1⟩, h2⟩
      exact ⟨hx, m, h1, h2⟩

end Path

/-- `l` is the chain that starts at `a`. -/
structure Chain (next : α → α) (ok fin : α → Prop) (a : α) (l : List α) : Prop where
  ok : ∀ x ∈ l, ok x
  fin : ∃ b, Path next a l b ∧ fin b

namespace Chain

variable {next next' : α → α} {ok fin : α → Prop} {a x c : α} {l l' : List α}

theorem nil_iff : Chain next ok fin a [] ↔ fin a := by
  constructor
  · rintro ⟨-, b, rfl, hb⟩
    exact hb
  · exact fun h => ⟨fun x hx => (by cases hx), a, rfl, h⟩

theorem cons_iff : Chain next ok fin a (x :: l) ↔ x = a ∧ ok a ∧ Chain next ok fin (next a) l := by
  constructor
  · rintro ⟨hok, b, ⟨rfl, hp⟩, hb⟩
    exact ⟨rfl, hok x List.mem_cons_self, fun y hy => hok y (List.mem_cons_of_mem _ hy), b, hp, hb⟩
  · rintro ⟨rfl, ha, hok, b, hp, hb⟩
    refine ⟨fun y hy => ?_, b, ⟨rfl, hp⟩, hb⟩
    rcases List.mem_cons.mp hy with rfl | hy
    · exact ha
    · exact hok y hy

/-- What follows a node of a chain is a chain. -/
theorem suffix (h : Chain next ok fin a (l ++ x :: l')) : Chain next ok fin x (x :: l') := by
  obtain ⟨hok, b, hp, hb⟩ := h
  obtain ⟨m, -, hm⟩ := path_append.mp hp
  refine ⟨fun y hy => hok y (List.mem_append_right _ hy), b, ?_, hb⟩
  obtain ⟨rfl, hm⟩ := hm
  exact ⟨rfl, hm⟩

/-- A chain that begins with a node that is `ok` has that node. -/
theorem head (h : Chain next ok fin a l) (hsep : ∀ x, ok x → ¬ fin x) (ha : ok a) :
    ∃ l', l = a :: l' := by
  cases l with
  | nil => exact absurd (nil_iff.mp h) (hsep a ha)
  | cons x l =>
    obtain ⟨rfl, -⟩ := cons_iff.mp h
    exact ⟨l, rfl⟩

/-- There is only one chain from a node on. -/
theorem unique (hsep : ∀ x, ok x → ¬ fin x) (h : Chain next ok fin a l)
    (h' : Chain next ok fin a l') : l = l' := by
  induction l generalizing a l' with
  | nil =>
    cases l' with
    | nil => rfl
    | cons x l' =>
      obtain ⟨rfl, hx, -⟩ := cons_iff.mp h'
      exact absurd (nil_iff.mp h) (hsep _ hx)
  | cons x l ih =>
    obtain ⟨rfl, hx, h⟩ := cons_iff.mp h
    obtain ⟨l'', rfl⟩ := h'.head hsep hx
    obtain ⟨-, -, h'⟩ := cons_iff.mp h'
    rw [ih h h']

/-- A chain does not come back to a node. -/
theorem nodup (hsep : ∀ x, ok x → ¬ fin x) (h : Chain next ok fin a l) : l.Nodup := by
  induction l generalizing a with
  | nil => exact List.nodup_nil
  | cons x l ih =>
    have htail := (cons_iff.mp h).2.2
    refine List.nodup_cons.mpr ⟨fun hx => ?_, ih htail⟩
    -- otherwise the chain from `x` would be a proper suffix of itself
    obtain ⟨l1, l2, rfl⟩ := List.append_of_mem hx
    have h1 : Chain next ok fin x (x :: l2) := (suffix (l := x :: l1) h)
    have h2 : Chain next ok fin x (x :: (l1 ++ x :: l2)) := suffix (l := []) h
    have hlen := congrArg List.length (unique hsep h1 h2)
    simp only [List.length_cons, List.length_append] at hlen
    omega

end Chain

/-! ### Walks that come back -/

/-- The walk from `a` comes back to a node without leaving `ok`. -/
def Cyclic (next : α → α) (ok : α → Prop) (a : α) : Prop :=
  ∃ i j, i < j ∧ next^[i] a = next^[j] a ∧ ∀ k, k ≤ j → ok (next^[k] a)

/-- Where finitely many nodes are `ok`, a walk leaves them unless it comes back. -/
theorem exists_not_iterate_iff {next : α → α} {ok : α → Prop} (hfin : {x | ok x}.Finite) (a : α) :
    (∃ k, ¬ ok (next^[k] a)) ↔ ¬ Cyclic next ok a := by
  constructor
  · rintro ⟨k, hk⟩ ⟨i, j, hij, heq, hok⟩
    -- by induction on the step: each node of the walk is one of the first `j`
    have hback : ∀ n, ∃ m, m ≤ j ∧ next^[n] a = next^[m] a := by
      intro n
      induction n with
      | zero => exact ⟨0, Nat.zero_le j, rfl⟩
      | succ n ih =>
        obtain ⟨m, hm, hnm⟩ := ih
        rcases Nat.lt_or_eq_of_le hm with hlt | rfl
        · exact ⟨m + 1, hlt, by rw [Function.iterate_succ_apply', hnm,
            Function.iterate_succ_apply']⟩
        · exact ⟨i + 1, hij, by
            rw [Function.iterate_succ_apply', hnm, ← heq, Function.iterate_succ_apply']⟩
    obtain ⟨m, hm, heq⟩ := hback k
    exact hk (heq ▸ hok m hm)
  · intro hcyc
    by_contra hall
    push Not at hall
    obtain ⟨i, -, j, -, hne, heq⟩ := Set.infinite_univ.exists_ne_map_eq_of_mapsTo
      (f := fun k => next^[k] a) (fun k _ => hall k) hfin
    rcases Nat.lt_or_gt_of_ne hne with hlt | hlt
    · exact hcyc ⟨i, j, hlt, heq, fun k _ => hall k⟩
    · exact hcyc ⟨j, i, hlt, heq.symm, fun k _ => hall k⟩

end Crusadia
