import Mathlib.Tactic

/-!
# Crusadia.Lib.Forest

**Forests of pointer blocks**, the shape of an inode-based filesystem's block maps.

A forest has a root pointer for every index `x : ι` and, for every block, a row of
`fan` pointers. The pointer `0` means *nothing here*. A *place* is a root together
with a path of slot numbers no longer than the root's depth; the places whose path
has the full depth are the leaves, and only they hold data.

The property a block allocator has to keep is `Forest.Owned`: no block number is
found at two places. Under it the four ways a filesystem changes its forest have
exact descriptions, each an equation for the pointer found at *every* place:

* linking a fresh block at an empty place (`Linked.ptr_eq`),
* overwriting a leaf or an unreachable block (`ptr_congr`),
* dropping or clearing whole roots (`ptr_dropRoots`),
* enumerating everything below a block (`inTree_succ`), which is how a subtree is
  freed.
-/

namespace Crusadia

/-- Root pointers and the pointer rows of all blocks. -/
structure Forest (ι : Type) where
  /-- The root pointer at an index. -/
  root : ι → Nat
  /-- Slot `k` of block `b`. -/
  mem : Nat → Nat → Nat

namespace Forest

/-- Follow the slots of a path, starting from block `b`; an empty slot on the way
yields `0`. -/
def walk (mem : Nat → Nat → Nat) : Nat → List Nat → Nat
  | b, [] => b
  | b, k :: p => if b = 0 then 0 else walk mem (mem b k) p

@[simp] theorem walk_nil (mem : Nat → Nat → Nat) (b : Nat) : walk mem b [] = b := rfl

@[simp] theorem walk_zero (mem : Nat → Nat → Nat) (p : List Nat) : walk mem 0 p = 0 := by
  cases p <;> simp [walk]

theorem walk_append (mem : Nat → Nat → Nat) (b : Nat) (p q : List Nat) :
    walk mem b (p ++ q) = walk mem (walk mem b p) q := by
  induction p generalizing b with
  | nil => rfl
  | cons k p ih =>
    rw [List.cons_append, walk, walk]
    by_cases hb : b = 0
    · simp [hb]
    · rw [if_neg hb, if_neg hb, ih]

variable {ι : Type} {x : ι} {p : List Nat}

/-- The pointer found at path `p` below root `x`. -/
def ptr (F : Forest ι) (x : ι) (p : List Nat) : Nat := walk F.mem (F.root x) p

@[simp] theorem ptr_nil (F : Forest ι) (x : ι) : F.ptr x [] = F.root x := rfl

theorem ptr_snoc (F : Forest ι) (x : ι) (p : List Nat) (k : Nat) :
    F.ptr x (p ++ [k]) = if F.ptr x p = 0 then 0 else F.mem (F.ptr x p) k := by
  rw [ptr, walk_append]
  rfl

theorem ptr_append_of_zero {F : Forest ι} (q : List Nat) (h : F.ptr x p = 0) :
    F.ptr x (p ++ q) = 0 := by
  rw [ptr, walk_append, show walk F.mem (F.root x) p = 0 from h, walk_zero]

variable (depth : ι → Nat) (fan : Nat)

/-- `p` is a path of slots below root `x` that stays within its depth. -/
def Place (x : ι) (p : List Nat) : Prop := p.length ≤ depth x ∧ ∀ k ∈ p, k < fan

variable {depth fan} {F F' : Forest ι} {mem : Nat → Nat → Nat}

theorem place_nil (x : ι) : Place depth fan x [] :=
  ⟨Nat.zero_le _, fun _ h => absurd h (by simp)⟩

theorem Place.left {q : List Nat} (h : Place depth fan x (p ++ q)) :
    Place depth fan x p := by
  refine ⟨?_, fun k hk => h.2 k (List.mem_append_left _ hk)⟩
  have := h.1
  rw [List.length_append] at this
  omega

theorem Place.lt_of_snoc {k : Nat} (h : Place depth fan x (p ++ [k])) :
    p.length < depth x ∧ k < fan := by
  refine ⟨?_, h.2 k (by simp)⟩
  have := h.1
  rw [List.length_append, List.length_singleton] at this
  omega

/-- No block number is found at two places. -/
def Owned (depth : ι → Nat) (fan : Nat) (F : Forest ι) : Prop :=
  ∀ x p y q, Place depth fan x p → Place depth fan y q → F.ptr x p ≠ 0 →
    F.ptr x p = F.ptr y q → x = y ∧ p = q

/-! ### Frame: changes that no pointer can see -/

/-- The pointers below `x` depend on its root and on the rows of the blocks strictly
inside its tree only. -/
theorem ptr_congr (hroot : F'.root x = F.root x)
    (hmem : ∀ q k, Place depth fan x (q ++ [k]) → F.ptr x q ≠ 0 →
      F'.mem (F.ptr x q) k = F.mem (F.ptr x q) k) :
    ∀ p, Place depth fan x p → F'.ptr x p = F.ptr x p := by
  intro p
  induction p using List.reverseRecOn with
  | nil => intro _; exact hroot
  | append_singleton q k ih =>
    intro hp
    rw [ptr_snoc, ptr_snoc, ih hp.left]
    by_cases h0 : F.ptr x q = 0
    · rw [if_pos h0, if_pos h0]
    · rw [if_neg h0, if_neg h0, hmem q k hp h0]

/-- Clearing some roots empties their trees and leaves the others alone. -/
theorem ptr_dropRoots {P : ι → Prop} (hdrop : ∀ x, P x → F'.root x = 0)
    (hkeep : ∀ x, ¬ P x → F'.root x = F.root x) (hmem : F'.mem = F.mem) (x : ι) (p : List Nat) :
    (P x → F'.ptr x p = 0) ∧ (¬ P x → F'.ptr x p = F.ptr x p) := by
  refine ⟨fun h => ?_, fun h => ?_⟩
  · rw [ptr, hdrop x h, walk_zero]
  · rw [ptr, ptr, hkeep x h, hmem]

/-! ### Linking a fresh block -/

/-- `F'` is `F` with the fresh block `b` stored in the empty slot at place `(x, p)`.
Above the leaves the row of the new block is empty. -/
structure Linked (depth : ι → Nat) (fan : Nat) (F F' : Forest ι) (x : ι) (p : List Nat)
    (b : Nat) : Prop where
  place : Place depth fan x p
  empty : F.ptr x p = 0
  parent : ∀ q k, p = q ++ [k] → F.ptr x q ≠ 0
  ne_zero : b ≠ 0
  fresh : ∀ y q, Place depth fan y q → F.ptr y q ≠ b
  root_self : p = [] → F'.root x = b
  root_other : ∀ y, ¬ (y = x ∧ p = []) → F'.root y = F.root y
  mem_self : ∀ q k, p = q ++ [k] → F'.mem (F.ptr x q) k = b
  mem_other : ∀ c k, c ≠ b → ¬ (∃ q, p = q ++ [k] ∧ c = F.ptr x q) → F'.mem c k = F.mem c k
  mem_new : p.length < depth x → ∀ k, k < fan → F'.mem b k = 0

/-- A link changes the pointer at its own place and nowhere else. -/
theorem Linked.ptr_eq {b : Nat} (h : Linked depth fan F F' x p b) (hown : Owned depth fan F) :
    ∀ q y, Place depth fan y q →
      (y = x ∧ q = p → F'.ptr y q = b) ∧ (¬ (y = x ∧ q = p) → F'.ptr y q = F.ptr y q) := by
  intro q
  -- Along the path: the row of the new block is empty, and ownership says that the
  -- changed slot of the parent row is not read from any other place.
  induction q using List.reverseRecOn with
  | nil =>
    intro y _
    refine ⟨?_, fun hne => ?_⟩
    · rintro ⟨rfl, rfl⟩
      exact h.root_self rfl
    · exact h.root_other y fun ⟨hy, hp⟩ => hne ⟨hy, hp.symm⟩
  | append_singleton q k ih =>
    intro y hq
    obtain ⟨ihself, ihother⟩ := ih y hq.left
    obtain ⟨hlen, hk⟩ := hq.lt_of_snoc
    by_cases hqp : y = x ∧ q = p
    · obtain ⟨rfl, rfl⟩ := hqp
      have hb := ihself ⟨rfl, rfl⟩
      refine ⟨fun hself => absurd hself.2 (by simp), fun _ => ?_⟩
      rw [ptr_snoc, hb, if_neg h.ne_zero, h.mem_new hlen k hk, ptr_append_of_zero _ h.empty]
    · have hc := ihother hqp
      by_cases h0 : F.ptr y q = 0
      · refine ⟨?_, fun _ => ?_⟩
        · rintro ⟨rfl, hp⟩
          exact absurd h0 (h.parent q k hp.symm)
        · rw [ptr_snoc, ptr_snoc, hc, if_pos h0, if_pos h0]
      · have hcb : F.ptr y q ≠ b := h.fresh y q hq.left
        refine ⟨?_, fun hne => ?_⟩
        · rintro ⟨rfl, hp⟩
          rw [ptr_snoc, hc, if_neg h0, h.mem_self q k hp.symm]
        · rw [ptr_snoc, ptr_snoc, hc, if_neg h0, if_neg h0]
          apply h.mem_other _ _ hcb
          rintro ⟨q', hp, hcq⟩
          have hq' : Place depth fan x q' := by
            have := h.place
            rw [hp] at this
            exact this.left
          obtain ⟨rfl, rfl⟩ := hown y q x q' hq.left hq' h0 hcq
          exact hne ⟨rfl, hp.symm⟩

/-- Linking a fresh block keeps the forest free of shared blocks. -/
theorem Linked.owned {b : Nat} (h : Linked depth fan F F' x p b) (hown : Owned depth fan F) :
    Owned depth fan F' := by
  intro y q z r hq hr h0 heq
  obtain ⟨hqs, hqo⟩ := h.ptr_eq hown q y hq
  obtain ⟨hrs, hro⟩ := h.ptr_eq hown r z hr
  by_cases hy : y = x ∧ q = p
  · by_cases hz : z = x ∧ r = p
    · exact ⟨hy.1.trans hz.1.symm, hy.2.trans hz.2.symm⟩
    · rw [hqs hy, hro hz] at heq
      exact absurd heq.symm (h.fresh z r hr)
  · by_cases hz : z = x ∧ r = p
    · rw [hqo hy, hrs hz] at heq
      exact absurd heq (h.fresh y q hq)
    · rw [hqo hy] at h0 heq
      rw [hro hz] at heq
      exact hown y q z r hq hr h0 heq

/-! ### Everything below a block -/

/-- Block `c` is found at most `d` levels below block `b` (`b` itself included). -/
def InTree (mem : Nat → Nat → Nat) (fan b d c : Nat) : Prop :=
  c ≠ 0 ∧ ∃ p : List Nat, p.length ≤ d ∧ (∀ k ∈ p, k < fan) ∧ walk mem b p = c

theorem inTree_zero {b c : Nat} (hb : b ≠ 0) :
    InTree mem fan b 0 c ↔ c = b := by
  constructor
  · rintro ⟨-, p, hp, -, rfl⟩
    rw [List.length_eq_zero_iff.mp (Nat.le_zero.mp hp), walk_nil]
  · rintro rfl
    exact ⟨hb, [], Nat.le_refl _, fun _ h => absurd h (by simp), rfl⟩

theorem not_inTree_of_zero {d c : Nat} : ¬ InTree mem fan 0 d c := by
  rintro ⟨hc, p, -, -, h⟩
  rw [walk_zero] at h
  exact hc h.symm

/-- One level of a subtree: the block itself, or something below one of its slots. -/
theorem inTree_succ {b d c : Nat} (hb : b ≠ 0) :
    InTree mem fan b (d + 1) c ↔ c = b ∨ ∃ k, k < fan ∧ InTree mem fan (mem b k) d c := by
  constructor
  · rintro ⟨hc, p, hp, hk, hw⟩
    cases p with
    | nil => exact Or.inl hw.symm
    | cons k p =>
      rw [walk, if_neg hb] at hw
      refine Or.inr ⟨k, hk k (by simp), hc, p, ?_, fun j hj => hk j (by simp [hj]), hw⟩
      simpa using hp
  · rintro (rfl | ⟨k, hk, hc, p, hp, hks, hw⟩)
    · exact ⟨hb, [], Nat.zero_le _, fun _ h => absurd h (by simp), rfl⟩
    · refine ⟨hc, k :: p, by simpa using hp, ?_, ?_⟩
      · intro j hj
        rcases List.mem_cons.mp hj with rfl | hj
        · exact hk
        · exact hks j hj
      · rw [walk, if_neg hb, hw]

end Forest

end Crusadia
