import Mathlib.Data.List.Pairwise
import Mathlib.Order.Interval.Set.Basic

/-!
# Crusadia.Lib.Blocks

**Doubly linked lists of blocks** that lie in one address space.

`Linked.Seg` is a segment of a doubly linked list over any type of nodes: what a node
looks like, given the addresses before and after it, is a parameter. Segments are cut and
joined at any place (`seg_append`), so a program that rewrites the links around one node
is followed by cutting there, changing the nodes it touches and joining again.

A `Blk` is a header of `H` bytes with `size` bytes behind it. Two that are `Sep`
share no byte, and `sep_replace` says when some blocks may take the place of others.
-/

namespace Crusadia

namespace Linked

variable {α : Type} {addr : α → Nat} {N N' : α → Nat → Nat → Prop} {l : List α}

/-- Where a link to the front of the list points; to `d` when it is empty. -/
def first (addr : α → Nat) (d : Nat) : List α → Nat
  | [] => d
  | x :: _ => addr x

/-- Where a link to the back of the list points. -/
def last (addr : α → Nat) (d : Nat) : List α → Nat
  | [] => d
  | x :: xs => last addr (addr x) xs

@[simp] theorem first_nil (d : Nat) : first addr d [] = d := rfl

@[simp] theorem first_cons (d : Nat) (x : α) (xs : List α) : first addr d (x :: xs) = addr x := rfl

@[simp] theorem last_nil (d : Nat) : last addr d [] = d := rfl

@[simp] theorem last_cons (d : Nat) (x : α) (xs : List α) :
    last addr d (x :: xs) = last addr (addr x) xs := rfl

@[simp] theorem first_append (d : Nat) (l r : List α) :
    first addr d (l ++ r) = first addr (first addr d r) l := by
  cases l <;> rfl

@[simp] theorem last_append (d : Nat) (l r : List α) :
    last addr d (l ++ r) = last addr (last addr d l) r := by
  induction l generalizing d with
  | nil => rfl
  | cons x l ih => exact ih (addr x)

/-- Nodes linked in order: `N x p n` is the node `x` whose neighbours are at `p` and `n`. -/
def Seg (addr : α → Nat) (N : α → Nat → Nat → Prop) : Nat → List α → Nat → Prop
  | _, [], _ => True
  | p, x :: xs, n => N x p (first addr n xs) ∧ Seg addr N (addr x) xs n

@[simp] theorem seg_nil (p n : Nat) : Seg addr N p [] n := trivial

@[simp] theorem seg_cons (p n : Nat) (x : α) (xs : List α) :
    Seg addr N p (x :: xs) n ↔ N x p (first addr n xs) ∧ Seg addr N (addr x) xs n := Iff.rfl

@[simp] theorem seg_append (p n : Nat) (l r : List α) :
    Seg addr N p (l ++ r) n ↔
      Seg addr N p l (first addr n r) ∧ Seg addr N (last addr p l) r n := by
  induction l generalizing p with
  | nil => simp
  | cons x l ih => simp [ih, and_assoc]

/-- A segment whose nodes are left alone. -/
theorem Seg.mono {p n : Nat} (h : Seg addr N p l n) (hN : ∀ x ∈ l, ∀ p n, N x p n → N' x p n) :
    Seg addr N' p l n := by
  induction l generalizing p with
  | nil => trivial
  | cons x l ih =>
    exact ⟨hN x List.mem_cons_self _ _ h.1,
      ih h.2 fun y hy => hN y (List.mem_cons_of_mem x hy)⟩

/-- A segment behind which another neighbour comes: only its first node changes. -/
theorem Seg.relink {p p' n : Nat} (h : Seg addr N p l n)
    (hfirst : ∀ x ∈ l.head?, ∀ n, N x p n → N' x p' n)
    (hN : ∀ x ∈ l.tail, ∀ p n, N x p n → N' x p n) : Seg addr N' p' l n := by
  cases l with
  | nil => trivial
  | cons x l => exact ⟨hfirst x rfl _ h.1, h.2.mono hN⟩

/-- Every node of a segment is one. -/
theorem Seg.node {p n : Nat} (h : Seg addr N p l n) {x : α} (hx : x ∈ l) :
    ∃ p n, N x p n := by
  obtain ⟨l, r, rfl⟩ := List.append_of_mem hx
  rw [seg_append] at h
  exact ⟨_, _, h.2.1⟩

end Linked

/-! ### Blocks -/

/-- A block of a heap. -/
structure Blk where
  /-- The address of the header. -/
  addr : Nat
  /-- The number of bytes behind it. -/
  size : Nat
  free : Bool
  deriving DecidableEq

namespace Blk

variable {H : Nat} {b c d : Blk} {l r old : List Blk}

/-- The address behind the block. -/
def stop (H : Nat) (b : Blk) : Nat := b.addr + H + b.size

/-- Two blocks share no byte. -/
def Sep (H : Nat) (b c : Blk) : Prop := b.stop H ≤ c.addr ∨ c.stop H ≤ b.addr

theorem Sep.symm (h : Sep H b c) : Sep H c b := Or.symm h

instance : Std.Symm (Sep H) := ⟨fun _ _ => Sep.symm⟩

theorem Sep.ne (hH : 0 < H) (h : Sep H b c) : b ≠ c := by
  intro heq
  unfold Sep stop at h
  rw [heq] at h
  omega

/-- Blocks that take no byte the ones before them did not have. -/
theorem sep_replace (new : List Blk) (h : (l ++ old ++ r).Pairwise (Sep H))
    (hnew : new.Pairwise (Sep H)) (hcov : ∀ c ∈ new, ∀ d, (∀ b ∈ old, Sep H b d) → Sep H c d) :
    (l ++ new ++ r).Pairwise (Sep H) := by
  simp only [List.pairwise_append, List.mem_append] at h ⊢
  obtain ⟨⟨hl, -, hlo⟩, hr, hlor⟩ := h
  refine ⟨⟨hl, hnew, fun a ha c hc => ?_⟩, hr, fun a ha e he => ?_⟩
  · exact (hcov c hc a fun b hb => (hlo a ha b hb).symm).symm
  · rcases ha with ha | ha
    · exact hlor a (Or.inl ha) e he
    · exact hcov a ha e fun b hb => hlor b (Or.inr hb) e he

/-- A block is cut in two. -/
theorem sep_split (h : (l ++ b :: r).Pairwise (Sep H)) (hc : c.addr = b.addr)
    (hcd : d.addr = c.stop H) (hd : d.stop H = b.stop H) :
    (l ++ c :: d :: r).Pairwise (Sep H) := by
  have h' : (l ++ [b] ++ r).Pairwise (Sep H) := by simpa using h
  have := sep_replace [c, d] h' (by simp [Sep, hcd]) fun e he a hba => by
    have hb := hba b List.mem_cons_self
    have hle : c.stop H ≤ b.stop H := by
      rw [← hd, ← hcd, stop]
      omega
    have hle' : b.addr ≤ c.stop H := by
      rw [← hc, stop]
      omega
    unfold Sep at hb ⊢
    simp only [List.mem_cons, List.not_mem_nil, or_false] at he
    rcases he with rfl | rfl
    · omega
    · omega
  simpa using this

/-- Two blocks that meet become one. -/
theorem sep_merge (hH : 0 < H) (h : (l ++ b :: c :: r).Pairwise (Sep H))
    (hbc : c.addr = b.stop H) (hd : d.addr = b.addr) (hstop : d.stop H = c.stop H) :
    (l ++ d :: r).Pairwise (Sep H) := by
  have h' : (l ++ [b, c] ++ r).Pairwise (Sep H) := by simpa using h
  have := sep_replace [d] h' (List.pairwise_singleton _ _) fun e he a hba => by
    obtain rfl := List.mem_singleton.mp he
    have hb := hba b (by simp)
    have hc := hba c (by simp)
    -- what lies between the two would have to be empty
    have ha : a.addr < a.stop H := by
      unfold stop
      omega
    unfold Sep at hb hc ⊢
    omega
  simpa using this

end Blk

end Crusadia
