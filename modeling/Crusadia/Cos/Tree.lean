import Crusadia.Cos.Alloc
import Crusadia.Lib.Forest

/-!
# Crusadia.Cos.Tree

The **block trees of a COS image**, and `get_physical_block` on them.

The fifteen block pointers of every used inode are the roots of a `Forest` with 128
slots to a block; an unused inode has no roots. `Blocks` is the ownership invariant:
no block is found at two places, and every block found is a data block whose bit is
set. `get_physical_block` with `do_alloc` links at most four fresh blocks, one at a
time and each at an empty place of the path it follows; `Grow` is the effect of any
number of such links, and `Account` says how many blocks they took and what happens
when the bitmap runs out on the way.
-/

namespace Crusadia

open Forest (Place)

/-- The number of levels below block pointer `r` of an inode: 0 for the direct
pointers, then 1, 2 and 3. -/
def ptrDepth (x : Nat × Nat) : Nat := x.2 - 11

/-- A path of slots below block pointer `x.2` of inode `x.1`. -/
abbrev PtrPlace : Nat × Nat → List Nat → Prop := Place ptrDepth ptrsPerBlock

namespace Img

/-- The block trees of all used inodes. -/
def forest (L : Layout) (v : Img) : Forest (Nat × Nat) where
  root x := if x.1 < L.sb.inodeCount ∧ v.used x.1 = true ∧ x.2 < 15 then (v.ino x.1).ptr x.2 else 0
  mem b k := (v.blk b).get32 (4 * k)

/-- The block pointer found at a place. -/
def ptr (L : Layout) (v : Img) (x : Nat × Nat) (p : List Nat) : Nat := (v.forest L).ptr x p

/-- Every block of every tree is a data block, is marked used, and has one place. -/
structure Blocks (L : Layout) (v : Img) : Prop where
  owned : (v.forest L).Owned ptrDepth ptrsPerBlock
  live : ∀ x p, PtrPlace x p → v.ptr L x p ≠ 0 →
    (L.sb.dataStart ≤ v.ptr L x p ∧ v.ptr L x p < L.sb.totalBlocks) ∧ v.bit (v.ptr L x p) = true

/-- Blocks were linked at empty places on the way to `(x, path)`; nothing else changed.
`blk` leaves out the rows inside the path: they hold the new pointers. -/
structure Grow (L : Layout) (x : Nat × Nat) (path : List Nat) (v v' : Img) : Prop where
  used : v'.used = v.used
  cwd : v'.cwd = v.cwd
  ino_other : ∀ j, j ≠ x.1 → v'.ino j = v.ino j
  ino_raw : ∀ k, k < 4 ∨ 64 ≤ k → (v'.ino x.1).raw.get k = (v.ino x.1).raw.get k
  bit : ∀ c, v.bit c = true → v'.bit c = true
  ptr : ∀ y q, PtrPlace y q → v'.ptr L y q = v.ptr L y q ∨
    (y = x ∧ q <+: path ∧ v.ptr L y q = 0 ∧ v.bit (v'.ptr L y q) = false)
  blk : ∀ c, c ≠ 0 → (∀ q, q <+: path → q ≠ path → v'.ptr L x q ≠ c) → v'.blk c = v.blk c

/-- Slots still empty on a path below block `b`. -/
def missing (mem : Nat → Nat → Nat) : Nat → List Nat → Nat
  | _, [] => 0
  | b, k :: ks => if mem b k = 0 then ks.length + 1 else missing mem (mem b k) ks

/-- Linking `m` blocks one after the other, with result `res`: either there were enough
free blocks, and the last one taken is the result; or the first one that was not there
ended the attempt. In that case `zero_block` hits sector 0 unless the missing block was
the last of the `m`. -/
def Account (L : Layout) (m : Nat) (v v' : Img) (res : Nat) : Prop :=
  (m ≤ v.free L ∧ res ≠ 0 ∧ v'.boot = v.boot ∧ v'.freeList L = (v.freeList L).drop m ∧
    (m ≠ 0 → (v.freeList L)[m - 1]? = some res)) ∨
  (v.free L < m ∧ res = 0 ∧ v'.free L = 0 ∧
    v'.boot = if m = v.free L + 1 then v.boot else Buf.zero)

variable {L : Layout} {v v' v'' : Img} {x : Nat × Nat} {path q : List Nat} {p : List Nat} {nb : Nat}

theorem setIno_self (v : Img) (i : Nat) : v.setIno i (v.ino i) = v := by
  simp [setIno]

theorem setBlk_self (v : Img) (b : Nat) : v.setBlk b (v.blk b) = v := by
  simp [setBlk]

theorem forest_root {i r : Nat} (hi : i < L.sb.inodeCount) (hu : v.used i = true) (hr : r < 15) :
    (v.forest L).root (i, r) = (v.ino i).ptr r := if_pos ⟨hi, hu, hr⟩

theorem ptr_snoc (L : Layout) (v : Img) (x : Nat × Nat) (p : List Nat) (k : Nat) :
    v.ptr L x (p ++ [k]) =
      if v.ptr L x p = 0 then 0 else (v.blk (v.ptr L x p)).get32 (4 * k) :=
  Forest.ptr_snoc _ _ _ _

/-- A block whose bit is clear is not found anywhere. -/
theorem Blocks.fresh (h : Blocks L v) {b : Nat} (hb : v.bit b = false) :
    ∀ y q, PtrPlace y q → b ≠ 0 → v.ptr L y q ≠ b := by
  intro y q hq hb0 heq
  have := (h.live y q hq (heq ▸ hb0)).2
  rw [heq, hb] at this
  cases this

section congr

variable (hused : ∀ i, i < L.sb.inodeCount → v'.used i = v.used i)
  (hino : ∀ i, i < L.sb.inodeCount → v'.ino i = v.ino i)
  (hblk : ∀ b, L.sb.dataStart ≤ b → b < L.sb.totalBlocks → v'.blk b = v.blk b)

include hused hino hblk

/-- Images that agree on the drive have the same trees. -/
theorem Blocks.ptr_congr (h : Blocks L v) {y : Nat × Nat} (hq : PtrPlace y q) :
    v'.ptr L y q = v.ptr L y q := by
  -- Along the path: every block read on the way is a data block.
  induction q using List.reverseRecOn with
  | nil =>
    show (v'.forest L).root y = (v.forest L).root y
    simp only [forest]
    by_cases hy : y.1 < L.sb.inodeCount
    · rw [hused _ hy, hino _ hy]
    · rw [if_neg (fun hh => hy hh.1), if_neg (fun hh => hy hh.1)]
  | append_singleton q k ih =>
    rw [ptr_snoc, ptr_snoc, ih hq.left]
    split
    · rfl
    · rename_i h0
      obtain ⟨⟨h1, h2⟩, -⟩ := h.live y q hq.left h0
      rw [hblk _ h1 h2]

theorem Blocks.congr (hbit : ∀ b, b < L.sb.totalBlocks → v'.bit b = v.bit b) (h : Blocks L v) :
    Blocks L v' := by
  have hptr : ∀ y q, PtrPlace y q → v'.ptr L y q = v.ptr L y q := fun y q hq =>
    h.ptr_congr hused hino hblk hq
  refine ⟨fun x p y q hx hy h0 he => ?_, fun x p hx h0 => ?_⟩
  · change v'.ptr L x p ≠ 0 at h0
    change v'.ptr L x p = v'.ptr L y q at he
    rw [hptr x p hx] at h0 he
    rw [hptr y q hy] at he
    exact h.owned x p y q hx hy h0 he
  · rw [hptr x p hx] at h0 ⊢
    obtain ⟨⟨h1, h2⟩, h3⟩ := h.live x p hx h0
    exact ⟨⟨h1, h2⟩, (hbit _ h2).trans h3⟩

end congr

/-! ### `Grow` composes -/

theorem Grow.refl (L : Layout) (x : Nat × Nat) (path : List Nat) (v : Img) : Grow L x path v v where
  used := rfl
  cwd := rfl
  ino_other := fun _ _ => rfl
  ino_raw := fun _ _ => rfl
  bit := fun _ h => h
  ptr := fun _ _ _ => Or.inl rfl
  blk := fun _ _ _ => rfl

theorem Grow.ptr_of_ne_zero (h : Grow L x path v v') {y : Nat × Nat}
    (hq : PtrPlace y q) (h0 : v.ptr L y q ≠ 0) : v'.ptr L y q = v.ptr L y q := by
  rcases h.ptr y q hq with heq | ⟨-, -, hz, -⟩
  · exact heq
  · exact absurd hz h0

theorem Grow.trans (hx : PtrPlace x path) (h1 : Grow L x path v v') (h2 : Grow L x path v' v'') :
    Grow L x path v v'' where
  used := h2.used.trans h1.used
  cwd := h2.cwd.trans h1.cwd
  ino_other := fun j hj => (h2.ino_other j hj).trans (h1.ino_other j hj)
  ino_raw := fun k hk => (h2.ino_raw k hk).trans (h1.ino_raw k hk)
  bit := fun c hc => h2.bit c (h1.bit c hc)
  ptr := by
    intro y q hq
    rcases h2.ptr y q hq with he2 | ⟨hy, hp, hz, hb⟩
    · rw [he2]
      exact h1.ptr y q hq
    · refine Or.inr ⟨hy, hp, ?_, ?_⟩
      · rcases h1.ptr y q hq with he1 | ⟨-, -, hz1, -⟩
        · rw [← he1]
          exact hz
        · exact hz1
      · cases hv : v.bit (v''.ptr L y q) with
        | false => rfl
        | true => rw [h1.bit _ hv] at hb; cases hb
  blk := by
    intro c hc hrow
    refine (h2.blk c hc hrow).trans (h1.blk c hc fun q hq hne heq => ?_)
    have hqx : PtrPlace x q := by
      obtain ⟨t, rfl⟩ := hq
      exact hx.left
    exact hrow q hq hne ((h2.ptr_of_ne_zero hqx (heq ▸ hc)).trans heq)

/-! ### One link -/

/-- What one link does to the image, apart from the pointer itself: `nb` is taken from
the bitmap, and only the parent's row (or the inode) and, above the leaves, the new
row are written. -/
structure LinkStep (L : Layout) (x : Nat × Nat) (p path : List Nat) (nb : Nat) (v v' : Img) :
    Prop where
  first : v.firstFree L = some nb
  linked : Forest.Linked ptrDepth ptrsPerBlock (v.forest L) (v'.forest L) x p nb
  isPrefix : p <+: path
  bit : v'.bit = Function.update v.bit nb true
  used : v'.used = v.used
  cwd : v'.cwd = v.cwd
  boot : v'.boot = v.boot
  ino_other : ∀ j, j ≠ x.1 → v'.ino j = v.ino j
  ino_raw : ∀ k, k < 4 ∨ 64 ≤ k → (v'.ino x.1).raw.get k = (v.ino x.1).raw.get k
  blk : ∀ c, (∀ q k, p = q ++ [k] → v.ptr L x q ≠ c) → (c = nb → p = path) → v'.blk c = v.blk c

section

variable (h : LinkStep L x p path nb v v')
include h

theorem LinkStep.blocks (hb : Blocks L v) : Blocks L v' where
  owned := h.linked.owned hb.owned
  live := by
    intro y q hq h0
    obtain ⟨hself, hother⟩ := h.linked.ptr_eq hb.owned q y hq
    obtain ⟨hrange, -, -⟩ := firstFree_eq_some.mp h.first
    rw [h.bit]
    by_cases hy : y = x ∧ q = p
    · rw [show v'.ptr L y q = nb from hself hy]
      exact ⟨hrange, by simp⟩
    · rw [show v'.ptr L y q = v.ptr L y q from hother hy] at h0 ⊢
      obtain ⟨hr, hbit⟩ := hb.live y q hq h0
      exact ⟨hr, by rw [Function.update_apply]; split <;> simp [hbit]⟩

theorem LinkStep.freeList : v.freeList L = nb :: v'.freeList L := by
  rw [freeList_eq h.first, Img.freeList, Img.freeList, h.bit]
  rfl

theorem LinkStep.grow (hb : Blocks L v) : Grow L x path v v' where
  used := h.used
  cwd := h.cwd
  ino_other := h.ino_other
  ino_raw := h.ino_raw
  bit := by
    intro c hc
    rw [h.bit, Function.update_apply]
    split <;> simp [hc]
  ptr := by
    intro y q hq
    obtain ⟨hself, hother⟩ := h.linked.ptr_eq hb.owned q y hq
    obtain ⟨-, hfree, -⟩ := firstFree_eq_some.mp h.first
    by_cases hy : y = x ∧ q = p
    · refine Or.inr ⟨hy.1, hy.2 ▸ h.isPrefix, ?_, ?_⟩
      · rw [hy.1, hy.2]
        exact h.linked.empty
      · rw [show v'.ptr L y q = nb from hself hy]
        exact hfree
    · exact Or.inl (hother hy)
  blk := by
    intro c hc hrow
    have hpx := h.linked.place
    apply h.blk c
    · intro q k hp heq
      have hqp : q <+: path := (List.prefix_append q [k]).trans (hp ▸ h.isPrefix)
      refine hrow q hqp ?_ ?_
      · rintro rfl
        have := h.isPrefix.length_le
        rw [hp, List.length_append] at this
        simp at this
      · have hqx : PtrPlace x q := by
          rw [hp] at hpx
          exact hpx.left
        have hother := (h.linked.ptr_eq hb.owned q x hqx).2
        rw [show v'.ptr L x q = v.ptr L x q from hother fun hh => ?_]
        · exact heq
        · rw [hp] at hh
          simp at hh
    · rintro rfl
      by_contra hne
      exact hrow p h.isPrefix hne ((h.linked.ptr_eq hb.owned p x hpx).1 ⟨rfl, rfl⟩)

end

/-- Block `nb` taken from the bitmap, zeroed when it is an inner block. -/
def take (v : Img) (nb : Nat) (inner : Bool) : Img :=
  if inner then (v.setBit nb true).setBlk nb Buf.zero else v.setBit nb true

section take

variable {nb : Nat} {inner : Bool}

@[simp] theorem take_bit : (v.take nb inner).bit = Function.update v.bit nb true := by
  cases inner <;> rfl

@[simp] theorem take_used : (v.take nb inner).used = v.used := by cases inner <;> rfl

@[simp] theorem take_ino : (v.take nb inner).ino = v.ino := by cases inner <;> rfl

@[simp] theorem take_cwd : (v.take nb inner).cwd = v.cwd := by cases inner <;> rfl

@[simp] theorem take_boot : (v.take nb inner).boot = v.boot := by cases inner <;> rfl

theorem take_blk {c : Nat} (h : c = nb → inner = false) : (v.take nb inner).blk c = v.blk c := by
  cases inner with
  | false => rfl
  | true =>
    have : c ≠ nb := fun he => Bool.noConfusion (h he)
    simp [take, setBlk, setBit, this]

theorem take_blk_self : (v.take nb true).blk nb = Buf.zero := by
  simp [take, setBlk]

end take

/-- What `alloc_block` returns, as a number the trees can hold. -/
theorem firstFree_facts (h : v.firstFree L = some nb) :
    (L.sb.dataStart ≤ nb ∧ nb < L.sb.totalBlocks) ∧ v.bit nb = false ∧ nb ≠ 0 ∧
      nb % 2 ^ 32 = nb := by
  obtain ⟨hrange, hfree, -⟩ := firstFree_eq_some.mp h
  have := L.dataStart_gt
  have := L.total
  exact ⟨hrange, hfree, by omega, by omega⟩

/-- Storing a fresh block in an empty slot of a row. -/
theorem linkRow {k : Nat} {ks : List Nat} (hb : Blocks L v) (hff : v.firstFree L = some nb)
    (hx : PtrPlace x (q ++ k :: ks)) (hleaf : (q ++ k :: ks).length = ptrDepth x)
    (hq : v.ptr L x q ≠ 0) (hk : (v.blk (v.ptr L x q)).get32 (4 * k) = 0) :
    LinkStep L x (q ++ [k]) (q ++ k :: ks) nb v
      ((v.take nb (!ks.isEmpty)).setBlk (v.ptr L x q)
        ((v.blk (v.ptr L x q)).put32 (4 * k) nb)) := by
  obtain ⟨hrange, hfree, hnb0, h32⟩ := firstFree_facts hff
  have hxq : PtrPlace x (q ++ [k]) := by
    rw [List.append_cons] at hx
    exact hx.left
  obtain ⟨hqlen, hk128⟩ := hxq.lt_of_snoc
  have hqb : v.ptr L x q ≠ nb := hb.fresh hfree x q hxq.left hnb0
  have hk512 : 4 * k + 4 ≤ 512 := by
    rw [ptrsPerBlock] at hk128
    omega
  refine ⟨hff, ?_, ⟨ks, by simp⟩, take_bit, take_used, take_cwd, take_boot,
    fun j _ => congrFun take_ino j, fun j _ => by simp [setBlk], ?_⟩
  · refine
      { place := hxq
        empty := (Forest.ptr_snoc _ _ _ _).trans ((if_neg hq).trans hk)
        parent := ?_
        ne_zero := hnb0
        fresh := fun y p hp => hb.fresh hfree y p hp hnb0
        root_self := fun h => absurd h (by simp)
        root_other := fun y _ => by simp [forest, setBlk]
        mem_self := ?_
        mem_other := ?_
        mem_new := ?_ }
    · intro q' k' heq
      obtain ⟨rfl, -⟩ := List.append_inj' heq rfl
      exact hq
    · intro q' k' heq
      obtain ⟨rfl, hkk⟩ := List.append_inj' heq rfl
      obtain rfl : k = k' := by simpa using hkk
      show Buf.get32 ((setBlk _ _ _).blk (v.ptr L x q)) (4 * k) = nb
      rw [blk_setBlk, if_pos rfl, Buf.get32_put32_same _ hk512, h32]
    · intro c k' hc hne
      show Buf.get32 ((setBlk _ _ _).blk c) (4 * k') = (v.blk c).get32 (4 * k')
      rw [blk_setBlk]
      split
      · rename_i hcq
        have hkk : k' ≠ k := fun h => hne ⟨q, by rw [h], hcq⟩
        rw [hcq, Buf.get32_put32_out (by omega)]
      · rw [take_blk fun h => absurd h hc]
    · intro hlen k' _
      show Buf.get32 ((setBlk _ _ _).blk nb) (4 * k') = 0
      cases ks with
      | nil => exact absurd (hleaf ▸ hlen) (Nat.lt_irrefl _)
      | cons => rw [blk_setBlk, if_neg hqb.symm, List.isEmpty_cons, Bool.not_false,
          take_blk_self, Buf.get32_zero]
  · intro c hc hcn
    rw [blk_setBlk, if_neg (hc q k rfl).symm, take_blk]
    intro h
    have : [] = ks := by simpa using hcn h
    simp [← this]

end Img

namespace Inode

variable {n : Inode} {r r' w : Nat}

theorem ptr_setPtr_same (hr : r < 15) : (n.setPtr r w).ptr r = w % 2 ^ 32 :=
  Buf.get32_put32_same w (by omega)

theorem ptr_setPtr_ne (h : r' ≠ r) : (n.setPtr r w).ptr r' = n.ptr r' :=
  Buf.get32_put32_out (by omega)

theorem setPtr_self (n : Inode) (r : Nat) : n.setPtr r (n.ptr r) = n :=
  congrArg Inode.mk (Buf.put32_get32 _ _)

theorem raw_setPtr {k : Nat} (hr : r < 15) (hk : k < 4 ∨ 64 ≤ k) :
    (n.setPtr r w).raw.get k = n.raw.get k :=
  Buf.get_splice_out (by omega)

end Inode

namespace Img

variable {L : Layout} {v : Img}

/-- Storing a fresh block in an empty block pointer of a used inode. -/
theorem linkRoot {i r nb : Nat} {path : List Nat} (hb : Blocks L v)
    (hff : v.firstFree L = some nb) (hi : i < L.sb.inodeCount) (hu : v.used i = true) (hr : r < 15)
    (hleaf : path.length = ptrDepth (i, r)) (h0 : (v.ino i).ptr r = 0) :
    LinkStep L (i, r) [] path nb v
      ((v.take nb (!path.isEmpty)).setIno i ((v.ino i).setPtr r nb)) := by
  obtain ⟨hrange, hfree, hnb0, h32⟩ := firstFree_facts hff
  have hino : ∀ j, ((v.take nb (!path.isEmpty)).setIno i ((v.ino i).setPtr r nb)).ino j =
      if j = i then (v.ino i).setPtr r nb else v.ino j := by
    intro j
    rw [ino_setIno, take_ino]
  refine ⟨hff, ?_, List.nil_prefix, take_bit, take_used, take_cwd, take_boot,
    fun j hj => by rw [hino, if_neg hj], fun k hk => ?_, ?_⟩
  · refine
      { place := Forest.place_nil _
        empty := by rw [Forest.ptr_nil, forest_root hi hu hr, h0]
        parent := fun q k h => absurd h (by simp)
        ne_zero := hnb0
        fresh := fun y p hp => hb.fresh hfree y p hp hnb0
        root_self := fun _ => ?_
        root_other := ?_
        mem_self := fun q k h => absurd h (by simp)
        mem_other := fun c k hc _ => congrArg (Buf.get32 · _) (take_blk fun h => absurd h hc)
        mem_new := ?_ }
    · rw [forest_root hi (by simp [setIno, hu]) hr, hino, if_pos rfl,
        Inode.ptr_setPtr_same hr, h32]
    · rintro ⟨j, r'⟩ hne
      simp only [forest, hino, show ((v.take nb (!path.isEmpty)).setIno i _).used = v.used
        from take_used]
      by_cases hj : j = i
      · subst hj
        have hrr : r' ≠ r := fun h => hne ⟨by rw [h], rfl⟩
        rw [if_pos rfl, Inode.ptr_setPtr_ne hrr]
      · rw [if_neg hj]
    · intro hlen k _
      cases path with
      | nil => exact absurd (hleaf ▸ hlen) (Nat.lt_irrefl _)
      | cons => exact (congrArg (Buf.get32 · _) take_blk_self).trans (Buf.get32_zero _)
  · rw [hino, if_pos rfl, Inode.raw_setPtr hr hk]
  · intro c _ hcn
    refine take_blk fun h => ?_
    simp [← hcn h]

end Img

end Crusadia
