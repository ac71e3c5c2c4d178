import Crusadia.Lib.Mem
import Crusadia.Lib.Search

/-!
# Crusadia.Kernel.Pmm

The **physical memory manager** (`pmm.c`): one bit per 4 KiB frame, set when the frame
is in use.

The model keeps the bitmap in its 32-bit words, because the search tests whole words
first. Clients reason about `Pmm.free`, the set of frame numbers whose bit is clear:
`pmm_alloc_block` takes one element out of it and fails only when it is empty,
`pmm_free_block` puts one back.
-/

namespace Crusadia.Kernel

/-- `PMM_BLOCK_SIZE`. -/
abbrev PMM_BLOCK_SIZE : Nat := 4096

/-- `PMM_MAX_BLOCKS`. -/
abbrev PMM_MAX_BLOCKS : Nat := 1048576

/-- The static variables of `pmm.c`. The hint is a bit number of the bitmap, so that
the two passes of the search together cover the bitmap and nothing beyond it. -/
structure Pmm where
  /-- `pmm_bitmap` -/
  bitmap : Nat → BitVec 32
  /-- `pmm_used_blocks` -/
  usedBlocks : BitVec 32
  /-- `pmm_next_hint` -/
  nextHint : Fin PMM_MAX_BLOCKS

namespace Pmm

theorem zero_lt : 0 < PMM_MAX_BLOCKS := by decide

variable (p : Pmm)

/-- `bitmap_set` -/
def bitmapSet (bit : Nat) : Pmm :=
  { p with
    bitmap := Function.update p.bitmap (bit / 32)
      (p.bitmap (bit / 32) ||| (1#32 <<< (bit % 32))) }

/-- `bitmap_clear` -/
def bitmapClear (bit : Nat) : Pmm :=
  { p with
    bitmap := Function.update p.bitmap (bit / 32)
      (p.bitmap (bit / 32) &&& ~~~(1#32 <<< (bit % 32))) }

/-- `bitmap_test` -/
def bitmapTest (bit : Nat) : Bool :=
  p.bitmap (bit / 32) &&& (1#32 <<< (bit % 32)) != 0#32

theorem bitmapTest_eq (bit : Nat) :
    p.bitmapTest bit = (p.bitmap (bit / 32)).getLsbD (bit % 32) := by
  have hlt : bit % 32 < 32 := Nat.mod_lt _ (by decide)
  rw [bitmapTest, ← BitVec.twoPow_eq, BitVec.and_twoPow]
  cases (p.bitmap (bit / 32)).getLsbD (bit % 32) with
  | false => rfl
  | true =>
    rw [if_pos rfl, bne_iff_ne]
    intro h
    have := congrArg (fun w => w.getLsbD (bit % 32)) h
    simp [hlt] at this

@[simp] theorem bitmapTest_bitmapSet (b c : Nat) :
    (p.bitmapSet b).bitmapTest c = (decide (c = b) || p.bitmapTest c) := by
  have hb : b % 32 < 32 := Nat.mod_lt _ (by decide)
  rw [bitmapTest_eq, bitmapTest_eq, bitmapSet]
  by_cases hw : c / 32 = b / 32
  · have hbit : decide (b % 32 = c % 32) = decide (c = b) := by grind
    simp only [hw, Function.update_self, BitVec.getLsbD_or, ← BitVec.twoPow_eq,
      BitVec.getLsbD_twoPow, hb, decide_true, Bool.true_and, hbit]
    rw [Bool.or_comm]
  · have hne : c ≠ b := fun h => hw (h ▸ rfl)
    simp [hw, hne]

@[simp] theorem bitmapTest_bitmapClear (b c : Nat) :
    (p.bitmapClear b).bitmapTest c = (!decide (c = b) && p.bitmapTest c) := by
  have hb : b % 32 < 32 := Nat.mod_lt _ (by decide)
  have hc : c % 32 < 32 := Nat.mod_lt _ (by decide)
  rw [bitmapTest_eq, bitmapTest_eq, bitmapClear]
  by_cases hw : c / 32 = b / 32
  · have hbit : decide (b % 32 = c % 32) = decide (c = b) := by grind
    simp only [hw, Function.update_self, BitVec.getLsbD_and, BitVec.getLsbD_not,
      ← BitVec.twoPow_eq, BitVec.getLsbD_twoPow, hb, hc, decide_true, Bool.true_and, hbit]
    rw [Bool.and_comm]
  · have hne : c ≠ b := fun h => hw (h ▸ rfl)
    simp [hw, hne]

/-! ### Allocation -/

/-- The body of the search loop: the first clear bit of word `i`. -/
def searchWord (i : Nat) : Option Nat :=
  if p.bitmap i ≠ 0xFFFFFFFF#32 then
    (List.range' 0 32).findSome? fun j =>
      if !p.bitmapTest (i * 32 + j) then some (i * 32 + j) else none
  else none

/-- One pass of the search over the words `first .. last`. -/
def searchPass (first last : Nat) : Option Nat :=
  (List.range' first (last - first)).findSome? p.searchWord

/-- The bit `pmm_alloc_block` settles on: from the word of the hint to the end, then
from the start to that word. -/
def search : Option Nat :=
  let startWord := p.nextHint.val / 32
  (p.searchPass startWord (PMM_MAX_BLOCKS / 32)).or (p.searchPass 0 startWord)

variable {p : Pmm}

theorem searchWord_eq_some {i b : Nat} (h : p.searchWord i = some b) :
    b / 32 = i ∧ p.bitmapTest b = false := by
  unfold searchWord at h
  split at h
  · obtain ⟨j, hj, hb⟩ := List.exists_of_findSome?_eq_some h
    have hlt := (List.mem_range'_1.mp hj).2
    cases ht : p.bitmapTest (i * 32 + j) with
    | true => simp [ht] at hb
    | false =>
      simp only [ht, Bool.not_false, if_true, Option.some.injEq] at hb
      rw [← hb]
      exact ⟨by omega, ht⟩
  · simp at h

/-- A word with a clear bit is not all ones, so the inner loop looks at it. -/
theorem searchWord_eq_none {i : Nat} (h : p.searchWord i = none) (b : Nat) (hb : b / 32 = i) :
    p.bitmapTest b = true := by
  unfold searchWord at h
  split at h
  · rw [List.findSome?_eq_none_iff] at h
    have := h (b % 32) (List.mem_range'_1.mpr (by omega))
    rw [show i * 32 + b % 32 = b by omega] at this
    cases ht : p.bitmapTest b with
    | true => rfl
    | false => simp [ht] at this
  · rename_i hw
    rw [not_not] at hw
    have hlt : b % 32 < 32 := Nat.mod_lt _ (by decide)
    have hones : ∀ k, k < 32 → (0xFFFFFFFF#32).getLsbD k = true := by decide
    rw [bitmapTest_eq, hb, hw]
    exact hones _ hlt

theorem searchPass_eq_some {first last b : Nat} (h : p.searchPass first last = some b) :
    b / 32 < last ∧ p.bitmapTest b = false := by
  obtain ⟨i, hi, hb⟩ := List.exists_of_findSome?_eq_some h
  have hlt := List.mem_range'_1.mp hi
  have := searchWord_eq_some hb
  exact ⟨by omega, this.2⟩

theorem search_eq_some {b : Nat} (h : p.search = some b) :
    b < PMM_MAX_BLOCKS ∧ p.bitmapTest b = false := by
  have hhint := p.nextHint.isLt
  unfold search at h
  rcases Option.or_eq_some_iff.mp h with h | ⟨-, h⟩
  · have := searchPass_eq_some h
    exact ⟨by omega, this.2⟩
  · have := searchPass_eq_some h
    exact ⟨by omega, this.2⟩

theorem search_eq_none (h : p.search = none) (b : Nat) (hb : b < PMM_MAX_BLOCKS) :
    p.bitmapTest b = true := by
  have hhint := p.nextHint.isLt
  unfold search searchPass at h
  simp only [Option.or_eq_none_iff, List.findSome?_eq_none_iff, List.mem_range'_1] at h
  have hmax : PMM_MAX_BLOCKS = 1048576 := rfl
  -- the two passes cover every word
  by_cases hw : p.nextHint.val / 32 ≤ b / 32
  · exact searchWord_eq_none (h.1 (b / 32) ⟨hw, by omega⟩) b rfl
  · exact searchWord_eq_none (h.2 (b / 32) ⟨by omega, by omega⟩) b rfl

/-- The state after bit `b` has been handed out. -/
def take (p : Pmm) (b : Nat) (hb : b < PMM_MAX_BLOCKS) : Pmm :=
  { p.bitmapSet b with usedBlocks := p.usedBlocks + 1, nextHint := ⟨b, hb⟩ }

/-- `pmm_alloc_block`: the address of the frame, and `0` when none is free. -/
def allocBlock (p : Pmm) : Nat × Pmm :=
  match h : p.search with
  | some b => (b * PMM_BLOCK_SIZE, p.take b (search_eq_some h).1)
  | none => (0, p)

/-- `pmm_free_block` -/
def freeBlock (p : Pmm) (addr : Nat) : Pmm :=
  let block := addr / PMM_BLOCK_SIZE
  if h : block < PMM_MAX_BLOCKS then
    if !p.bitmapTest block then p
    else
      { p.bitmapClear block with
        usedBlocks := if p.usedBlocks > 0 then p.usedBlocks - 1 else p.usedBlocks
        nextHint := if block < p.nextHint.val then ⟨block, h⟩ else p.nextHint }
  else p

/-! ### The set of free frames -/

/-- The frame numbers whose bit is clear. -/
def free (p : Pmm) : Finset Nat :=
  (Finset.range PMM_MAX_BLOCKS).filter fun f => p.bitmapTest f = false

theorem mem_free {f : Nat} :
    f ∈ p.free ↔ f < PMM_MAX_BLOCKS ∧ p.bitmapTest f = false := by
  rw [free, Finset.mem_filter, Finset.mem_range]

theorem free_take (p : Pmm) (b : Nat) (hb : b < PMM_MAX_BLOCKS) :
    (p.take b hb).free = p.free.erase b := by
  ext f
  have htest : (p.take b hb).bitmapTest f = _ := bitmapTest_bitmapSet p b f
  rw [mem_free, Finset.mem_erase, mem_free, htest]
  by_cases h : f = b <;> simp [h]

/-- The frame the next call of `pmm_alloc_block` hands out. -/
def next (p : Pmm) : Option Nat := p.search

theorem next_eq_none_iff : p.next = none ↔ p.free = ∅ := by
  constructor
  · intro h
    rw [Finset.eq_empty_iff_forall_notMem]
    intro f hf
    rw [mem_free] at hf
    simp [search_eq_none h f hf.1] at hf
  · intro h
    rw [Option.eq_none_iff_forall_ne_some]
    intro b hb
    exact Finset.notMem_empty b (h ▸ mem_free.mpr (search_eq_some hb))

theorem next_mem {f : Nat} (h : p.next = some f) : f ∈ p.free :=
  mem_free.mpr (search_eq_some h)

/-- What a call of `pmm_alloc_block` does, by whether a frame is free. -/
@[elab_as_elim] theorem allocBlock_cases (p : Pmm) {motive : Nat × Pmm → Prop}
    (none : p.free = ∅ → motive (0, p))
    (some : ∀ f p', p.next = some f → f ∈ p.free → p'.free = p.free.erase f →
      motive (f * PMM_BLOCK_SIZE, p')) : motive p.allocBlock := by
  unfold allocBlock
  split
  · rename_i b hb
    exact some b _ hb (next_mem hb) (free_take _ _ _)
  · rename_i hb
    exact none (next_eq_none_iff.mp hb)

theorem bitmapTest_freeBlock {addr c : Nat} (hlt : addr / PMM_BLOCK_SIZE < PMM_MAX_BLOCKS) :
    (p.freeBlock addr).bitmapTest c = (!decide (c = addr / PMM_BLOCK_SIZE) && p.bitmapTest c) := by
  unfold freeBlock
  dsimp only
  rw [dif_pos hlt]
  split
  · rename_i ht
    by_cases hc : c = addr / PMM_BLOCK_SIZE
    · subst hc
      simpa using ht
    · simp [hc]
  · exact bitmapTest_bitmapClear p _ c

/-- Freeing a frame puts it in the free set, and is harmless when it is there. -/
theorem free_freeBlock {addr : Nat} (hlt : addr < 2 ^ 32) :
    (p.freeBlock addr).free = insert (addr / PMM_BLOCK_SIZE) p.free := by
  have hblock : addr / PMM_BLOCK_SIZE < PMM_MAX_BLOCKS := by
    unfold PMM_BLOCK_SIZE PMM_MAX_BLOCKS
    omega
  ext g
  rw [mem_free, Finset.mem_insert, mem_free, bitmapTest_freeBlock hblock]
  by_cases h : g = addr / PMM_BLOCK_SIZE
  · simp [h, hblock]
  · simp [h]

/-! ### Regions -/

/-- `pmm_init`: every frame is in use until the memory map says otherwise. -/
def init (p : Pmm) : Pmm :=
  { p with bitmap := fun _ => 0xFFFFFFFF#32, usedBlocks := BitVec.ofNat 32 PMM_MAX_BLOCKS }

/-- The loop of `pmm_init_region`, `n` frames from `bit` on. -/
def initBlocks : Nat → Nat → Pmm → Pmm
  | 0, _, p => p
  | n + 1, bit, p =>
    if bit ≥ PMM_MAX_BLOCKS then p
    else
      initBlocks n (bit + 1)
        (if p.bitmapTest bit then { p.bitmapClear bit with usedBlocks := p.usedBlocks - 1 }
          else p)

/-- The loop of `pmm_deinit_region`, `n` frames from `bit` on. -/
def deinitBlocks : Nat → Nat → Pmm → Pmm
  | 0, _, p => p
  | n + 1, bit, p =>
    if bit ≥ PMM_MAX_BLOCKS then p
    else
      deinitBlocks n (bit + 1)
        (if !p.bitmapTest bit then { p.bitmapSet bit with usedBlocks := p.usedBlocks + 1 }
          else p)

/-- `pmm_init_region`. Frame 0 is taken back whatever the region is. -/
def initRegion (p : Pmm) (baseAddr size : Nat) : Pmm :=
  (initBlocks (size / PMM_BLOCK_SIZE) (baseAddr / PMM_BLOCK_SIZE) p).bitmapSet 0

/-- `pmm_deinit_region` -/
def deinitRegion (p : Pmm) (baseAddr size : Nat) : Pmm :=
  deinitBlocks (size / PMM_BLOCK_SIZE) (baseAddr / PMM_BLOCK_SIZE) p

theorem free_init (p : Pmm) : p.init.free = ∅ := by
  have hones : ∀ k, k < 32 → (0xFFFFFFFF#32).getLsbD k = true := by decide
  rw [Finset.eq_empty_iff_forall_notMem]
  intro f hf
  have h := (mem_free.mp hf).2
  rw [bitmapTest_eq, init, hones _ (Nat.mod_lt _ (by decide))] at h
  exact absurd h (by decide)

theorem mem_free_initBlocks (n bit : Nat) (p : Pmm) (f : Nat) :
    f ∈ (initBlocks n bit p).free ↔
      f ∈ p.free ∨ f < PMM_MAX_BLOCKS ∧ bit ≤ f ∧ f < bit + n := by
  induction n generalizing bit p with
  | zero => simp [initBlocks]
  | succ n ih =>
    rw [initBlocks]
    split
    · exact (or_iff_left (by omega)).symm
    · rename_i hbit
      rw [ih, mem_free, mem_free]
      have htest : (if p.bitmapTest bit then
          ({ p.bitmapClear bit with usedBlocks := p.usedBlocks - 1 } : Pmm) else p).bitmapTest f =
          (!decide (f = bit) && p.bitmapTest f) := by
        split
        · exact bitmapTest_bitmapClear p bit f
        · rename_i ht
          by_cases hf : f = bit <;> simp_all
      rw [htest]
      by_cases hf : f = bit
      · simp [hf]
        omega
      · have hrange : bit + 1 ≤ f ∧ f < bit + 1 + n ↔ bit ≤ f ∧ f < bit + (n + 1) := by omega
        simp only [hf, hrange, decide_false, Bool.not_false, Bool.true_and]

theorem mem_free_deinitBlocks (n bit : Nat) (p : Pmm) (f : Nat) :
    f ∈ (deinitBlocks n bit p).free ↔ f ∈ p.free ∧ ¬ (bit ≤ f ∧ f < bit + n) := by
  induction n generalizing bit p with
  | zero => simp [deinitBlocks]
  | succ n ih =>
    rw [deinitBlocks]
    split
    · rename_i hbit
      have : f ∈ p.free → f < PMM_MAX_BLOCKS := fun h => (mem_free.mp h).1
      constructor
      · exact fun h => ⟨h, by have := this h; omega⟩
      · exact And.left
    · rename_i hbit
      rw [ih, mem_free, mem_free]
      have htest : (if !p.bitmapTest bit then
          ({ p.bitmapSet bit with usedBlocks := p.usedBlocks + 1 } : Pmm) else p).bitmapTest f =
          (decide (f = bit) || p.bitmapTest f) := by
        split
        · exact bitmapTest_bitmapSet p bit f
        · rename_i ht
          by_cases hf : f = bit <;> simp_all
      rw [htest]
      by_cases hf : f = bit
      · simp [hf]
      · have hrange : bit + 1 ≤ f ∧ f < bit + 1 + n ↔ bit ≤ f ∧ f < bit + (n + 1) := by omega
        simp only [hf, hrange, decide_false, Bool.false_or]

theorem mem_free_initRegion (p : Pmm) (base size f : Nat) :
    f ∈ (p.initRegion base size).free ↔
      f ≠ 0 ∧ (f ∈ p.free ∨ f < PMM_MAX_BLOCKS ∧ base / PMM_BLOCK_SIZE ≤ f ∧
        f < base / PMM_BLOCK_SIZE + size / PMM_BLOCK_SIZE) := by
  rw [initRegion, mem_free, bitmapTest_bitmapSet, ← mem_free_initBlocks, mem_free]
  by_cases hf : f = 0 <;> simp [hf]

theorem mem_free_deinitRegion (p : Pmm) (base size f : Nat) :
    f ∈ (p.deinitRegion base size).free ↔
      f ∈ p.free ∧ ¬ (base / PMM_BLOCK_SIZE ≤ f ∧
        f < base / PMM_BLOCK_SIZE + size / PMM_BLOCK_SIZE) :=
  mem_free_deinitBlocks _ _ _ _

end Pmm

end Crusadia.Kernel
