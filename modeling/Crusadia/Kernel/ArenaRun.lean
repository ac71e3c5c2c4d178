import Crusadia.Kernel.ArenaCalls
import Crusadia.Kernel.Slots
import Mathlib.Order.CompletePartialOrder

/-!
# Crusadia.Kernel.ArenaRun

Whole **runs of a heap arena**: any calls in any order, and whatever the rest of the kernel
does in between.

The rest of the kernel may change every byte and every frame that is not the arena's: it
owns what was handed out and it shares the bitmap. It must leave the frames of the arena
marked as used and the bytes alone that are in no live allocation; that nobody else uses a
frame `pmm_alloc_block` has returned is all the arena relies on.
-/

namespace Crusadia.Kernel

/-- An arena in a run: what it is made of, the frames `grow_heap` kept, and for each live
pointer the size that was asked for. -/
structure HeapSt where
  arena : Arena
  k : State
  kept : Finset Nat
  live : Nat → Option Nat

inductive HeapOp
  | alloc (size : Nat) (owner : Int)
  | calloc (nmemb size : Nat) (owner : Int)
  | realloc (ptr size : Nat) (owner : Int)
  | free (ptr : Nat)
  /-- anybody else -/
  | other (k' : State)

namespace HeapSt

/-- The bytes behind the pointer `p`. -/
def payload (σ : HeapSt) (p : Nat) : Set Nat := Set.Ico p (p + Hdr.size σ.k.mem (headerOf p))

/-- Frees and reallocs are made on live pointers; others keep to what is theirs. -/
def Allowed (σ : HeapSt) : HeapOp → Prop
  | .alloc .. | .calloc .. => True
  | .realloc ptr .. | .free ptr => (σ.live ptr).isSome
  | .other k' => Disjoint σ.kept k'.pmm.free ∧
      ∀ x, x / 4096 ∈ σ.kept → (∀ p n, σ.live p = some n → x ∉ σ.payload p) → k'.mem x = σ.k.mem x

/-- The state after a call: the frames it took from the bitmap are the arena's. -/
def after (σ : HeapSt) (a' : Arena) (k' : State) (live : Nat → Option Nat) : HeapSt :=
  ⟨a', k', σ.kept ∪ taken σ.k k', live⟩

/-- One call, with what it returns. -/
def step (σ : HeapSt) : HeapOp → Nat × HeapSt
  | .alloc size owner =>
    let (p, a', k') := heapArenaAlloc σ.arena σ.k size owner
    (p, σ.after a' k' (if p = 0 then σ.live else Function.update σ.live p (some size)))
  | .calloc nmemb size owner =>
    let (p, a', k') := heapArenaCalloc σ.arena σ.k nmemb size owner
    (p, σ.after a' k' (if p = 0 then σ.live else Function.update σ.live p (some (nmemb * size))))
  | .realloc ptr size owner =>
    let (p, a', k') := heapArenaRealloc σ.arena σ.k ptr size owner
    (p, σ.after a' k'
      (if size = 0 then Function.update σ.live ptr none
      else if p = 0 then σ.live
      else Function.update (Function.update σ.live ptr none) p (some size)))
  | .free ptr =>
    let (a', k') := heapArenaFree σ.arena σ.k ptr
    (0, σ.after a' k' (Function.update σ.live ptr none))
  | .other k' => (0, { σ with k := k' })

/-- A fresh arena. -/
def init (k : State) : HeapSt := ⟨heapArenaInit, k, ∅, fun _ => none⟩

/-- The states of all runs that begin in `k`. -/
inductive Run (k : State) : HeapSt → Prop
  | init : Run k (init k)
  | step {σ : HeapSt} (h : Run k σ) (op : HeapOp) (hop : σ.Allowed op) : Run k (σ.step op).2

/-! ### The invariant -/

/-- Live pointers point to blocks of `U` that are large enough. -/
def LiveIn (live : Nat → Option Nat) (U : Set Blk) : Prop :=
  ∀ p n, live p = some n → ∃ b ∈ U, p = b.addr + 24 ∧ n ≤ b.size

variable {live : Nat → Option Nat}

theorem LiveIn.insert {U : Set Blk} {p n : Nat} {new : Blk} (h : LiveIn live U)
    (hp : p = new.addr + 24) (hn : n ≤ new.size) :
    LiveIn (Function.update live p (some n)) (insert new U) := by
  intro q i hq
  by_cases hqp : q = p
  · rw [hqp, Function.update_self, Option.some.injEq] at hq
    exact ⟨new, Set.mem_insert _ _, hqp.trans hp, hq ▸ hn⟩
  · rw [Function.update_of_ne hqp] at hq
    obtain ⟨b, hb, hrest⟩ := h q i hq
    exact ⟨b, Set.mem_insert_of_mem _ hb, hrest⟩

theorem LiveIn.erase {U : Set Blk} {b : Blk} (h : LiveIn live U) :
    LiveIn (Function.update live (b.addr + 24) none) (U \ {b}) := by
  intro q i hq
  have hne : q ≠ b.addr + 24 := fun heq => by simp [heq] at hq
  rw [Function.update_of_ne hne] at hq
  obtain ⟨c, hc, hqc, hi⟩ := h q i hq
  exact ⟨c, ⟨hc, fun hcb => hne (by rw [hqc, hcb])⟩, hqc, hi⟩

/-- The arena is the list `bs`, and live pointers point into it. -/
structure Rel (σ : HeapSt) (bs : List Blk) : Prop where
  wf : σ.arena.Wf σ.k.mem σ.kept bs
  kept : Disjoint σ.kept σ.k.pmm.free
  live : LiveIn σ.live (used bs)

variable {σ : HeapSt} {bs bs' : List Blk} {k : State}

theorem Rel.init (k : State) : (init k).Rel [] where
  wf := ⟨trivial, rfl, rfl, by simp, List.Pairwise.nil, rfl⟩
  kept := Finset.disjoint_empty_left _
  live p n h := by simp [HeapSt.init] at h

section

variable (h : σ.Rel bs)
include h

/-- After a call that gave no frame back. -/
theorem Rel.after {a' : Arena} {k' : State}
    (hwf : a'.Wf k'.mem (σ.kept ∪ taken σ.k k') bs') (hsub : k'.pmm.free ⊆ σ.k.pmm.free)
    (hlive : LiveIn live (used bs')) : (σ.after a' k' live).Rel bs' where
  wf := hwf
  kept := by
    refine Finset.disjoint_union_left.mpr ⟨Finset.disjoint_of_subset_right hsub h.kept, ?_⟩
    exact Finset.disjoint_of_subset_left (Finset.erase_subset _ _) Finset.sdiff_disjoint
  live := hlive

/-- The block behind a live pointer. -/
theorem Rel.block {p : Nat} (hp : (σ.live p).isSome) : ∃ b ∈ used bs, p = b.addr + 24 := by
  obtain ⟨n, hn⟩ := Option.isSome_iff_exists.mp hp
  obtain ⟨b, hb, heq, -⟩ := h.live p n hn
  exact ⟨b, hb, heq⟩

theorem Rel.alloc (size : Nat) (owner : Int) : ∃ bs', (σ.step (.alloc size owner)).2.Rel bs' := by
  obtain ⟨halloc, hsub⟩ := h.wf.heapArenaAlloc h.kept size owner
  rw [step]
  generalize heapArenaAlloc σ.arena σ.k size owner = s at halloc hsub
  obtain ⟨p, a', k'⟩ := s
  dsimp only at halloc hsub ⊢
  cases halloc with
  | refused href => exact ⟨_, h.after href.wf hsub (by rw [if_pos rfl, href.used]; exact h.live)⟩
  | given hgiven =>
    refine ⟨_, h.after hgiven.wf hsub ?_⟩
    rw [if_neg (by rw [hgiven.ptr]; omega), hgiven.used]
    exact h.live.insert hgiven.ptr hgiven.size

theorem Rel.calloc (nmemb size : Nat) (owner : Int) :
    ∃ bs', (σ.step (.calloc nmemb size owner)).2.Rel bs' := by
  have hsame : (σ.after σ.arena σ.k σ.live).Rel bs :=
    h.after (by rw [union_taken rfl]; exact h.wf) (Finset.Subset.refl _) h.live
  rw [step]
  unfold heapArenaCalloc
  by_cases hzero : nmemb = 0 ∨ size = 0
  · rw [if_pos hzero]
    exact ⟨bs, hsame⟩
  by_cases hbig : nmemb > SIZE_MAX_LOCAL / size
  · rw [if_neg hzero, if_pos hbig]
    exact ⟨bs, hsame⟩
  rw [if_neg hzero, if_neg hbig]
  obtain ⟨halloc, hsub⟩ := h.wf.heapArenaAlloc h.kept (nmemb * size) owner
  dsimp only
  generalize heapArenaAlloc σ.arena σ.k (nmemb * size) owner = s at halloc hsub
  obtain ⟨p, a', k'⟩ := s
  dsimp only at halloc hsub ⊢
  cases halloc with
  | refused href =>
    rw [if_neg (by simp)]
    exact ⟨_, h.after href.wf hsub (by rw [if_pos rfl, href.used]; exact h.live)⟩
  | given hgiven =>
    have hp : p ≠ 0 := by
      rw [hgiven.ptr]
      omega
    rw [if_pos hp]
    refine ⟨_, h.after hgiven.fill hsub ?_⟩
    rw [if_neg hp, hgiven.used]
    exact h.live.insert hgiven.ptr hgiven.size

theorem Rel.realloc {ptr : Nat} (hptr : (σ.live ptr).isSome) (size : Nat)
    (owner : Int) : ∃ bs', (σ.step (.realloc ptr size owner)).2.Rel bs' := by
  obtain ⟨b, hb, rfl⟩ := h.block hptr
  obtain ⟨hre, hsub⟩ := h.wf.heapArenaRealloc h.kept hb size owner
  rw [step]
  generalize heapArenaRealloc σ.arena σ.k (b.addr + 24) size owner = s at hre hsub
  obtain ⟨p, a', k'⟩ := s
  dsimp only at hre hsub ⊢
  cases hre with
  | freed hz hwf hused =>
    refine ⟨_, h.after hwf hsub ?_⟩
    rw [if_pos hz, hused]
    exact h.live.erase
  | refused hz href =>
    refine ⟨_, h.after href.wf hsub ?_⟩
    rw [if_neg hz, if_pos rfl, href.used]
    exact h.live
  | moved hz hwf hp hnew hused hbytes =>
    refine ⟨_, h.after hwf hsub ?_⟩
    rw [if_neg hz, if_neg (by rw [hp]; omega), hused]
    exact h.live.erase.insert hp hnew

theorem Rel.free {ptr : Nat} (hptr : (σ.live ptr).isSome) :
    ∃ bs', (σ.step (.free ptr)).2.Rel bs' := by
  obtain ⟨b, hb, rfl⟩ := h.block hptr
  obtain ⟨bs', hwf, -, hused⟩ := h.wf.heapArenaFree hb
  have hpmm := pmm_heapArenaFree σ.arena σ.k (b.addr + 24)
  rw [step]
  generalize heapArenaFree σ.arena σ.k (b.addr + 24) = s at hwf hpmm
  obtain ⟨a', k'⟩ := s
  dsimp only at hwf hpmm ⊢
  refine ⟨bs', h.after (by rwa [union_taken hpmm]) (by rw [hpmm]) ?_⟩
  rw [hused]
  exact h.live.erase

/-- The headers of the arena are nobody else's. -/
theorem Rel.other {k' : State} (hop : σ.Allowed (.other k')) : (σ.step (.other k')).2.Rel bs where
  wf := by
    refine h.wf.store fun c hc x h1 h2 => hop.2 x ?_ fun p n hp hx => ?_
    · exact (h.wf.ok c hc).inside x h1 (by unfold Blk.stop; omega)
    · -- a byte of a header is in no payload
      obtain ⟨b, hb, rfl, -⟩ := h.live p n hp
      unfold payload at hx
      rw [headerOf_add, h.wf.size_eq hb.1] at hx
      have hoff := (h.wf.quiet_payload hb hx.1 (by have := hx.2; unfold Blk.stop; omega) c hc).1
      unfold Off at hoff
      omega
  kept := hop.1
  live := h.live

theorem Rel.step {op : HeapOp} (hop : σ.Allowed op) : ∃ bs', (σ.step op).2.Rel bs' := by
  cases op with
  | alloc size owner => exact h.alloc size owner
  | calloc nmemb size owner => exact h.calloc nmemb size owner
  | realloc ptr size owner => exact h.realloc hop size owner
  | free ptr => exact h.free hop
  | other k' => exact ⟨bs, h.other hop⟩

end

theorem Run.rel (h : Run k σ) : ∃ bs, σ.Rel bs := by
  induction h with
  | init => exact ⟨[], Rel.init k⟩
  | step _ op hop ih =>
    obtain ⟨bs, hrel⟩ := ih
    exact hrel.step hop

/-! ### What a client sees -/

/-- The list `bs` describes the arena: it is linked from head to tail in both directions,
takes up the frames that `grow_heap` kept, and live allocations are its blocks. -/
structure Sound (σ : HeapSt) (bs : List Blk) : Prop where
  linked : Linked.Seg Blk.addr (At σ.k.mem) 0 bs 0
  head : σ.arena.head = Linked.first Blk.addr 0 bs
  tail : σ.arena.tail = Linked.last Blk.addr 0 bs
  total : bytes bs = 4096 * σ.kept.card
  live : ∀ p n, σ.live p = some n → p % 8 = 0 ∧ n ≤ Hdr.size σ.k.mem (headerOf p) ∧
    ∃ b ∈ bs, b.free = false ∧ p = b.addr + HEADER_SIZE
  apart : ∀ p q, (σ.live p).isSome → (σ.live q).isSome → p ≠ q →
    Disjoint (σ.payload p) (σ.payload q)
  headers : ∀ p, (σ.live p).isSome → ∀ c ∈ bs,
    Disjoint (σ.payload p) (Set.Ico c.addr (c.addr + HEADER_SIZE))

/-- A realloc keeps the bytes that both sizes have; one that fails changes nothing. To ask
for no bytes is to free. -/
structure ReallocSound (σ : HeapSt) (p size : Nat) (owner : Int) : Prop where
  bytes : (σ.step (.realloc p size owner)).1 ≠ 0 →
    SameBytes σ.k.mem p (σ.step (.realloc p size owner)).2.k.mem
      (σ.step (.realloc p size owner)).1 (min (Hdr.size σ.k.mem (headerOf p)) size)
  fails : (σ.step (.realloc p size owner)).1 = 0 → size ≠ 0 →
    (σ.step (.realloc p size owner)).2.live = σ.live ∧
    (σ.step (.realloc p size owner)).2.payload p = σ.payload p ∧
    ∀ x ∈ σ.payload p, (σ.step (.realloc p size owner)).2.k.mem x = σ.k.mem x

theorem Rel.size_eq (h : σ.Rel bs) {b : Blk} (hb : b ∈ bs) :
    Hdr.size σ.k.mem (headerOf (b.addr + 24)) = b.size := by
  rw [headerOf_add, h.wf.size_eq hb]

theorem Rel.payload_eq (h : σ.Rel bs) {b : Blk} (hb : b ∈ bs) :
    σ.payload (b.addr + 24) = Set.Ico (b.addr + 24) (b.stop 24) := by
  unfold payload Blk.stop
  rw [h.size_eq hb]

theorem Rel.sound (h : σ.Rel bs) : σ.Sound bs where
  linked := h.wf.linked
  head := h.wf.head
  tail := h.wf.tail
  total := h.wf.total
  live p n hp := by
    obtain ⟨b, hb, rfl, hn⟩ := h.live p n hp
    have hal := (h.wf.ok b hb.1).align
    rw [h.size_eq hb.1]
    exact ⟨by omega, hn, b, hb.1, hb.2, rfl⟩
  apart p q hp hq hne := by
    obtain ⟨b, hb, rfl⟩ := h.block hp
    obtain ⟨c, hc, rfl⟩ := h.block hq
    have hbc : b ≠ c := fun heq => hne (by rw [heq])
    have hsep := h.wf.sep.forall hb.1 hc.1 hbc
    rw [h.payload_eq hb.1, h.payload_eq hc.1]
    refine Set.disjoint_left.mpr fun x hx hx' => ?_
    have h1 := hx.1
    have h2 := hx.2
    have h3 := hx'.1
    have h4 := hx'.2
    unfold Blk.Sep at hsep
    omega
  headers p hp c hc := by
    obtain ⟨b, hb, rfl⟩ := h.block hp
    rw [h.payload_eq hb.1]
    refine Set.disjoint_left.mpr fun x hx hx' => ?_
    have hoff := (h.wf.quiet_payload hb hx.1 hx.2 c hc).1
    have h1 : c.addr ≤ x := hx'.1
    have h2 : x < c.addr + 24 := hx'.2
    unfold Off at hoff
    omega

theorem live_realloc (σ : HeapSt) (p size : Nat) (owner : Int) :
    (σ.step (.realloc p size owner)).2.live =
      if size = 0 then Function.update σ.live p none
      else if (σ.step (.realloc p size owner)).1 = 0 then σ.live
      else Function.update (Function.update σ.live p none) (σ.step (.realloc p size owner)).1
        (some size) := by
  rw [step]
  rfl

theorem Rel.reallocSound (h : σ.Rel bs) {p : Nat} (hp : (σ.live p).isSome) (size : Nat)
    (owner : Int) : σ.ReallocSound p size owner := by
  obtain ⟨b, hb, rfl⟩ := h.block hp
  obtain ⟨hre, -⟩ := h.wf.heapArenaRealloc h.kept hb size owner
  have hsize := h.size_eq hb.1
  have hpay := h.payload_eq hb.1
  suffices hsuff : ∀ s : Nat × Arena × State, Realloc σ.kept bs σ.k b size s.1 s.2.1 s.2.2 →
      (s.1 ≠ 0 → SameBytes σ.k.mem (b.addr + 24) s.2.2.mem s.1 (min b.size size)) ∧
      (s.1 = 0 → size ≠ 0 → Hdr.size s.2.2.mem b.addr = b.size ∧
        ∀ x ∈ σ.payload (b.addr + 24), s.2.2.mem x = σ.k.mem x) by
    obtain ⟨hbytes, hfails⟩ := hsuff _ hre
    refine ⟨fun hne => ?_, fun hz hsz => ?_⟩
    · rw [hsize]
      exact hbytes hne
    · obtain ⟨hs, hx⟩ := hfails hz hsz
      refine ⟨?_, ?_, hx⟩
      · rw [live_realloc, if_neg hsz, if_pos hz]
      · unfold payload
        rw [hsize, headerOf_add]
        exact congrArg (fun n => Set.Ico (b.addr + 24) (b.addr + 24 + n)) hs
  rintro ⟨q, a', k'⟩ hres
  cases hres with
  | freed hz hwf hused => exact ⟨fun hne => absurd rfl hne, fun _ hsz => absurd hz hsz⟩
  | refused hz href =>
    have hb' : b ∈ used _ := href.used ▸ hb
    refine ⟨fun hne => absurd rfl hne, fun _ _ => ⟨href.wf.size_eq hb'.1, fun x hx => ?_⟩⟩
    rw [hpay] at hx
    exact href.keeps x (href.wf.quiet_payload hb' hx.1 hx.2)
  | moved hz hwf hptr hnew hused hbytes =>
    exact ⟨fun _ => hbytes, fun hq => absurd (hptr.symm.trans hq) (by omega)⟩

/-- In every run the arena is sound, and so is every realloc of a live pointer. -/
theorem heap_arena_sound (h : Run k σ) : (∃ bs, σ.Sound bs) ∧
    ∀ p size owner, (σ.live p).isSome → σ.ReallocSound p size owner := by
  obtain ⟨bs, hrel⟩ := h.rel
  exact ⟨⟨bs, hrel.sound⟩, fun p size owner hp => hrel.reallocSound hp size owner⟩

/-- Two blocks are allocated. -/
def twoBlocks : HeapSt :=
  (((init Slots.freshState).step (.alloc 10 (-1))).2.step (.alloc 20 (-1))).2

/-- The first of them grows, for which it has to move, and the second is freed. -/
theorem heap_arena_sound_moved :
    let r := twoBlocks.step (.realloc 4120 5000 (-1))
    let σ := (r.2.step (.free 4160)).2
    Run Slots.freshState σ ∧ r.1 = 8216 ∧ σ.live 8216 = some 5000 ∧ σ.live 4160 = none ∧
      (∃ bs, σ.Sound bs) ∧ twoBlocks.ReallocSound 4120 5000 (-1) := by
  have hrun : Run Slots.freshState twoBlocks :=
    (Run.init.step (.alloc 10 (-1)) trivial).step (.alloc 20 (-1)) trivial
  have hlive : (twoBlocks.live 4120).isSome := by decide +kernel
  have hfreed := (hrun.step (.realloc 4120 5000 (-1)) hlive).step (.free 4160)
    (by change Option.isSome _ = true; decide +kernel)
  exact ⟨hfreed, by decide +kernel, by decide +kernel, by decide +kernel,
    (heap_arena_sound hfreed).1, (heap_arena_sound hrun).2 4120 5000 (-1) hlive⟩

end HeapSt

end Crusadia.Kernel
