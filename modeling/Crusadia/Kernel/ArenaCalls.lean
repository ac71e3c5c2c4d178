import Crusadia.Kernel.Arena

/-!
# Crusadia.Kernel.ArenaCalls

The **calls of a heap arena**: `heap_arena_alloc`, `heap_arena_calloc`,
`heap_arena_realloc` and `heap_arena_free`.

Each call is described by what it does to the set of blocks that are handed out (`used`):
an allocation adds one, a free removes one, and bytes that belong to the owner of a block
are never touched (`Keeps`). `grow_heap` adds frames that were free, so they cannot meet
a block of the arena.
-/

namespace Crusadia.Kernel

open Hdr

variable {a : Arena} {m m' : Mem} {kept : Finset Nat} {b c : Blk} {l r bs : List Blk} {k : State}
  {size ptr : Nat} {g n : Nat}

/-! ### What belongs to an owner -/

section

variable (h : a.Wf m kept bs)
include h

theorem Arena.Wf.quiet_payload (hb : b ∈ used bs) {x : Nat}
    (h1 : b.addr + 24 ≤ x) (h2 : x < b.stop 24) : Quiet bs x := by
  intro c hc
  by_cases heq : c = b
  · subst heq
    refine ⟨Or.inr h1, fun hf => ?_⟩
    rw [hb.2] at hf
    simp at hf
  · have := h.sep.forall hc hb.1 heq
    unfold Blk.Sep Blk.stop at *
    unfold Off
    omega

/-- Blocks that are handed out are told apart by their addresses. -/
theorem Arena.Wf.eq_of_addr (hb : b ∈ bs) (hc : c ∈ bs)
    (heq : c.addr = b.addr) : c = b := by
  by_contra hne
  exact (apart_of_sep (h.sep.forall hb hc (Ne.symm hne))).2 heq

/-- Stores that leave the headers alone. -/
theorem Arena.Wf.store (hm : ∀ c ∈ bs, ∀ x, c.addr ≤ x → x < c.addr + 24 → m' x = m x) :
    a.Wf m' kept bs :=
  ⟨seg_congr h.linked fun c hc => hdr_congr fun x h1 h2 => hm c hc x h1 h2, h.head, h.tail, h.ok,
    h.sep, h.total⟩

/-- Stores into the bytes of a block. -/
theorem Arena.Wf.store_payload (hb : b ∈ bs)
    (hm : ∀ x, x < b.addr + 24 ∨ b.stop 24 ≤ x → m' x = m x) : a.Wf m' kept bs := by
  refine h.store fun c hc x h1 h2 => hm x ?_
  by_cases hcb : c = b
  · subst hcb
    omega
  · have := h.sep.forall hc hb hcb
    unfold Blk.Sep Blk.stop at *
    omega

theorem Arena.Wf.size_eq (hb : b ∈ bs) : Hdr.size m b.addr = b.size := by
  obtain ⟨_, _, hat⟩ := h.linked.node hb
  exact At.fields hat |>.2.1

end

/-! ### The search -/

theorem findFit_block {cur : Nat} (h : a.Wf m kept (l ++ r))
    (hfit : findFit m size n (Linked.first Blk.addr 0 r) = .block cur) :
    ∃ l' b r', l ++ r = l' ++ b :: r' ∧ b.addr = cur ∧ b.free = true ∧ size ≤ b.size := by
  induction n generalizing l r with
  | zero =>
    unfold findFit at hfit
    split at hfit <;> simp at hfit
  | succ n ih =>
    cases r with
    | nil => simp [findFit] at hfit
    | cons c r =>
      obtain ⟨-, hsize, hfree, hnext, -⟩ := h.cut.2.1.fields
      rw [Linked.first_cons, findFit, if_neg h.addr_ne, hfree, hsize, hnext] at hfit
      split at hfit
      · rename_i hok
        exact ⟨l, c, r, rfl, by simpa using hfit, hok.1, hok.2⟩
      · simpa using ih h.shift hfit

/-! ### Handing out a block -/

/-- What `split_block` makes of a block: one of at least `size` bytes in its place, and
perhaps a free one. -/
theorem cutAt_eq (hsize : size ≤ b.size) : ∃ c t, cutAt b size = c :: t ∧ c.addr = b.addr ∧
    c.free = b.free ∧ size ≤ c.size ∧ c.size ≤ b.size ∧ used t = ∅ := by
  unfold cutAt
  split
  · exact ⟨b, [], rfl, rfl, rfl, hsize, Nat.le_refl _, by ext; simp⟩
  · exact ⟨_, _, rfl, rfl, rfl, Nat.le_refl _, hsize, by ext; simp; rintro rfl; rfl⟩

/-- A call handed out the block at `ptr`. -/
structure Given (m : Mem) (bs : List Blk) (size ptr : Nat) (a' : Arena) (m' : Mem)
    (kept' : Finset Nat) (new : Blk) (bs' : List Blk) : Prop where
  wf : a'.Wf m' kept' bs'
  keeps : Keeps m m' bs'
  ptr : ptr = new.addr + 24
  size : size ≤ new.size
  free : new.free = false
  used : used bs' = insert new (used bs)
  fresh : ∀ c ∈ Kernel.used bs, c.addr ≠ new.addr
  /-- headers stay headers -/
  heads : ∀ c ∈ bs, ∃ c' ∈ bs', c'.addr = c.addr

theorem Arena.Wf.takeBlock (h : a.Wf k.mem kept (l ++ b :: r)) (hfree : b.free = true)
    (hsize : size ≤ b.size) (hal : size % 8 = 0) :
    ∃ new bs', Given k.mem (l ++ b :: r) size (Kernel.takeBlock a k b.addr size).1
      (Kernel.takeBlock a k b.addr size).2.1 (Kernel.takeBlock a k b.addr size).2.2.mem kept new
      bs' := by
  obtain ⟨c, t, hcut, haddr, hcf, hcs, -, ht⟩ := cutAt_eq hsize
  obtain ⟨h1, hframe⟩ := h.splitBlock hsize hal
  rw [hcut] at h1 hframe
  unfold Kernel.takeBlock
  generalize Kernel.splitBlock a k.mem b.addr size = s at h1 hframe
  obtain ⟨a1, m1⟩ := s
  dsimp only at h1 hframe ⊢
  rw [← haddr]
  refine ⟨{ c with free := false }, l ++ { c with free := false } :: (t ++ r),
    h1.setFree false, fun x hx => ?_, rfl, hcs, rfl, ?_, fun d hd heq => ?_, fun d hd => ?_⟩
  · rw [setFree_off (hx { c with free := false } (by simp)).1]
    refine hframe x fun d hd => ?_
    simp only [List.cons_append, List.mem_append, List.mem_cons] at hd
    rcases hd with hd | rfl | hd | hd
    · exact (hx d (by simp [hd])).1
    · exact (hx { d with free := false } (by simp)).1
    · exact (hx d (by simp [hd])).1
    · exact (hx d (by simp [hd])).1
  · rw [used_append, used_append, used_cons_free hfree, used_cons_taken rfl, used_append, ht]
    simp [Set.union_insert]
  · obtain rfl := h.eq_of_addr (by simp) hd.1 (heq.trans haddr)
    rw [hd.2] at hfree
    simp at hfree
  · rcases List.mem_append.mp hd with hd | hd
    · exact ⟨d, by simp [hd], rfl⟩
    · rcases List.mem_cons.mp hd with rfl | hd
      · exact ⟨{ c with free := false }, by simp, haddr⟩
      · exact ⟨d, by simp [hd], rfl⟩

/-! ### Growing -/

theorem toPhys_trackFor (owner : Int) (frame : Nat) (k : State) :
    (trackFor owner frame k).toPhys = k.toPhys := by
  unfold trackFor taskTrackFrames
  split
  · split
    · rfl
    · dsimp only
      split
      · rfl
      · exact State.toPhys_setTask _ _ _
  · rfl

/-- The frames taken from the bitmap between two states. Frame `0` is no frame: its
address is `NULL`. -/
def taken (k k' : State) : Finset Nat := (k.pmm.free \ k'.pmm.free).erase 0

/-- Frames `g .. g + i` were taken, and nothing else happened to the memory. -/
structure RegionGrew (k k' : State) (g i : Nat) : Prop where
  mem : k'.mem = k.mem
  sub : k'.pmm.free ⊆ k.pmm.free
  taken : taken k k' = Finset.Ico g (g + i)

theorem RegionGrew.refl (k : State) (g : Nat) : RegionGrew k k g 0 :=
  ⟨rfl, Finset.Subset.refl _, by simp [Kernel.taken]⟩

theorem RegionGrew.cons {k1 k2 : State} {i : Nat} (h1 : RegionGrew k k1 g 1)
    (h2 : RegionGrew k1 k2 (g + 1) i) :
    RegionGrew k k2 g (i + 1) where
  mem := h2.mem.trans h1.mem
  sub := Finset.Subset.trans h2.sub h1.sub
  taken := by
    ext f
    have e1 := Finset.ext_iff.mp h1.taken f
    have e2 := Finset.ext_iff.mp h2.taken f
    have s1 := @h1.sub f
    have s2 := @h2.sub f
    simp only [Kernel.taken, Finset.mem_erase, Finset.mem_sdiff, Finset.mem_Ico] at e1 e2 ⊢
    have hsplit : g ≤ f ∧ f < g + (i + 1) ↔
        (g ≤ f ∧ f < g + 1) ∨ (g + 1 ≤ f ∧ f < g + 1 + i) := by omega
    rw [hsplit, ← e1, ← e2]
    constructor
    · rintro ⟨h0, hk, hk2⟩
      by_cases hk1 : f ∈ k1.pmm.free
      · exact Or.inr ⟨h0, hk1, hk2⟩
      · exact Or.inl ⟨h0, hk, hk1⟩
    · rintro (⟨h0, hk, hk1⟩ | ⟨h0, hk1, hk2⟩)
      · exact ⟨h0, hk, fun hk2 => hk1 (s2 hk2)⟩
      · exact ⟨h0, s1 hk1, hk2⟩

/-- A frame handed out by the bitmap, when its address is not `NULL`. -/
theorem grew_alloc {p : Pmm} {f : Nat} (owner : Int) (hmem : f ∈ k.pmm.free) (hne : f ≠ 0)
    (hfree : p.free = k.pmm.free.erase f) :
    RegionGrew k (trackFor owner (f * PMM_BLOCK_SIZE) { k with pmm := p }) f 1 := by
  have hphys := toPhys_trackFor owner (f * PMM_BLOCK_SIZE) { k with pmm := p }
  have hpmm : (trackFor owner (f * PMM_BLOCK_SIZE) { k with pmm := p }).pmm.free =
      k.pmm.free.erase f := (congrArg (fun q : Phys => q.pmm.free) hphys).trans hfree
  refine ⟨(congrArg Phys.mem hphys :), ?_, ?_⟩
  · rw [hpmm]
    exact Finset.erase_subset _ _
  · rw [Kernel.taken, hpmm, Finset.sdiff_erase_self hmem, Nat.Ico_succ_singleton]
    exact Finset.erase_eq_of_notMem (by simpa using hne.symm)

/-- Frame `0` is given away for nothing. -/
theorem grew_null {p : Pmm} (g : Nat) (hfree : p.free = k.pmm.free.erase 0) :
    RegionGrew k { k with pmm := p } g 0 := by
  refine ⟨rfl, ?_, ?_⟩
  · change p.free ⊆ _
    rw [hfree]
    exact Finset.erase_subset _ _
  · change (k.pmm.free \ p.free).erase 0 = _
    rw [hfree]
    ext f
    simp
    tauto

/-- The loop of `grow_heap` takes frames one behind the other. -/
theorem growRegion_spec (owner : Int) (n g : Nat) (hg : g ≤ 2 ^ 20) (k : State) :
    ∃ i, g + i ≤ 2 ^ 20 ∧
      (growRegion owner n (wrap (g * 4096)) k).1 = wrap ((g + i) * 4096) ∧
      RegionGrew k (growRegion owner n (wrap (g * 4096)) k).2 g i := by
  induction n generalizing g k with
  | zero => exact ⟨0, hg, rfl, RegionGrew.refl k g⟩
  | succ n ih =>
    rw [growRegion]
    refine k.pmm.allocBlock_cases (fun hfree => ?_) fun f p hnext hmem hfree => ?_ <;> dsimp only
    · rw [if_pos rfl]
      exact ⟨0, hg, rfl, RegionGrew.refl k g⟩
    · have hf := (Pmm.mem_free.mp hmem).1
      unfold PMM_MAX_BLOCKS at hf
      by_cases hz : f = 0
      · subst hz
        rw [if_pos (Nat.zero_mul _)]
        exact ⟨0, hg, rfl, grew_null g hfree⟩
      · have hne : f * PMM_BLOCK_SIZE ≠ 0 := Nat.mul_ne_zero hz (by decide)
        rw [if_neg hne]
        by_cases hend : f * PMM_BLOCK_SIZE = wrap (g * 4096)
        · -- the frame continues the region
          have hfg : f = g := by
            change f * 4096 = g * 4096 % 2 ^ 32 at hend
            omega
          subst hfg
          rw [if_pos hend]
          have hstep : wrap (wrap (f * 4096) + PMM_BLOCK_SIZE) = wrap ((f + 1) * 4096) := by
            change (f * 4096 % 2 ^ 32 + 4096) % 2 ^ 32 = (f + 1) * 4096 % 2 ^ 32
            omega
          rw [hstep]
          obtain ⟨i, hi, hres, hgrew⟩ := ih (f + 1) (by omega)
            (trackFor owner (f * PMM_BLOCK_SIZE) { k with pmm := p })
          refine ⟨i + 1, by omega, ?_, (grew_alloc owner hmem hz hfree).cons hgrew⟩
          rw [hres, show f + 1 + i = f + (i + 1) by omega]
        · -- it does not, and is given back
          rw [if_neg hend]
          have hback : (p.freeBlock (f * PMM_BLOCK_SIZE)).free = k.pmm.free := by
            rw [Pmm.free_freeBlock (show f * 4096 < 2 ^ 32 by omega), hfree,
              Nat.mul_div_cancel _ (show 0 < PMM_BLOCK_SIZE by decide), Finset.insert_erase hmem]
          refine ⟨0, hg, rfl, rfl, ?_, ?_⟩
          · change (p.freeBlock _).free ⊆ _
            rw [hback]
          · rw [Kernel.taken]
            change (k.pmm.free \ (p.freeBlock _).free).erase 0 = _
            rw [hback]
            simp

/-- A region of fresh frames as one block. -/
def region (g n : Nat) : Blk := ⟨g * 4096, n * 4096 - 24, true⟩

theorem region_stop (hn : 0 < n) : (region g n).stop 24 = (g + n) * 4096 := by
  unfold region Blk.stop
  dsimp only
  omega

/-- Frames that were free meet no block of the arena. -/
theorem Arena.Wf.sep_region (h : a.Wf m kept bs) (hn : 0 < n)
    (hfresh : Disjoint kept (Finset.Ico g (g + n))) (hb : b ∈ bs) : Blk.Sep 24 b (region g n) := by
  by_contra hsep
  have hstop := region_stop (g := g) hn
  have hin := (h.ok b hb).inside (max b.addr (g * 4096))
  unfold Blk.Sep at hsep
  rw [hstop] at hsep
  change ¬ (b.stop 24 ≤ g * 4096 ∨ _) at hsep
  have hlt : b.addr < b.stop 24 := by
    unfold Blk.stop
    omega
  have hk := hin (Nat.le_max_left _ _) (by omega)
  exact Finset.disjoint_left.mp hfresh hk (Finset.mem_Ico.mpr (by omega))

theorem region_ok (hg : 0 < g) (hn : 0 < n) (hle : g + n ≤ 2 ^ 20) :
    BlkOk (kept ∪ Finset.Ico g (g + n)) (region g n) := by
  have hstop := region_stop (g := g) hn
  refine ⟨?_, ?_, ?_, ?_, fun x h1 h2 => ?_⟩
  · change 0 < g * 4096
    omega
  · change g * 4096 % 8 = 0
    omega
  · change (n * 4096 - 24) % 8 = 0
    omega
  · rw [hstop]
    omega
  · rw [hstop] at h2
    change g * 4096 ≤ x at h1
    exact Finset.mem_union_right _ (Finset.mem_Ico.mpr (by omega))

/-- The stores of `grow_heap` put the region at the end of the list. -/
theorem Arena.Wf.append_region (h : a.Wf m kept bs) (hg : 0 < g) (hn : 0 < n) (hle : g + n ≤ 2 ^ 20)
    (hfresh : Disjoint kept (Finset.Ico g (g + n))) :
    let m1 := putHeader m (g * 4096) ⟨HEAP_MAGIC, n * 4096 - 24, true, 0, a.tail⟩
    let s := if a.tail ≠ 0 then
        (({ a with tail := g * 4096 } : Arena), setNext m1 a.tail (g * 4096))
      else (⟨g * 4096, g * 4096⟩, m1)
    s.1.Wf s.2 (kept ∪ Finset.Ico g (g + n)) (bs ++ [region g n]) ∧
      Frame m s.2 (bs ++ [region g n]) := by
  have hnew : BlkOk (kept ∪ Finset.Ico g (g + n)) (region g n) := region_ok hg hn hle
  have hsep : ∀ c ∈ bs, Blk.Sep 24 c (region g n) := fun c hc => h.sep_region hn hfresh hc
  have htail : a.tail < 2 ^ 32 := by
    rw [h.tail]
    rcases List.eq_nil_or_concat' bs with rfl | ⟨l, t, rfl⟩
    · simp
    · have := (h.ok t (by simp)).le
      unfold Blk.stop at this
      simp only [Linked.last_append, Linked.last_cons, Linked.last_nil]
      omega
  have hfit : (⟨HEAP_MAGIC, n * 4096 - 24, true, 0, a.tail⟩ : Header).Fits :=
    ⟨show HEAP_MAGIC < 2 ^ 32 by decide, show n * 4096 - 24 < 2 ^ 32 by omega,
      show 0 < 2 ^ 32 by decide, htail⟩
  have hok : ∀ b ∈ bs ++ [region g n], BlkOk (kept ∪ Finset.Ico g (g + n)) b := by
    intro b hb
    rcases List.mem_append.mp hb with hb | hb
    · have := h.ok b hb
      exact ⟨this.pos, this.align, this.size, this.le,
        fun x h1 h2 => Finset.mem_union_left _ (this.inside x h1 h2)⟩
    · obtain rfl := List.mem_singleton.mp hb
      exact hnew
  have hpair : (bs ++ [region g n]).Pairwise (Blk.Sep 24) := by
    rw [List.pairwise_append]
    exact ⟨h.sep, List.pairwise_singleton _ _, fun c hc d hd => by
      rw [List.mem_singleton.mp hd]
      exact hsep c hc⟩
  have htotal : bytes (bs ++ [region g n]) = 4096 * (kept ∪ Finset.Ico g (g + n)).card := by
    rw [Finset.card_union_of_disjoint hfresh, Nat.card_Ico, bytes_append, h.total]
    simp only [bytes_cons, bytes_nil, region]
    omega
  intro m1 s
  have h1 : ∀ c ∈ bs, hdr m1 c.addr = hdr m c.addr := fun c hc =>
    hdr_putHeader_ne (apart_of_sep (hsep c hc).symm)
  have hself : hdr m1 (g * 4096) = ⟨HEAP_MAGIC, n * 4096 - 24, true, 0, a.tail⟩ :=
    hdr_putHeader_self hfit
  rcases List.eq_nil_or_concat' bs with rfl | ⟨l, t, rfl⟩
  · have ht : a.tail = 0 := h.tail
    have hs : s = (⟨g * 4096, g * 4096⟩, m1) := if_neg (by simp [ht])
    rw [hs]
    refine ⟨⟨?_, rfl, rfl, hok, hpair, htotal⟩,
      fun x hx => putHeader_off (hx (region g n) (by simp))⟩
    rw [ht] at hself
    exact ⟨hself, trivial⟩
  · have ht : a.tail = t.addr := by
      rw [h.tail]
      simp
    have hpos := (h.ok t (by simp)).pos
    have hs : s = ({ a with tail := g * 4096 }, setNext m1 a.tail (g * 4096)) := if_pos (by omega)
    rw [hs, ht]
    refine ⟨⟨?_, ?_, ?_, hok, hpair, htotal⟩, fun x hx => ?_⟩
    · obtain ⟨hl, hat, -⟩ := h.cut
      have hleft : Linked.Seg Blk.addr (At (setNext m1 t.addr (g * 4096))) 0 l t.addr :=
        seg_congr hl fun c hc =>
          (hdr_setNext_ne (apart_of_sep (h.sepAt.1 c hc))).trans (h1 c (by simp [hc]))
      have hlast : At (setNext m1 t.addr (g * 4096)) t (Linked.last Blk.addr 0 l) (g * 4096) := by
        unfold At at hat ⊢
        rw [hdr_set_self.2.2.1, h1 t (by simp), hat,
          Nat.mod_eq_of_lt (show g * 4096 < 2 ^ 32 by omega)]
      have hend : At (setNext m1 t.addr (g * 4096)) (region g n) t.addr 0 :=
        (hdr_setNext_ne (apart_of_sep (hsep t (by simp)))).trans (ht ▸ hself)
      simpa using ⟨hleft, hlast, hend⟩
    · rw [show ({ a with tail := g * 4096 } : Arena).head = a.head from rfl, h.head]
      simp
    · simp [region]
    · exact (setNext_off (hx t (by simp))).trans (putHeader_off (hx (region g n) (by simp)))

/-- The two outcomes of `grow_heap`. -/
inductive Grown (a : Arena) (k : State) (kept : Finset Nat) (bs : List Blk) :
    Nat → Arena → State → Prop
  | none {k' : State} (hmem : k'.mem = k.mem) (htaken : taken k k' = ∅) : Grown a k kept bs 0 a k'
  | region {a' : Arena} {k' : State} {g n : Nat} (hg : 0 < g)
      (hwf : a'.Wf k'.mem (kept ∪ taken k k') (bs ++ [region g n]))
      (hframe : Frame k.mem k'.mem (bs ++ [Kernel.region g n])) :
      Grown a k kept bs (g * 4096) a' k'

theorem Arena.Wf.growHeap (h : a.Wf k.mem kept bs) (hkept : Disjoint kept k.pmm.free)
    (minSize : Nat) (owner : Int) :
    Grown a k kept bs (growHeap a minSize owner k).1 (Kernel.growHeap a minSize owner k).2.1
        (Kernel.growHeap a minSize owner k).2.2 ∧
      (Kernel.growHeap a minSize owner k).2.2.pmm.free ⊆ k.pmm.free := by
  have hsame : Grown a k kept bs 0 a k ∧ k.pmm.free ⊆ k.pmm.free :=
    ⟨Grown.none rfl (by simp [taken]), Finset.Subset.refl _⟩
  unfold Kernel.growHeap
  split
  · exact hsame
  dsimp only
  split
  · exact hsame
  refine k.pmm.allocBlock_cases (fun hfree => ?_) fun f p hnext hmem hfree => ?_ <;> dsimp only
  · rw [if_pos rfl]
    exact hsame
  · have hf := (Pmm.mem_free.mp hmem).1
    unfold PMM_MAX_BLOCKS at hf
    by_cases hz : f = 0
    · subst hz
      rw [if_pos (Nat.zero_mul _)]
      have hgrew := grew_null 0 hfree
      exact ⟨Grown.none rfl (by simpa using hgrew.taken), hgrew.sub⟩
    · rw [if_neg (Nat.mul_ne_zero hz (by decide))]
      have hend : wrap (f * PMM_BLOCK_SIZE + PMM_BLOCK_SIZE) = wrap ((f + 1) * 4096) := by
        change (f * 4096 + 4096) % 2 ^ 32 = (f + 1) * 4096 % 2 ^ 32
        omega
      rw [hend]
      obtain ⟨i, hi, hres, hgrew⟩ := growRegion_spec owner
        ((HEADER_SIZE + minSize + PMM_BLOCK_SIZE - 1) / PMM_BLOCK_SIZE - 1) (f + 1) (by omega)
        (trackFor owner (f * PMM_BLOCK_SIZE) { k with pmm := p })
      have hall := (grew_alloc owner hmem hz hfree).cons hgrew
      generalize growRegion owner _ _ _ = s at hres hgrew hall
      obtain ⟨e, k'⟩ := s
      dsimp only at hres hgrew hall ⊢
      -- the size of the region, although its end may wrap to zero
      have hsize : wrap (e + 2 ^ 32 - f * PMM_BLOCK_SIZE) - HEADER_SIZE = (i + 1) * 4096 - 24 := by
        rw [hres]
        change ((f + 1 + i) * 4096 % 2 ^ 32 + 2 ^ 32 - f * 4096) % 2 ^ 32 - 24 = _
        omega
      have hfresh : Disjoint kept (Finset.Ico f (f + (i + 1))) := by
        rw [← hall.taken]
        refine Finset.disjoint_of_subset_right ?_ hkept
        exact (Finset.erase_subset _ _).trans Finset.sdiff_subset
      obtain ⟨hwf, hframe⟩ := Arena.Wf.append_region (hall.mem ▸ h) (by omega) (by omega)
        (by omega) hfresh
      rw [← hall.taken] at hwf
      rw [hsize]
      split
      · rename_i ht
        rw [if_pos ht] at hwf hframe
        exact ⟨Grown.region (by omega) hwf (hall.mem ▸ hframe),
          hall.sub⟩
      · rename_i ht
        rw [if_neg ht] at hwf hframe
        exact ⟨Grown.region (by omega) hwf (hall.mem ▸ hframe),
          hall.sub⟩

/-! ### heap_arena_alloc and heap_arena_calloc -/

theorem alignUp_spec {x : Nat} (h : x ≤ SIZE_MAX_LOCAL - (ALIGN - 1)) :
    x ≤ alignUp x ∧ alignUp x % 8 = 0 ∧ alignUp x < x + 8 := by
  change x ≤ 4294967288 at h
  have hup : alignUp x = (x + 7) % 2 ^ 32 / 8 * 8 := rfl
  rw [hup, Nat.mod_eq_of_lt (by omega)]
  omega

/-- A call handed out nothing. -/
structure Refused (m : Mem) (bs : List Blk) (a' : Arena) (m' : Mem) (kept' : Finset Nat)
    (bs' : List Blk) : Prop where
  wf : a'.Wf m' kept' bs'
  keeps : Keeps m m' bs'
  used : used bs' = used bs

/-- The outcomes of an allocation. -/
inductive Alloc (kept : Finset Nat) (bs : List Blk) (k : State) (size : Nat) :
    Nat → Arena → State → Prop
  | refused {a' : Arena} {k' : State} {bs' : List Blk}
      (h : Refused k.mem bs a' k'.mem (kept ∪ taken k k') bs') : Alloc kept bs k size 0 a' k'
  | given {p : Nat} {a' : Arena} {k' : State} {new : Blk} {bs' : List Blk}
      (h : Given k.mem bs size p a' k'.mem (kept ∪ taken k k') new bs') :
      Alloc kept bs k size p a' k'

/-- No frame is taken as long as the bitmap is the same. -/
theorem union_taken {k' : State} (h : k'.pmm = k.pmm) : kept ∪ taken k k' = kept := by
  simp [taken, h]

/-- Handing out a block that is on the list. -/
theorem Arena.Wf.alloc_take (h : a.Wf k.mem kept (l ++ b :: r)) (hfree : b.free = true)
    (hn : n ≤ size) (hsize : size ≤ b.size) (hal : size % 8 = 0) :
    Alloc kept (l ++ b :: r) k n (Kernel.takeBlock a k b.addr size).1
      (Kernel.takeBlock a k b.addr size).2.1 (Kernel.takeBlock a k b.addr size).2.2 := by
  obtain ⟨new, bs', hgiven⟩ := h.takeBlock hfree hsize hal
  have hkept : kept ∪ taken k (Kernel.takeBlock a k b.addr size).2.2 = kept := union_taken rfl
  exact Alloc.given (hkept.symm ▸ { hgiven with size := hn.trans hgiven.size })

theorem Arena.Wf.heapArenaAlloc (h : a.Wf k.mem kept bs) (hkept : Disjoint kept k.pmm.free)
    (size : Nat) (owner : Int) :
    Alloc kept bs k size (heapArenaAlloc a k size owner).1
        (Kernel.heapArenaAlloc a k size owner).2.1 (Kernel.heapArenaAlloc a k size owner).2.2 ∧
      (Kernel.heapArenaAlloc a k size owner).2.2.pmm.free ⊆ k.pmm.free := by
  have hno : Alloc kept bs k size 0 a k ∧ k.pmm.free ⊆ k.pmm.free :=
    ⟨Alloc.refused ⟨by rwa [union_taken rfl], fun _ _ => rfl, rfl⟩, Finset.Subset.refl _⟩
  unfold Kernel.heapArenaAlloc
  split
  · exact hno
  split
  · exact hno
  rename_i hz hmax
  obtain ⟨hle, hal, -⟩ := alignUp_spec (Nat.le_of_not_lt hmax)
  dsimp only
  rw [h.head]
  split
  · exact hno
  · rename_i cur hfit
    obtain ⟨l, b, r, rfl, rfl, hfree, hsize⟩ := findFit_block (l := []) h hfit
    exact ⟨Arena.Wf.alloc_take h hfree hle hsize hal, Finset.Subset.refl _⟩
  · obtain ⟨hgrown, hsub⟩ := h.growHeap hkept (alignUp size) owner
    generalize Kernel.growHeap a (alignUp size) owner k = s at hgrown hsub
    obtain ⟨fresh, a', k'⟩ := s
    dsimp only at hgrown hsub ⊢
    cases hgrown with
    | none hmem htaken =>
      rw [if_pos rfl]
      exact ⟨Alloc.refused ⟨by rwa [htaken, Finset.union_empty, hmem],
        fun x _ => congrFun hmem x, rfl⟩, hsub⟩
    | @region _ _ g n hg hwf hframe =>
      rw [if_neg (show g * 4096 ≠ 0 by omega)]
      have hused : used (bs ++ [region g n]) = used bs := by
        rw [used_append, used_cons_free rfl]
        ext
        simp
      have hsize : Hdr.size k'.mem (g * 4096) = (region g n).size := hwf.cut.2.1.fields.2.1
      rw [hsize]
      split
      · exact ⟨Alloc.refused ⟨hwf, hframe.keeps, hused⟩, hsub⟩
      · -- the new block is cut like one of the list
        rename_i hfits
        refine ⟨?_, hsub⟩
        obtain ⟨new, bs', hgiven⟩ := hwf.takeBlock rfl (Nat.le_of_not_lt hfits) hal
        refine Alloc.given ⟨hgiven.wf, fun x hx => ?_, hgiven.ptr,
          hle.trans hgiven.size, hgiven.free, hused ▸ hgiven.used, hused ▸ hgiven.fresh,
          fun c hc => hgiven.heads c (by simp [hc])⟩
        refine (hgiven.keeps x hx).trans (hframe x fun c hc => ?_)
        obtain ⟨c', hc', haddr⟩ := hgiven.heads c hc
        rw [← haddr]
        exact (hx c' hc').1

/-- `memset` of a block just handed out keeps the list. -/
theorem Given.fill {p : Nat} {a' : Arena} {kept' : Finset Nat} {new : Blk} {bs' : List Blk}
    (h : Given m bs n p a' m' kept' new bs') : a'.Wf (m'.fill p n 0) kept' bs' := by
  have hnew : new ∈ bs' := by
    have hin : new ∈ Kernel.used bs' := h.used ▸ Set.mem_insert _ _
    exact hin.1
  have hptr := h.ptr
  have hsize := h.size
  exact h.wf.store_payload hnew fun x hx => Mem.store_out (by unfold Blk.stop at hx; omega)

/-! ### heap_arena_free -/

/-- The header in front of a block's bytes. -/
theorem headerOf_add (x : Nat) : headerOf (x + 24) = x := by
  unfold headerOf
  rw [if_neg (show ¬ x + 24 < 24 by omega)]
  exact Nat.add_sub_cancel x 24

theorem Arena.Wf.used_erase (h : a.Wf m kept (l ++ b :: r)) :
    used (l ++ r) = used (l ++ b :: r) \ {b} := by
  obtain ⟨hl, hr⟩ := h.sepAt
  ext d
  simp only [mem_used, List.mem_append, List.mem_cons, Set.mem_sdiff, Set.mem_singleton_iff]
  constructor
  · rintro ⟨hd | hd, hf⟩
    · exact ⟨⟨Or.inl hd, hf⟩, ((hl d hd).ne (by decide)).symm⟩
    · exact ⟨⟨Or.inr (Or.inr hd), hf⟩, ((hr d hd).ne (by decide)).symm⟩
  · rintro ⟨⟨hd | hd | hd, hf⟩, hne⟩
    · exact ⟨Or.inl hd, hf⟩
    · exact absurd hd hne
    · exact ⟨Or.inr hd, hf⟩

theorem pmm_heapArenaFree (a : Arena) (k : State) (ptr : Nat) :
    (heapArenaFree a k ptr).2.pmm = k.pmm := by
  unfold heapArenaFree
  dsimp only
  generalize coalesce a (Hdr.setFree k.mem _ true) _ = s
  split_ifs <;> rfl

/-- Freeing a block takes it from those handed out. -/
theorem Arena.Wf.heapArenaFree (h : a.Wf k.mem kept bs) (hb : b ∈ used bs) :
    ∃ bs', (heapArenaFree a k (b.addr + 24)).1.Wf
        (Kernel.heapArenaFree a k (b.addr + 24)).2.mem kept bs' ∧
      Keeps k.mem (Kernel.heapArenaFree a k (b.addr + 24)).2.mem bs' ∧
      used bs' = used bs \ {b} := by
  obtain ⟨hmem, hfree⟩ := hb
  obtain ⟨l, r, rfl⟩ := List.append_of_mem hmem
  have hok := h.okAt
  have hal := hok.align
  obtain ⟨hmagic, -, hhdr, -⟩ := h.cut.2.1.fields
  have hused : used (l ++ { b with free := true } :: r) = used (l ++ b :: r) \ {b} := by
    rw [used_append, used_cons_free rfl, ← used_append, h.used_erase]
  obtain ⟨bs', hwf, hkeeps, hco, hquiet⟩ := (h.setFree true).coalesce rfl
  rw [hused] at hco
  unfold Kernel.heapArenaFree
  rw [if_neg (by omega), if_neg (show ¬ (b.addr + 24) % 8 ≠ 0 by omega), headerOf_add]
  dsimp only
  rw [hmagic, hhdr, hfree, if_neg (by simp), if_neg (by simp)]
  refine ⟨bs', hwf, fun x hx => ?_, hco⟩
  exact (hkeeps x hx).trans (setFree_off (hquiet x hx { b with free := true } (by simp)).1)

/-! ### heap_arena_realloc -/

/-- Bytes `0 .. n` of the block at `p` in `m` are those of the block at `p'` in `m'`. -/
def SameBytes (m : Mem) (p : Nat) (m' : Mem) (p' n : Nat) : Prop :=
  ∀ i, i < n → m' (p' + i) = m (p + i)

/-- The outcomes of `heap_arena_realloc` on the block `b`, which is handed out. -/
inductive Realloc (kept : Finset Nat) (bs : List Blk) (k : State) (b : Blk) (size : Nat) :
    Nat → Arena → State → Prop
  | freed {a' : Arena} {k' : State} {bs' : List Blk} (hsize : size = 0)
      (hwf : a'.Wf k'.mem (kept ∪ taken k k') bs') (hused : used bs' = used bs \ {b}) :
      Realloc kept bs k b size 0 a' k'
  | refused {a' : Arena} {k' : State} {bs' : List Blk} (hsize : size ≠ 0)
      (h : Refused k.mem bs a' k'.mem (kept ∪ taken k k') bs') : Realloc kept bs k b size 0 a' k'
  | moved {p : Nat} {a' : Arena} {k' : State} {new : Blk} {bs' : List Blk} (hsize : size ≠ 0)
      (hwf : a'.Wf k'.mem (kept ∪ taken k k') bs') (hptr : p = new.addr + 24)
      (hnew : size ≤ new.size) (hused : used bs' = insert new (used bs \ {b}))
      (hbytes : SameBytes k.mem (b.addr + 24) k'.mem p (min b.size size)) :
      Realloc kept bs k b size p a' k'

/-- Shrinking in place. -/
theorem Arena.Wf.shrink (h : a.Wf k.mem kept bs) (hb : b ∈ used bs) (hn : n ≠ 0)
    (hle : n ≤ size) (hal : size % 8 = 0) (hsize : size ≤ b.size) :
    Realloc kept bs k b n (b.addr + 24) (Kernel.splitBlock a k.mem b.addr size).1
      { k with mem := (Kernel.splitBlock a k.mem b.addr size).2 } := by
  obtain ⟨hmem, hfree⟩ := hb
  obtain ⟨l, r, rfl⟩ := List.append_of_mem hmem
  obtain ⟨c, t, hcut, haddr, hcf, hcs, -, ht⟩ := cutAt_eq hsize
  obtain ⟨hwf, hframe⟩ := h.splitBlock hsize hal
  rw [hcut] at hwf hframe
  have hcu : c ∈ used (l ++ (c :: t ++ r)) := ⟨by simp, hcf.trans hfree⟩
  have hkept : kept ∪ taken k { k with mem := (Kernel.splitBlock a k.mem b.addr size).2 } = kept :=
    union_taken rfl
  refine Realloc.moved hn (hkept.symm ▸ hwf) (by rw [haddr]) (hle.trans hcs) ?_ fun i hi => ?_
  · rw [used_append, List.cons_append, used_cons_taken (hcf.trans hfree), used_append, ht,
      ← h.used_erase, used_append]
    simp [Set.union_insert]
  · have hquiet : Quiet (l ++ (c :: t ++ r)) (b.addr + 24 + i) :=
      hwf.quiet_payload hcu (by omega) (by unfold Blk.stop; omega)
    exact hframe _ fun d hd => (hquiet d hd).1

/-- Growing: a new block, the bytes, and the old block is freed. -/
theorem Arena.Wf.copyFree {a1 : Arena} {k1 : State} {new : Blk} {bs1 : List Blk} {p : Nat}
    (h : a.Wf k.mem kept bs) (hb : b ∈ used bs) (hsize : size ≠ 0) (hgrow : b.size < alignUp size)
    (hmax : size ≤ SIZE_MAX_LOCAL - (ALIGN - 1))
    (hgiven : Given k.mem bs size p a1 k1.mem (kept ∪ taken k k1) new bs1) :
    Realloc kept bs k b size p
      (Kernel.heapArenaFree a1 { k1 with mem := k1.mem.copy p (b.addr + 24) b.size }
        (b.addr + 24)).1
      (Kernel.heapArenaFree a1 { k1 with mem := k1.mem.copy p (b.addr + 24) b.size }
        (b.addr + 24)).2 := by
  obtain ⟨-, -, hup⟩ := alignUp_spec hmax
  have hbu : b ∈ used bs1 := by
    rw [hgiven.used]
    exact Set.mem_insert_of_mem _ hb
  have hnu : new ∈ used bs1 := by
    rw [hgiven.used]
    exact Set.mem_insert _ _
  have hne : new ≠ b := fun heq => hgiven.fresh b hb (by rw [heq])
  have hns := (hgiven.wf.ok new hnu.1).size
  have hbs := (h.ok b hb.1).size
  have hreq := hgiven.size
  have hfit : b.size ≤ new.size := by
    have hal := (alignUp_spec hmax).2.1
    omega
  have hptr := hgiven.ptr
  -- the copy goes into the new block only
  have hout : ∀ x, x < p ∨ p + b.size ≤ x → k1.mem.copy p (b.addr + 24) b.size x = k1.mem x :=
    fun x hx => Mem.store_out hx
  have hwf : a1.Wf (k1.mem.copy p (b.addr + 24) b.size) (kept ∪ taken k k1) bs1 :=
    hgiven.wf.store_payload hnu.1 fun x hx => hout x (by unfold Blk.stop at hx; omega)
  obtain ⟨bs2, hwf2, hkeeps2, hused2⟩ := Arena.Wf.heapArenaFree
    (k := { k1 with mem := k1.mem.copy p (b.addr + 24) b.size }) hwf hbu
  have htaken : taken k (Kernel.heapArenaFree a1
      { k1 with mem := k1.mem.copy p (b.addr + 24) b.size } (b.addr + 24)).2 = taken k k1 := by
    unfold taken
    rw [pmm_heapArenaFree]
  have hnu2 : new ∈ used bs2 := by
    rw [hused2]
    exact ⟨hnu, hne⟩
  refine Realloc.moved hsize (htaken.symm ▸ hwf2) hptr hreq ?_ fun i hi => ?_
  · rw [hused2, hgiven.used, Set.insert_sdiff_of_notMem _ (by simpa using hne)]
  · have hlt : i < b.size := by omega
    have hq2 := hwf2.quiet_payload hnu2 (x := p + i) (by omega)
      (by unfold Blk.stop; omega)
    have hq1 := hgiven.wf.quiet_payload hbu (x := b.addr + 24 + i) (by omega)
      (by unfold Blk.stop; omega)
    rw [hkeeps2 _ hq2]
    dsimp only
    rw [Mem.copy, Mem.store_in (by omega) (by omega), Nat.add_sub_cancel_left, hgiven.keeps _ hq1]

theorem Arena.Wf.heapArenaRealloc (h : a.Wf k.mem kept bs) (hkept : Disjoint kept k.pmm.free)
    (hb : b ∈ used bs) (size : Nat) (owner : Int) :
    Realloc kept bs k b size (heapArenaRealloc a k (b.addr + 24) size owner).1
        (Kernel.heapArenaRealloc a k (b.addr + 24) size owner).2.1
        (Kernel.heapArenaRealloc a k (b.addr + 24) size owner).2.2 ∧
      (Kernel.heapArenaRealloc a k (b.addr + 24) size owner).2.2.pmm.free ⊆ k.pmm.free := by
  obtain ⟨hmem, hfree⟩ := id hb
  obtain ⟨l, r, rfl⟩ := List.append_of_mem hmem
  have hal := h.okAt.align
  obtain ⟨hmagic, hbsize, hhdr, -⟩ := h.cut.2.1.fields
  unfold Kernel.heapArenaRealloc
  rw [if_neg (by omega)]
  split
  · -- asked for no bytes: the block is freed
    rename_i hz
    obtain ⟨bs', hwf, -, hused⟩ := h.heapArenaFree hb
    refine ⟨Realloc.freed hz (by rwa [union_taken (pmm_heapArenaFree a k _)]) hused, ?_⟩
    dsimp only
    rw [pmm_heapArenaFree]
  · rename_i hz
    rw [if_neg (show ¬ (b.addr + 24) % 8 ≠ 0 by omega), headerOf_add]
    dsimp only
    rw [hmagic, hhdr, hfree, if_neg (by simp), if_neg (by simp), hbsize]
    split
    · exact ⟨Realloc.refused hz ⟨by rwa [union_taken rfl], fun _ _ => rfl, rfl⟩,
        Finset.Subset.refl _⟩
    · rename_i hmax
      obtain ⟨hup, hual, -⟩ := alignUp_spec (Nat.le_of_not_lt hmax)
      split
      · rename_i hfits
        have hshrink := h.shrink hb hz hup hual hfits
        generalize Kernel.splitBlock a k.mem b.addr (alignUp size) = s at hshrink ⊢
        exact ⟨hshrink, Finset.Subset.refl _⟩
      · rename_i hfits
        obtain ⟨halloc, hsub⟩ := h.heapArenaAlloc hkept size owner
        generalize Kernel.heapArenaAlloc a k size owner = s at halloc hsub
        obtain ⟨p, a1, k1⟩ := s
        dsimp only at halloc hsub ⊢
        cases halloc with
        | refused href =>
          rw [if_pos rfl]
          exact ⟨Realloc.refused hz href, hsub⟩
        | given hgiven =>
          rw [if_neg (show p ≠ 0 by rw [hgiven.ptr]; omega)]
          have hmove := h.copyFree hb hz (Nat.lt_of_not_le hfits) (Nat.le_of_not_lt hmax) hgiven
          dsimp only
          refine ⟨hmove, ?_⟩
          rw [pmm_heapArenaFree]
          exact hsub

end Crusadia.Kernel
