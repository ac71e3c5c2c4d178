import Crusadia.Kernel.UserHeap

/-!
# Crusadia.Kernel.UserHeapRun

The user heaps over whole runs of **`task_set_heap_break`** and **`task_create_user`**, while the
rest of the kernel takes frames and gives them back.

As long as every call finds the memory it needs (`BreakSafe`), the heaps of all tasks show
frames of their own only (`userHeapOwned_of_run`). The calls that do not are those in
which `unmap_page_dir` runs out of frames: the page stays mapped and its frame is freed.
-/

namespace Crusadia.Kernel

variable {I : Image} {X X' : Set Nat} {k k' : State} {s v : Nat} {C : State → Nat → Nat → Prop}
  {M : Nat → Nat → Prop}

/-- Every page of a heap that differs from the kernel's mapping shows a frame that is in
use and belongs to the task, and no two tasks show the same frame there. -/
structure UserHeapOwned (k : State) : Prop where
  owned : ∀ s, k.HasDir s → ∀ v a, InHeap v → walk k.mem (k.tasks s).pageDirectory v = some a →
    walk k.mem pageDirectory v ≠ some a → a / 4096 ∉ k.pmm.free ∧ a ∈ (k.tasks s).ownedFrames
  apart : ∀ s t, k.HasDir s → k.HasDir t → ∀ v w a, InHeap v → InHeap w →
    walk k.mem (k.tasks s).pageDirectory v = some a → walk k.mem pageDirectory v ≠ some a →
    walk k.mem (k.tasks t).pageDirectory w = some a → walk k.mem pageDirectory w ≠ some a → s = t

/-- Runs from the state `k`, in which the rest of the kernel holds the frames `X`. The
breaks are set under the condition `C`, and tasks are created. -/
inductive HeapRun (I : Image) (C : State → Nat → Nat → Prop) (X : Set Nat) (k : State) :
    Set Nat → State → Prop
  | refl : HeapRun I C X k X k
  | create {X' : Set Nat} {k' : State} (priority s : Nat) (h : HeapRun I C X k X' k')
      (hret : (taskCreateUser I k' priority).1 = some s) :
      HeapRun I C X k X' (taskCreateUser I k' priority).2
  | setBreak {X' : Set Nat} {k' : State} (s newBreak : Nat) (h : HeapRun I C X k X' k')
      (hs : k'.HasDir s) (hc : C k' s newBreak) :
      HeapRun I C X k X' (taskSetHeapBreak k' s newBreak).2
  | alloc {X' : Set Nat} {k' : State} {f : Nat} (h : HeapRun I C X k X' k')
      (hf : k'.pmm.next = some f) :
      HeapRun I C X k (insert (f * 4096) X') { k' with pmm := k'.pmm.allocBlock.2 }
  | free {Y : Set Nat} {k' : State} {a : Nat} (h : HeapRun I C X k Y k') (ha : a ∈ Y) :
      HeapRun I C X k (Y \ {a}) { k' with pmm := k'.pmm.freeBlock a }

theorem HeapOk.setPmm (h : HeapOk k) (p : Pmm) : HeapOk { k with pmm := p } :=
  ⟨h.heap.congr (fun _ => rfl) (fun _ => List.Subset.refl _) fun _ _ _ _ => rfl, h.brk⟩

theorem HeapOk.userHeapOwned (h : HeapOk k) (hinv : Inv I X k) : UserHeapOwned k := by
  have hown : ∀ s, k.HasDir s → ∀ v a, InHeap v → walk k.mem (k.tasks s).pageDirectory v = some a →
      walk k.mem pageDirectory v ≠ some a → a ∈ (k.tasks s).ownedFrames := by
    intro s hs v a hv hwalk hne
    rw [h.heap.ident v hv] at hne
    exact h.heap.own s hs v a ⟨hv, hwalk, Or.inr fun heq => hne (by rw [heq])⟩
  refine ⟨fun s hs v a hv hwalk hne => ?_, fun s t hs ht v w a hv hw h1 h2 h3 h4 => ?_⟩
  · have ha := hown s hs v a hv hwalk hne
    exact ⟨(hinv.inUse (.own s a) ha).used, ha⟩
  · exact (Obj.own.inj (hinv.apart (.own s a) (.own t a) (hown s hs v a hv h1 h2)
      (hown t ht w a hw h3 h4) rfl)).1

/-! ### New tasks -/

/-- A page that is mapped outside the heap changes nothing in the heaps. -/
theorem HeapInv.walk_map_out (h : HeapInv M k) (hinv : Inv I X k) (hs : k.HasDir s)
    {phys virt q : Nat}
    (hphys : phys < 2 ^ 32) (hvirt : virt < 2 ^ 32) (hout : USER_HEAP_MAX ≤ virt) (hq : k.IsDir q)
    (hv : InHeap v) : walk (taskMapUserPage k s phys virt 0x07).2.mem q v = walk k.mem q v := by
  have hslot := (hinv.slot s hs).1
  have hne : v / 4096 ≠ virt / 4096 := by
    have := hv.2
    unfold USER_HEAP_MAX at this hout
    omega
  cases hnext : k.pmm.next with
  | some f =>
    rw [hinv.walk_taskMapUserPage_some hslot hs hphys hvirt hnext hq hv.lt,
      if_neg fun hc => hne hc.2, h.walk_protectMem hinv (Pmm.next_mem hnext) hq hv]
  | none =>
    rw [hinv.walk_taskMapUserPage_none hslot hs hphys hvirt hnext hq hv.lt,
      if_neg fun hc => hne hc.1]

theorem HeapInv.mapUserStack : ∀ (n va : Nat) {k : State}, HeapInv M k → Inv I X k → k.HasDir s →
    USER_HEAP_MAX ≤ va → va + n * 4096 ≤ 2 ^ 32 →
    (k.tasks s).ownedFrames.length + n ≤ TASK_MAX_OWNED_FRAMES →
    ∀ t, (Kernel.mapUserStack s n va k).1 = some t →
    HeapInv M (Kernel.mapUserStack s n va k).2 := by
  intro n
  induction n with
  | zero => exact fun _ _ h _ _ _ _ _ _ _ => h
  | succ n ih =>
    intro va k h hinv hs hout hva hlen t ht
    rcases mapUserStack_succ hinv (hinv.slot s hs).1 n va (by omega) with
      ⟨-, heq⟩ | ⟨f, p, -, hmem, hfree, heq⟩
    · rw [heq] at ht
      simp at ht
    · have hvlt : va < 2 ^ 32 := by omega
      obtain ⟨hinv', hext, hown⟩ := hinv.trackMap hs hmem hfree hvlt
      have hlen' := congrArg List.length hown
      rw [List.length_append, List.length_singleton] at hlen'
      have hext1 := extends_tracked (X := X) (s := s) hfree
      have h1 : HeapInv M (tracked k s f p) := h.congr hext1.dir hext1.own fun _ _ _ _ => rfl
      have h2 := h.congr hext.dir hext.own fun q hq v hv =>
        have hq' : (tracked k s f p).IsDir q := hq.imp_right fun ⟨t, ht, hqt⟩ =>
          ⟨t, (hasDir_tracked k s f p t).mpr ht, by rw [hqt, hext1.dir]⟩
        h1.walk_map_out (hinv.track hmem hfree) ((hasDir_tracked k s f p s).mpr hs)
          (hinv.fresh_page hmem).2.2 hvlt hout hq' hv
      rw [heq] at ht ⊢
      exact ih (va + 4096) h2 hinv' ((hext.hasDir s).mpr hs) (by omega) (by omega) (by omega) t ht

/-- Slot `s` gets a directory that shows in the heap what the kernel shows. -/
theorem HeapInv.newDir {M' : Nat → Nat → Prop} {f : Nat} (h : HeapInv M k) (hinv : Inv I X k)
    (hf : f ∈ k.pmm.free) (hmem : k'.mem = cloneMem k.mem (f * 4096))
    (hself : (k'.tasks s).pageDirectory = f * 4096) (hother : ∀ t, t ≠ s → k'.tasks t = k.tasks t)
    (hM : ∀ t v, InHeap v → M' t v → t ≠ s ∧ M t v) : HeapInv M' k' := by
  have hold : ∀ q, k.IsDir q → ∀ v, InHeap v → walk k'.mem q v = walk k.mem q v :=
    fun q hq v hv => by
    rw [hmem, hinv.walk_cloneMem hf hq (Or.inl rfl) hv.lt, h.walk_protectMem hinv hf hq hv]
  have hhas : ∀ {t}, t ≠ s → k'.HasDir t → k.HasDir t := fun hts =>
    (State.hasDir_congr (by rw [hother _ hts])).mp
  have hmine : ∀ {t v a}, k'.HasDir t → Mine M' k' t v a → t ≠ s ∧ Mine M k t v a := by
    intro t v a ht hm
    have hw := hm.walk
    by_cases hts : t = s
    · rw [hts, hself, hmem, hinv.walk_cloneMem hf k.isDir_kernel (Or.inr ⟨rfl, rfl⟩) hm.heap.lt,
        h.walk_protectMem hinv hf k.isDir_kernel hm.heap, h.ident v hm.heap] at hw
      rcases hm.own with hMv | hne
      · exact absurd hts (hM t v hm.heap hMv).1
      · exact absurd (Option.some.inj hw).symm hne
    · rw [hother t hts, hold _ (hhas hts ht).isDir v hm.heap] at hw
      exact ⟨hts, hm.heap, hw, hm.own.imp_left fun hMv => (hM t v hm.heap hMv).2⟩
  refine ⟨fun v hv => ?_, fun t ht v a hm => ?_, fun t ht v hv hMv => ?_,
    fun t ht v v' a hm hm' => ?_⟩
  · rw [hold _ k.isDir_kernel v hv]
    exact h.ident v hv
  · obtain ⟨hts, hm⟩ := hmine ht hm
    rw [hother t hts]
    exact h.own t (hhas hts ht) v a hm
  · obtain ⟨hts, hMv⟩ := hM t v hv hMv
    rw [hother t hts, hold _ (hhas hts ht).isDir v hv]
    exact h.mapped t (hhas hts ht) v hv hMv
  · obtain ⟨hts, hm1⟩ := hmine ht hm
    exact h.inj t (hhas hts ht) v v' a hm1 (hmine ht hm').2

/-- A new task leaves the heaps of the others; its own shows what the kernel shows, and its break
is at the bottom. -/
theorem HeapOk.taskCreateUser (h : HeapOk k) (hinv : Inv I X k) {priority : Nat}
    (hret : (taskCreateUser I k priority).1 = some s) :
    HeapOk (Kernel.taskCreateUser I k priority).2 ∧
      ((Kernel.taskCreateUser I k priority).2.tasks s).heapVirtNext = USER_HEAP_BASE ∧
      (Kernel.taskCreateUser I k priority).2.pmm.free ⊆ k.pmm.free := by
  obtain ⟨k1, f, p, hc, hmem, hfree, hext, -, hbrk, heq⟩ := (hinv.taskCreateUser priority).2 s hret
  obtain ⟨-, -, -, hphys, htasks⟩ := claimSlot_lt hinv.num hc
  obtain ⟨hinv1, hdir, hown⟩ := hinv.newUser hc priority hmem hfree
  have htask : ∀ t, (newUser I k1 s priority f p).tasks t =
      if t = s then { Task.initUser I s priority (k.tasks s) with pageDirectory := f * 4096 }
      else k.tasks t := fun t => by
    rw [newUser, withDir, State.tasks_setTask, ← htasks]
    split <;> rename_i hts <;> simp only [State.tasks_setTask, hts, if_true, if_false]
  have hnext : ∀ t, ((Kernel.taskCreateUser I k priority).2.tasks t).heapVirtNext =
      if t = s then USER_HEAP_BASE else (k.tasks t).heapVirtNext := fun t => by
    rw [hbrk, htask]
    split <;> rfl
  -- the pages of the heaps are those of the others
  have hpages : ∀ t v, InHeap v → heapPages (Kernel.taskCreateUser I k priority).2 t v →
      t ≠ s ∧ heapPages k t v := by
    intro t v hv hlt
    unfold heapPages heapBreak at hlt ⊢
    rw [hnext] at hlt
    by_cases hts : t = s
    · rw [if_pos hts, if_neg (Nat.lt_irrefl _)] at hlt
      exact absurd hlt (Nat.not_lt.mpr hv.1)
    · rw [if_neg hts] at hlt
      exact ⟨hts, hlt⟩
  have hnew : HeapInv (heapPages (Kernel.taskCreateUser I k priority).2)
      (newUser I k1 s priority f p) := by
    refine h.heap.newDir (s := s) hinv hmem ?_ ?_ (fun t hts => ?_) hpages
    · rw [← hphys]
      rfl
    · rw [htask, if_pos rfl]
    · rw [htask, if_neg hts]
  refine ⟨⟨?_, fun t => ?_⟩, ?_, Finset.Subset.trans hext.sub ?_⟩
  · rw [heq] at hret hnew ⊢
    exact hnew.mapUserStack 4 0x8FFFC000 hinv1 hdir (by decide) (by decide)
      (by rw [hown]; decide) s hret
  · rw [hnext]
    split
    · decide
    · exact h.brk t
  · rw [hnext, if_pos rfl]
  · change p.free ⊆ _
    rw [hfree]
    exact Finset.erase_subset _ _

theorem HeapOk.run (h : HeapOk k) (hinv : Inv I X k) (hrun : HeapRun I BreakSafe X k X' k') :
    Inv I X' k' ∧ HeapOk k' := by
  induction hrun with
  | refl => exact ⟨hinv, h⟩
  | create _ _ _ hret ih => exact ⟨(ih.1.taskCreateUser _).1, (ih.2.taskCreateUser ih.1 hret).1⟩
  | setBreak _ _ _ hs hc ih => exact ih.2.taskSetHeapBreak ih.1 hs hc
  | alloc _ hf ih => exact ⟨(ih.1.allocBlock hf).2, ih.2.setPmm _⟩
  | free _ ha ih => exact ⟨ih.1.release ha, ih.2.setPmm _⟩

/-! ### One page up and down -/

/-- The first page of a heap, with frames for it and for its table. -/
theorem breakSafe_onePage (hbrk : (k.tasks s).heapVirtNext = USER_HEAP_BASE)
    (hcard : 2 ≤ k.pmm.free.card) : BreakSafe k s 0x40000001 := by
  intro _ _
  have hcur : pageUp (heapBreak (k.tasks s)) = 0x40000000 := by
    rw [heapBreak, hbrk]
    decide
  rw [hcur]
  refine ⟨fun _ => Or.inr ⟨fun hlt => ?_, fun _ => Or.inl hcard⟩, fun hlt => absurd hlt (by decide)⟩
  change _ < 1 at hlt
  omega

section OnePage

variable (h : HeapOk k) (hinv : Inv I X k) (hs : k.HasDir s)

include hinv hs

theorem taskSetHeapBreak_onePage (hbrk : (k.tasks s).heapVirtNext = USER_HEAP_BASE)
    (hlen : (k.tasks s).ownedFrames.length < TASK_MAX_OWNED_FRAMES) (hcard : 2 ≤ k.pmm.free.card) :
    ∃ f ∈ k.pmm.free, ∃ k', (taskSetHeapBreak k s 0x40000001).2 = k' ∧
      walk k'.mem (k'.tasks s).pageDirectory 0x40000000 = some (f * 4096) ∧ k'.HasDir s ∧
      (k'.tasks s).heapVirtNext = 0x40000001 := by
  have hslot := (hinv.slot s hs).1
  have hcur : pageUp (heapBreak (k.tasks s)) = 0x40000000 := by
    rw [heapBreak, hbrk]
    decide
  rcases growPages_succ hinv hs 0x40000000 0 0x40000000 with
    ⟨hempty, -⟩ | ⟨f, p, hmem, hfree, ⟨-, heq⟩ | ⟨hge, -⟩⟩
  · simp [hempty] at hcard
  · obtain ⟨hpage, -, hlt⟩ := hinv.fresh_page hmem
    have hinvt : Inv I X (tracked k s f p) := hinv.track hmem hfree
    have hst := (hasDir_tracked k s f p s).mpr hs
    have hvlt : 0x40000000 < 2 ^ 32 := by decide
    have hwalk := hinvt.walk_mapped (hinvt.slot s hst).1 hst hlt hvlt hvlt rfl
    obtain ⟨-, hext, -⟩ := hinv.trackMap hs hmem hfree hvlt
    rw [growPages] at heq
    have hset : (taskSetHeapBreak k s 0x40000001).2 =
        (taskMapUserPage (tracked k s f p) s (f * 4096) 0x40000000 0x07).2.setTask s fun t =>
          { t with heapVirtNext := 0x40000001 } := by
      unfold taskSetHeapBreak
      rw [if_neg (by omega), Int.toNat_natCast]
      dsimp only
      rw [hcur, if_neg (by decide), if_pos (by decide),
        show (pageUp 0x40000001 - 0x40000000) / PMM_BLOCK_SIZE = 0 + 1 by decide, heq]
    rw [(extends_tracked (X := X) hfree).dir, pageOf_of_page hpage] at hwalk
    have hdir : ((taskSetHeapBreak k s 0x40000001).2.tasks s).pageDirectory =
        (k.tasks s).pageDirectory := by
      rw [hset, State.setTask_keeps Task.pageDirectory rfl, hext.dir]
    refine ⟨f, hmem, _, rfl, ?_, (State.hasDir_congr hdir).mpr hs, ?_⟩
    · rw [hdir, hset]
      exact hwalk
    · rw [hset, State.tasks_setTask, if_pos rfl]
  · omega

theorem Inv.unmapPageDir_full {virt : Nat} (hvirt : virt < 2 ^ 32) (hempty : k.pmm.free = ∅) :
    Kernel.unmapPageDir k.toPhys (k.tasks s).pageDirectory virt = k.toPhys := by
  have hspec := hinv.unmapPageDir_spec hs.isDir hvirt
  generalize Kernel.unmapPageDir k.toPhys (k.tasks s).pageDirectory virt = p at hspec
  cases hspec with
  | full => rfl
  | copied _ hmem _ => simp [hempty] at hmem

include h

/-- Without a free frame, giving up the only page of a heap frees its frame and leaves it
mapped. -/
theorem not_userHeapOwned_shrink (hbrk : (k.tasks s).heapVirtNext = 0x40000001)
    (hempty : k.pmm.free = ∅) {a : Nat} (hne : a ≠ 0x40000000)
    (hwalk : walk k.mem (k.tasks s).pageDirectory 0x40000000 = some a) :
    ¬ UserHeapOwned (taskSetHeapBreak k s 0x40000000).2 := by
  have hslot := (hinv.slot s hs).1
  have hcur : pageUp (heapBreak (k.tasks s)) = 0x40001000 := by
    rw [heapBreak, hbrk]
    decide
  have hheap : InHeap 0x40000000 := ⟨by decide, by decide⟩
  have hpages : heapPages k s 0x40000000 := by
    unfold heapPages
    rw [hcur]
    decide
  obtain ⟨b, l, hmine, hperm, heq⟩ := releasePages_succ h.heap hinv hs hheap (by decide) hpages 0
  obtain rfl : a = b := Option.some.inj (hwalk.symm.trans hmine.walk)
  have ha := h.heap.own s hs _ a hmine
  have hunmap := hinv.unmapPageDir_full hs (by decide : 0x40000000 < 2 ^ 32) hempty
  have hnew : pageUp 0x40000000 = 0x40000000 := by decide
  have hone : (0x40001000 - 0x40000000) / PMM_BLOCK_SIZE = 0 + 1 := rfl
  have hset : (taskSetHeapBreak k s 0x40000000).2 =
      (releasedPage k s 0x40000000 l a).setTask s fun t =>
        { t with heapVirtNext := 0x40000000 } := by
    unfold taskSetHeapBreak
    rw [if_neg (by omega), Int.toNat_natCast]
    dsimp only
    rw [hcur, hnew, if_neg (by decide), if_neg (by decide), if_pos (by decide)]
    dsimp only
    rw [hone, heq, releasePages]
  -- the memory is as before, and the frame is free
  obtain ⟨k', hk', hmem, hfree, hdir⟩ : ∃ k', (taskSetHeapBreak k s 0x40000000).2 = k' ∧
      k'.mem = k.mem ∧ k'.pmm.free = {a / 4096} ∧
      (k'.tasks s).pageDirectory = (k.tasks s).pageDirectory := by
    have hlt : a < 2 ^ 32 := (hinv.inUse (.own s a) ha).lt
    refine ⟨_, hset, ?_, ?_, ?_⟩
    · change (unmapPageDir k.toPhys (k.tasks s).pageDirectory 0x40000000).mem = _
      rw [hunmap]
    · change (Pmm.freeBlock
        (unmapPageDir k.toPhys (k.tasks s).pageDirectory 0x40000000).pmm a).free = _
      rw [hunmap, Pmm.free_freeBlock hlt, hempty]
      rfl
    · rw [State.setTask_keeps Task.pageDirectory rfl]
      exact untracked_keeps Task.pageDirectory _ s l a (fun _ => rfl) s
  rw [hk']
  intro howned
  have hused := (howned.owned s ((State.hasDir_congr hdir).mpr hs) 0x40000000 a hheap
    (by rw [hmem, hdir]; exact hwalk) (by
      rw [hmem, h.heap.ident _ hheap]
      exact fun heq => hne (Option.some.inj heq).symm)).1
  rw [hfree] at hused
  exact hused (Finset.mem_singleton.mpr rfl)

end OnePage

/-- The rest of the kernel can take every frame. -/
theorem HeapRun.drain : ∀ (n : Nat) {X' : Set Nat} {k' : State}, k'.pmm.free.card = n →
    HeapRun I C X k X' k' → Inv I X' k' → ∃ X'' p, HeapRun I C X k X'' { k' with pmm := p } ∧
      Inv I X'' { k' with pmm := p } ∧ p.free = ∅ := by
  intro n
  induction n with
  | zero => exact fun {X' k'} hcard hrun hinv =>
    ⟨X', k'.pmm, hrun, hinv, Finset.card_eq_zero.mp hcard⟩
  | succ n ih =>
    intro X' k' hcard hrun hinv
    cases hnext : k'.pmm.next with
    | none =>
      rw [Pmm.next_eq_none_iff.mp hnext] at hcard
      simp at hcard
    | some f =>
      obtain ⟨hfree, hinv'⟩ := hinv.allocBlock hnext
      have hcard' : k'.pmm.allocBlock.2.free.card = n := by
        rw [hfree, Finset.card_erase_of_mem (Pmm.next_mem hnext), hcard]
        rfl
      exact @ih _ { k' with pmm := k'.pmm.allocBlock.2 } hcard' (hrun.alloc hnext) hinv'

/-- A page is added, all frames are taken, and the page is given up. -/
theorem HeapOk.exists_drained (h : HeapOk k) (hinv : Inv I X k) (hs : k.HasDir s)
    (hbrk : (k.tasks s).heapVirtNext = USER_HEAP_BASE)
    (hlen : (k.tasks s).ownedFrames.length < TASK_MAX_OWNED_FRAMES) (hcard : 2 ≤ k.pmm.free.card)
    (hsub : k.pmm.free ⊆ Finset.Ico 0x600 0x1600) :
    ∃ X' k', HeapRun I (fun _ _ _ => True) X k X' k' ∧ ¬ UserHeapOwned k' := by
  obtain ⟨f, hf, k1, hk1, hwalk, hdir, hnext⟩ := taskSetHeapBreak_onePage hinv hs hbrk hlen hcard
  obtain ⟨hinv1, h1⟩ := h.taskSetHeapBreak hinv hs (breakSafe_onePage hbrk hcard)
  have hrun := (HeapRun.refl (I := I) (C := fun _ _ _ => True) (X := X)).setBreak s 0x40000001 hs
    trivial
  rw [hk1] at hinv1 h1 hrun
  obtain ⟨X', p, hrun', hinv2, hempty⟩ := hrun.drain _ rfl hinv1
  have hne : f * 4096 ≠ 0x40000000 := by
    have := Finset.mem_Ico.mp (hsub hf)
    omega
  exact ⟨X', _, hrun'.setBreak s 0x40000000 hdir trivial,
    not_userHeapOwned_shrink (h1.setPmm p) hinv2 hdir hnext hempty hne hwalk⟩

theorem heapOk_startState {p : Phys} (hid : (startState p).Ident) : HeapOk (startState p) := by
  have hnone := not_hasDir_startState p
  refine ⟨⟨fun v hv => hid v hv.lt (Nat.le_trans (by decide) hv.1), fun t ht => absurd ht (hnone t),
    fun t ht => absurd ht (hnone t), fun t ht => absurd ht (hnone t)⟩, fun t => ?_⟩
  unfold startState initMultitasking
  dsimp only
  rw [State.setTask_keeps Task.heapVirtNext rfl]
  exact Nat.zero_le _

/-- The state after the first creation, in which the rest of the kernel has no frames yet. -/
theorem heapOk_booted :
    HeapOk oneTask ∧ (oneTask.tasks 1).heapVirtNext = USER_HEAP_BASE ∧
      oneTask.pmm.free ⊆ Finset.Ico 0x600 0x1600 ∧
      (oneTask.tasks 1).ownedFrames.length < TASK_MAX_OWNED_FRAMES ∧ 2 ≤ oneTask.pmm.free.card := by
  rw [oneTask, created]
  have hcard := room_booted
  have hret := created_booted.1
  have hstart : HeapOk booted := heapOk_startState ident_booted
  obtain ⟨hok, hbrk, hsub⟩ := hstart.taskCreateUser inv_booted hret
  obtain ⟨-, -, -, -, -, -, -, hlen, -⟩ := (inv_booted.taskCreateUser 1).2 1 hret
  have hspace := inv_booted.userSpace 1 hret
  refine ⟨hok, hbrk, Finset.Subset.trans hsub ?_, ?_, ?_⟩
  · rw [toPhys_booted, ← free_bootPmm]
    exact built_bootPaging.building.sub
  · rw [hlen]
    decide
  · rw [hspace.card]
    omega

/-! ### The heaps over a run -/

/-- In every run in which every call of `task_set_heap_break` finds the memory it needs,
the heaps of all tasks show only frames of their own. -/
theorem userHeapOwned_of_run (hinv : Inv I X k) (h : HeapOk k)
    (hrun : HeapRun I BreakSafe X k X' k') :
    UserHeapOwned k' := by
  obtain ⟨hinv', h'⟩ := h.run hinv hrun
  exact h'.userHeapOwned hinv'

/-- The first page of the heap of the first task. -/
theorem userHeapOwned_of_run_booted :
    HeapRun smallImage BreakSafe ∅ oneTask ∅ (taskSetHeapBreak oneTask 1 0x40000001).2 ∧
      UserHeapOwned (taskSetHeapBreak oneTask 1 0x40000001).2 := by
  obtain ⟨hok, hbrk, -, -, hcard⟩ := heapOk_booted
  have hrun : HeapRun smallImage BreakSafe ∅ oneTask ∅
      (taskSetHeapBreak oneTask (1 : Nat) 0x40000001).2 :=
    HeapRun.refl.setBreak 1 0x40000001 created_booted.2.hasDir (breakSafe_onePage hbrk hcard)
  exact ⟨hrun, userHeapOwned_of_run created_booted.2.inv hok hrun⟩

/-- One page is added to a heap, the rest of the kernel takes all frames, and the break is
set back: the page stays mapped, and its frame is free. -/
theorem exists_run_not_userHeapOwned :
    ∃ X k, HeapRun smallImage (fun _ _ _ => True) ∅ oneTask X k ∧ ¬ UserHeapOwned k := by
  obtain ⟨hok, hbrk, hsub, hlen, hcard⟩ := heapOk_booted
  exact hok.exists_drained created_booted.2.inv created_booted.2.hasDir hbrk hlen hcard hsub

end Crusadia.Kernel
