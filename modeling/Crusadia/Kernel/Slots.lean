import Crusadia.Kernel.Model

/-!
# Crusadia.Kernel.Slots

The **life of a task slot**: created, started or aborted by its loader, ended by
`task_exit` or by a fault, and only then handed out again.

`Slots` runs the kernel's functions beside a record of the phase each slot is in as its
creator knows it. `task_create_user` leaves the slot in state `TASK_DEAD` until
`task_start_user`, so `find_dead_slot` cannot tell a slot under construction from a
vacant one: a second creation gets it as well (`Slots.two_loaders_share`), unless a vacant
slot lies below it (`Slots.handedOut_vacant_iff`).
-/

namespace Crusadia.Kernel

theorem slot_ok {s n : Nat} (h : s < n) : ¬ ((s : Int) < 0 ∨ (s : Int) ≥ n) := by
  omega

theorem taskMapUserPage_tasks (k : State) (slot : Int) (phys virt flags : Nat) :
    (taskMapUserPage k slot phys virt flags).2.numTasks = k.numTasks ∧
      (taskMapUserPage k slot phys virt flags).2.tasks = k.tasks := by
  unfold taskMapUserPage
  dsimp only
  split
  · exact ⟨rfl, rfl⟩
  · split <;> exact ⟨rfl, rfl⟩

theorem taskTrackFrames_eq {k : State} {s : Nat} (hs : s < k.numTasks) (frames : List Nat)
    (hlen : (k.tasks s).ownedFrames.length + frames.length ≤ TASK_MAX_OWNED_FRAMES) :
    taskTrackFrames k s frames =
      (true, k.setTask s fun t => { t with ownedFrames := t.ownedFrames ++ frames }) := by
  unfold taskTrackFrames
  rw [if_neg (slot_ok hs), Int.toNat_natCast]
  exact if_neg (Nat.not_lt.mpr hlen)

/-! ### What the functions do to states -/

/-- The task count and the state of every slot are the same. -/
structure SameStates (k k' : State) : Prop where
  num : k'.numTasks = k.numTasks
  state : ∀ s, (k'.tasks s).state = (k.tasks s).state

namespace SameStates

theorem refl (k : State) : SameStates k k := ⟨rfl, fun _ => rfl⟩

theorem trans {a b c : State} (h1 : SameStates a b) (h2 : SameStates b c) : SameStates a c :=
  ⟨h2.num.trans h1.num, fun s => (h2.state s).trans (h1.state s)⟩

theorem phys (k : State) (p : Phys) : SameStates k { k with toPhys := p } :=
  ⟨rfl, fun _ => rfl⟩

theorem setTask (k : State) (s : Nat) {f : Task → Task}
    (h : (f (k.tasks s)).state = (k.tasks s).state) : SameStates k (k.setTask s f) :=
  ⟨rfl, fun t => by
    rw [State.state_setTask]
    split
    · rename_i ht
      rw [ht, h]
    · rfl⟩

theorem freeTaskAddressSpace (k : State) (s : Nat) :
    SameStates k (freeTaskAddressSpace k s) := by
  unfold Kernel.freeTaskAddressSpace
  dsimp only
  split
  · exact refl k
  · exact (phys k ⟨k.mem, _⟩).trans (setTask _ s rfl)

theorem taskTrackFrames (k : State) (slot : Int) (frames : List Nat) :
    SameStates k (taskTrackFrames k slot frames).2 := by
  unfold Kernel.taskTrackFrames
  split
  · exact refl k
  · dsimp only
    split
    · exact refl k
    · dsimp only
      exact setTask k _ rfl

theorem taskMapUserPage (k : State) (slot : Int) (phys virt flags : Nat) :
    SameStates k (taskMapUserPage k slot phys virt flags).2 :=
  have h := taskMapUserPage_tasks k slot phys virt flags
  ⟨h.1, fun s => by rw [h.2]⟩

/-- Aborting a task that is in state `TASK_DEAD` anyway. -/
theorem taskAbortUser {k : State} {s : Nat} (h : (k.tasks s).state = .dead) :
    SameStates k (taskAbortUser k s) := by
  have hfree := freeTaskAddressSpace k s
  unfold Kernel.taskAbortUser
  split
  · exact refl k
  · rw [Int.toNat_natCast]
    exact hfree.trans (setTask _ s ((hfree.state s).trans h).symm)

end SameStates

/-- The stack loop changes no state, and returns its slot unless it gives up. -/
theorem mapUserStack_states (s : Nat) : ∀ (n va : Nat) (k : State), (k.tasks s).state = .dead →
    SameStates k (mapUserStack s n va k).2 ∧
      ∀ t, (mapUserStack s n va k).1 = some t → t = s := by
  intro n
  induction n with
  | zero =>
    intro va k _
    exact ⟨SameStates.refl k, fun t h => (Option.some.inj h).symm⟩
  | succ n ih =>
    intro va k hk
    rw [mapUserStack]
    generalize k.pmm.allocBlock = r
    obtain ⟨frame, pmm⟩ := r
    dsimp only
    have h1 : SameStates k { k with pmm := pmm } := SameStates.phys k ⟨k.mem, pmm⟩
    split
    · exact ⟨h1.trans (SameStates.taskAbortUser ((h1.state s).trans hk)), fun t h => by simp at h⟩
    · have h2 := h1.trans (SameStates.taskTrackFrames { k with pmm := pmm } s [frame])
      generalize Kernel.taskTrackFrames { k with pmm := pmm } s [frame] = r at h2
      obtain ⟨tracked, k2⟩ := r
      dsimp only at h2 ⊢
      split
      · have h3 := h2.trans (SameStates.phys k2 ⟨k2.mem, k2.pmm.freeBlock frame⟩)
        exact ⟨h3.trans (SameStates.taskAbortUser ((h3.state s).trans hk)),
          fun t h => by simp at h⟩
      · have h3 := h2.trans (SameStates.taskMapUserPage k2 s frame va 0x07)
        obtain ⟨h4, hret⟩ := ih (va + PMM_BLOCK_SIZE) _ ((h3.state s).trans hk)
        exact ⟨h3.trans h4, hret⟩

/-- `find_dead_slot` returns a slot in state `TASK_DEAD`. -/
theorem findDeadSlot_eq_some {k : State} {s : Nat} (h : findDeadSlot k = some s) :
    s < k.numTasks ∧ (k.tasks s).state = .dead := by
  unfold findDeadSlot at h
  exact ⟨List.mem_range.mp (List.mem_of_find?_eq_some h), by simpa using List.find?_some h⟩

/-- A creation takes a dead slot, or the first one past the table. -/
theorem claimSlot_eq_some {k k' : State} {s : Nat} (h : claimSlot k = some (s, k')) :
    (findDeadSlot k = some s ∧ k' = k) ∨
      (findDeadSlot k = none ∧ s = k.numTasks ∧ k' = { k with numTasks := k.numTasks + 1 }) := by
  unfold claimSlot at h
  cases hf : findDeadSlot k with
  | some t =>
    rw [hf] at h
    simp only [Option.some.injEq, Prod.mk.injEq] at h
    exact Or.inl ⟨by rw [h.1], h.2.symm⟩
  | none =>
    rw [hf] at h
    dsimp only at h
    split at h
    · simp at h
    · simp only [Option.some.injEq, Prod.mk.injEq] at h
      exact Or.inr ⟨rfl, h.1.symm, h.2.symm⟩

/-- What a creation in slot `s` leaves: the slot is in the table, its state is `st`, and
the other slots are as they were. -/
structure Claimed (k : State) (s : Nat) (st : TaskState) (k' : State) : Prop where
  num : k'.numTasks = max k.numTasks (s + 1)
  self : (k'.tasks s).state = st
  other : ∀ t, t ≠ s → (k'.tasks t).state = (k.tasks t).state

variable {st : TaskState} {s : Nat} {k : State}

theorem Claimed.same {k' k'' : State} (h : Claimed k s st k') (h' : SameStates k' k'') :
    Claimed k s st k'' :=
  ⟨h'.num.trans h.num, (h'.state s).trans h.self,
    fun t ht => (h'.state t).trans (h.other t ht)⟩

theorem claimSlot_claimed {k' : State} (h : claimSlot k = some (s, k'))
    {f : Task → Task} (hf : ∀ t, (f t).state = st) :
    Claimed k s st (k'.setTask s f) := by
  have hself : ((k'.setTask s f).tasks s).state = st := by
    rw [State.state_setTask, if_pos rfl, hf]
  have hother : ∀ t, t ≠ s → ((k'.setTask s f).tasks t).state = (k'.tasks t).state :=
    fun t ht => by rw [State.state_setTask, if_neg ht]
  rcases claimSlot_eq_some h with ⟨hdead, rfl⟩ | ⟨-, rfl, rfl⟩
  · have hlt := (findDeadSlot_eq_some hdead).1
    exact ⟨by rw [State.numTasks_setTask]; omega, hself, hother⟩
  · exact ⟨by rw [State.numTasks_setTask]; dsimp only; omega, hself, hother⟩

/-- A creation by `task_create_user`: it fails with no slot, or claims one that stays in
state `TASK_DEAD` whether it succeeds or not. -/
theorem taskCreateUser_states (I : Image) (k : State) (priority : Nat) :
    (claimSlot k = none ∧ taskCreateUser I k priority = (none, k)) ∨
      ∃ s k1, claimSlot k = some (s, k1) ∧
        Claimed k s .dead (taskCreateUser I k priority).2 ∧
        ∀ t, (taskCreateUser I k priority).1 = some t → t = s := by
  unfold taskCreateUser
  cases hc : claimSlot k with
  | none => exact Or.inl ⟨rfl, rfl⟩
  | some r =>
    obtain ⟨s, k1⟩ := r
    refine Or.inr ⟨s, k1, rfl, ?_⟩
    dsimp only
    have h1 : Claimed k s .dead (k1.setTask s (Task.initUser I s priority)) :=
      claimSlot_claimed hc fun _ => rfl
    generalize k1.setTask s _ = k2 at h1 ⊢
    generalize cloneKernelPageDirectory k2.toPhys = r
    obtain ⟨dir, phys⟩ := r
    have h2 := h1.same (SameStates.phys k2 phys)
    dsimp only
    split
    · exact ⟨h2, fun t h => by simp at h⟩
    · have h3 := h2.same (SameStates.setTask _ s (f := fun t => { t with pageDirectory := dir })
        rfl)
      obtain ⟨h4, hret⟩ := mapUserStack_states s (USER_STACK_SIZE / PMM_BLOCK_SIZE)
        (USER_STACK_TOP - USER_STACK_SIZE) _ h3.self
      exact ⟨h3.same h4, hret⟩

/-- A creation by `create_task`: the slot ends up ready when it is returned, and dead when
no directory could be made. -/
theorem createTask_states (I : Image) (k : State) (entry priority : Nat) :
    (claimSlot k = none ∧ createTask I k entry priority = (none, k)) ∨
      ∃ s k1, claimSlot k = some (s, k1) ∧
        ((createTask I k entry priority).1 = none ∧
            Claimed k s .dead (createTask I k entry priority).2 ∨
          (createTask I k entry priority).1 = some s ∧
            Claimed k s .ready (createTask I k entry priority).2) := by
  unfold createTask
  cases hc : claimSlot k with
  | none => exact Or.inl ⟨rfl, rfl⟩
  | some r =>
    obtain ⟨s, k1⟩ := r
    refine Or.inr ⟨s, k1, rfl, ?_⟩
    dsimp only
    generalize pushWords k1.mem _ _ = r
    obtain ⟨mem, esp⟩ := r
    dsimp only
    have h1 : Claimed k s .ready ({ k1 with mem, nextPid := wrap (k1.nextPid + 1) }.setTask s
        (Task.initKernel I s esp k1.nextPid priority)) :=
      (claimSlot_claimed hc (f := Task.initKernel I s esp k1.nextPid priority) fun _ => rfl).same
        ⟨rfl, fun _ => rfl⟩
    generalize State.setTask _ s _ = k2 at h1 ⊢
    generalize cloneKernelPageDirectory k2.toPhys = r
    obtain ⟨dir, phys⟩ := r
    have h2 := h1.same (SameStates.phys k2 phys)
    dsimp only
    split
    · refine Or.inl ⟨rfl, h2.num, ?_, fun t ht => ?_⟩
      · rw [State.state_setTask, if_pos rfl]
      · rw [State.state_setTask, if_neg ht]
        exact h2.other t ht
    · refine Or.inr ⟨rfl, ?_⟩
      dsimp only
      exact h1.same ((SameStates.phys k2 _).trans (SameStates.setTask _ s rfl))

variable {I : Image}

theorem taskStartUser_states (hs : s < k.numTasks) (entry esp : Nat) :
    (taskStartUser I k s entry esp).numTasks = k.numTasks ∧
      ∀ t, ((taskStartUser I k s entry esp).tasks t).state =
        if t = s then .ready else (k.tasks t).state := by
  unfold taskStartUser
  rw [if_neg (slot_ok hs), Int.toNat_natCast]
  dsimp only
  generalize pushWords k.mem _ _ = r
  obtain ⟨mem, sp⟩ := r
  exact ⟨rfl, fun t => State.state_setTask _ _ _ t⟩

theorem taskAbortUser_states (hs : s < k.numTasks) :
    (taskAbortUser k s).numTasks = k.numTasks ∧
      ∀ t, ((taskAbortUser k s).tasks t).state = if t = s then .dead else (k.tasks t).state := by
  have hfree := SameStates.freeTaskAddressSpace k s
  unfold taskAbortUser
  rw [if_neg (slot_ok hs), Int.toNat_natCast]
  exact ⟨hfree.num, fun t => by rw [State.state_setTask, hfree.state t]⟩

theorem taskExit_states (k : State) :
    (taskExit k).numTasks = k.numTasks ∧
      ∀ t, ((taskExit k).tasks t).state =
        if t = k.currentTask then .dead else (k.tasks t).state := by
  have hfree := SameStates.freeTaskAddressSpace k k.currentTask
  exact ⟨hfree.num, fun t => by rw [taskExit, State.state_setTask, hfree.state t]⟩

/-- The scheduler brings no task back to life and ends none. -/
theorem scheduleHandler_states (k : State) (esp : Nat) :
    (scheduleHandler k esp).2.numTasks = k.numTasks ∧
      ∀ t, ((scheduleHandler k esp).2.tasks t).state = .dead ↔ (k.tasks t).state = .dead := by
  unfold scheduleHandler
  split
  · exact ⟨rfl, fun _ => Iff.rfl⟩
  · have h1 := SameStates.setTask k k.currentTask (f := fun t => { t with esp }) rfl
    generalize k.setTask k.currentTask _ = k1 at h1
    dsimp only
    split
    · exact ⟨h1.num, fun t => by rw [← h1.state t]⟩
    · dsimp only
      cases nextRunnable k1 k1.numTasks k1.currentTask with
      | some cur => exact ⟨h1.num, fun t => by rw [← h1.state t]⟩
      | none =>
        dsimp only
        split
        · rename_i h0
          refine ⟨h1.num, fun t => ?_⟩
          rw [← h1.state t]
          dsimp only
          rw [State.state_setTask]
          split
          · rename_i ht
            rw [ht]
            exact ⟨fun h => by simp at h, fun h => absurd h h0⟩
          · rfl
        · split
          · exact ⟨h1.num, fun t => by rw [← h1.state t]⟩
          · exact ⟨h1.num, fun t => by rw [← h1.state t]⟩

/-! ### Creations succeed while frames are left -/

/-- The frames free after are frames free before, and at most `c` of those are gone. -/
structure Takes (c : Nat) (p p' : Pmm) : Prop where
  sub : p'.free ⊆ p.free
  card : p.free.card ≤ p'.free.card + c

namespace Takes

theorem refl (c : Nat) (p : Pmm) : Takes c p p := ⟨Finset.Subset.refl _, by omega⟩

theorem trans {c d : Nat} {p p' p'' : Pmm} (h1 : Takes c p p') (h2 : Takes d p' p'') :
    Takes (c + d) p p'' :=
  ⟨h2.sub.trans h1.sub, by have := h1.card; have := h2.card; omega⟩

theorem alloc (p : Pmm) : Takes 1 p p.allocBlock.2 := by
  refine p.allocBlock_cases (fun hfree => ?_) fun f p' hnext hmem hfree => ?_
  · exact refl 1 p
  · constructor
    · rw [hfree]
      exact Finset.erase_subset _ _
    · rw [hfree, Finset.card_erase_of_mem hmem]
      omega

theorem protectTableFrame (s : Phys) (phys : Nat) :
    Takes 1 s.pmm (protectTableFrame s phys).pmm := by
  have halloc := alloc s.pmm
  unfold Kernel.protectTableFrame
  generalize s.pmm.allocBlock = r at halloc
  obtain ⟨t, pmm⟩ := r
  dsimp only at halloc ⊢
  split
  · exact refl 1 s.pmm
  · split
    · exact halloc
    · exact halloc

theorem mapPageDir (s : Phys) (dir phys virt flags : Nat) :
    Takes 2 s.pmm (mapPageDir s dir phys virt flags).pmm := by
  have halloc := alloc s.pmm
  unfold Kernel.mapPageDir
  generalize s.pmm.allocBlock = r at halloc
  obtain ⟨t, pmm⟩ := r
  dsimp only at halloc ⊢
  split
  · exact refl 2 s.pmm
  · split
    · exact halloc.trans (refl 1 pmm)
    · exact halloc.trans (protectTableFrame ⟨_, pmm⟩ t)

theorem unmapPageDir (s : Phys) (dir virt : Nat) : Takes 2 s.pmm (unmapPageDir s dir virt).pmm := by
  have halloc := alloc s.pmm
  unfold Kernel.unmapPageDir
  generalize s.pmm.allocBlock = r at halloc
  obtain ⟨t, pmm⟩ := r
  dsimp only at halloc ⊢
  split
  · split
    · exact halloc.trans (refl 1 pmm)
    · exact halloc.trans (protectTableFrame ⟨_, pmm⟩ t)
  · exact refl 2 s.pmm

theorem taskMapUserPage (k : State) (slot : Int) (phys virt flags : Nat) :
    Takes 4 k.pmm (taskMapUserPage k slot phys virt flags).2.pmm := by
  unfold Kernel.taskMapUserPage
  dsimp only
  split
  · exact refl 4 k.pmm
  · split
    · exact refl 4 k.pmm
    · exact (unmapPageDir k.toPhys _ _).trans (mapPageDir _ _ _ _ _)

end Takes

/-- With a free frame, and frame 0 in use, an allocation succeeds. -/
theorem allocBlock_ne_zero {p : Pmm} (h0 : 0 ∉ p.free) (hcard : 0 < p.free.card) :
    p.allocBlock.1 ≠ 0 := by
  refine p.allocBlock_cases (fun hfree => ?_) fun f p' hnext hmem hfree hf => ?_
  · simp [hfree] at hcard
  · exact h0 ((show f = 0 by simpa using hf) ▸ hmem)

/-- Five frames a page are enough for the user stack. -/
theorem mapUserStack_isSome : ∀ (n va : Nat) (k : State), s < k.numTasks →
    0 ∉ k.pmm.free → 5 * n ≤ k.pmm.free.card → (k.tasks s).ownedFrames.length + n ≤ 256 →
    (mapUserStack s n va k).1 = some s ∧
      Takes (5 * n) k.pmm (mapUserStack s n va k).2.pmm := by
  intro n
  induction n with
  | zero => exact fun va k _ _ _ _ => ⟨rfl, Takes.refl 0 k.pmm⟩
  | succ n ih =>
    intro va k hs h0 hcard howned
    have hne := allocBlock_ne_zero h0 (by omega)
    have halloc := Takes.alloc k.pmm
    rw [mapUserStack]
    generalize k.pmm.allocBlock = r at hne halloc
    obtain ⟨frame, pmm⟩ := r
    dsimp only at hne halloc ⊢
    have hlen : (k.tasks s).ownedFrames.length + 1 ≤ TASK_MAX_OWNED_FRAMES := by
      unfold TASK_MAX_OWNED_FRAMES
      omega
    rw [if_neg hne, taskTrackFrames_eq (k := { k with pmm }) hs [frame] hlen]
    dsimp only
    generalize hk2 : State.setTask _ s _ = k2
    have hlen2 : (k2.tasks s).ownedFrames.length = (k.tasks s).ownedFrames.length + 1 := by
      rw [← hk2, State.tasks_setTask, if_pos rfl, List.length_append]
      rfl
    have hsame := taskMapUserPage_tasks k2 s frame va 0x07
    have hmap := Takes.taskMapUserPage k2 s frame va 0x07
    have htakes : Takes 5 k.pmm (taskMapUserPage k2 s frame va 0x07).2.pmm := by
      rw [← hk2] at hmap ⊢
      exact halloc.trans hmap
    have hcard' := htakes.card
    obtain ⟨hret, hrest⟩ := ih (va + PMM_BLOCK_SIZE) _ (by rw [hsame.1, ← hk2]; exact hs)
      (fun h => h0 (htakes.sub h)) (by omega) (by rw [hsame.2, hlen2]; omega)
    refine ⟨by simpa using hret, ?_⟩
    have := htakes.trans hrest
    rw [show 5 + 5 * n = 5 * (n + 1) by omega] at this
    simpa using this

/-- `task_create_user` succeeds when there is a slot and 22 frames are free. -/
theorem taskCreateUser_isSome {k1 : State} (hc : claimSlot k = some (s, k1))
    (h0 : 0 ∉ k.pmm.free) (hcard : 22 ≤ k.pmm.free.card) (priority : Nat) :
    (taskCreateUser I k priority).1 = some s ∧
      Takes 22 k.pmm (taskCreateUser I k priority).2.pmm := by
  have hk1 : k1.toPhys = k.toPhys ∧ s < k1.numTasks := by
    rcases claimSlot_eq_some hc with ⟨hdead, rfl⟩ | ⟨-, rfl, rfl⟩
    · exact ⟨rfl, (findDeadSlot_eq_some hdead).1⟩
    · exact ⟨rfl, Nat.lt_succ_self _⟩
  unfold taskCreateUser
  rw [hc]
  dsimp only
  generalize hk2 : k1.setTask s (Task.initUser I s priority) = k2
  have hphys : k2.toPhys = k.toPhys := by rw [← hk2, ← hk1.1]; rfl
  have hlen : (k2.tasks s).ownedFrames = [] := by
    rw [← hk2, State.tasks_setTask, if_pos rfl]
    rfl
  have hnum : k2.numTasks = k1.numTasks := by rw [← hk2]; rfl
  have hne := allocBlock_ne_zero h0 (by omega)
  have hclone : Takes 2 k.pmm (cloneKernelPageDirectory k2.toPhys).2.pmm ∧
      (cloneKernelPageDirectory k2.toPhys).1 ≠ 0 := by
    have halloc := Takes.alloc k.pmm
    rw [hphys, cloneKernelPageDirectory]
    generalize k.pmm.allocBlock = r at hne halloc
    obtain ⟨dir, pmm⟩ := r
    dsimp only at hne halloc ⊢
    rw [if_neg hne]
    exact ⟨halloc.trans (Takes.protectTableFrame ⟨_, pmm⟩ dir), hne⟩
  generalize cloneKernelPageDirectory k2.toPhys = r at hclone
  obtain ⟨dir, phys⟩ := r
  dsimp only at hclone ⊢
  rw [if_neg hclone.2]
  generalize hk3 : State.setTask _ s _ = k3
  have hphys3 : k3.toPhys = phys := by rw [← hk3]; rfl
  have hcard3 := hclone.1.card
  rw [← hphys3] at hcard3
  obtain ⟨hret, htakes⟩ := mapUserStack_isSome 4 (USER_STACK_TOP - USER_STACK_SIZE) k3 (s := s)
    (by rw [← hk3, State.numTasks_setTask, hnum]; exact hk1.2)
    (by rw [hphys3]; exact fun h => h0 (hclone.1.sub h)) (by omega)
    (by rw [← hk3, State.tasks_setTask, if_pos rfl]; dsimp only; rw [hlen]; decide)
  rw [hphys3] at htakes
  exact ⟨hret, hclone.1.trans htakes⟩

/-! ### Runs -/

/-- Where a slot is in its life: nobody's, created and not yet started, or started. -/
inductive Phase
  | vacant
  | building
  | started
  deriving Repr, DecidableEq

/-- The kernel, and the phase of every slot. -/
structure Slots where
  k : State
  phase : Nat → Phase

namespace Slots

/-- What happens to task slots. `other` stands for everything else that allocates and
frees frames and writes memory. -/
inductive Event
  | createUser (priority : Nat)
  | createTask (entry priority : Nat)
  | start (s entry esp : Nat)
  | abort (s : Nat)
  | exit
  | kill
  | schedule (esp : Nat)
  | other (phys : Phys)

/-- The slot becomes `ph` if one was returned. -/
def note (phase : Nat → Phase) (ph : Phase) : Option Nat → Nat → Phase
  | some s => Function.update phase s ph
  | none => phase

/-- One event: the slot a creation returns, and the state after it. -/
def step (I : Image) (σ : Slots) : Event → Option Nat × Slots
  | .createUser priority =>
    let r := taskCreateUser I σ.k priority
    (r.1, ⟨r.2, note σ.phase .building r.1⟩)
  | .createTask entry priority =>
    let r := Kernel.createTask I σ.k entry priority
    (r.1, ⟨r.2, note σ.phase .started r.1⟩)
  | .start s entry esp =>
    (none, ⟨taskStartUser I σ.k s entry esp, Function.update σ.phase s .started⟩)
  | .abort s => (none, ⟨taskAbortUser σ.k s, Function.update σ.phase s .vacant⟩)
  | .exit => (none, ⟨taskExit σ.k, Function.update σ.phase σ.k.currentTask .vacant⟩)
  | .kill => (none, ⟨killTask σ.k, Function.update σ.phase σ.k.currentTask .vacant⟩)
  | .schedule esp => (none, ⟨(scheduleHandler σ.k esp).2, σ.phase⟩)
  | .other phys => (none, ⟨{ σ.k with toPhys := phys }, σ.phase⟩)

/-- A loader starts or aborts only a task it has created and not started, and only a
started task ends. -/
def Allowed (σ : Slots) : Event → Prop
  | .start s _ _ | .abort s => σ.phase s = .building
  | .exit | .kill => σ.phase σ.k.currentTask = .started
  | _ => True

/-- Before a creation, every slot under construction has a vacant one below it. -/
def Clear (σ : Slots) : Event → Prop
  | .createUser _ | .createTask _ _ =>
    ∀ s, σ.phase s = .building → ∃ t, t < s ∧ σ.phase t = .vacant
  | _ => True

/-- The slots after `init_multitasking`: slot 0 runs, the others are vacant. -/
def boot (k : State) : Slots := ⟨initMultitasking k, Function.update (fun _ => .vacant) 0 .started⟩

/-- The states a system reaches from boot by allowed events, if every slot under construction
has a vacant one below it whenever a task is created. -/
inductive Run (I : Image) : Slots → Prop
  | boot (k : State) : Run I (boot k)
  | step {σ : Slots} (e : Event) (hrun : Run I σ) (hallow : σ.Allowed e) (hclear : σ.Clear e) :
      Run I (σ.step I e).2

/-- Slots that are not vacant lie in the table, and those of the table that are in state
`TASK_DEAD` are the ones whose task has not started. -/
structure Inv (σ : Slots) : Prop where
  lt : ∀ s, σ.phase s ≠ .vacant → s < σ.k.numTasks
  dead : ∀ s, s < σ.k.numTasks → ((σ.k.tasks s).state = .dead ↔ σ.phase s ≠ .started)

variable {σ : Slots}

/-- A creation claims the lowest slot that is not started. -/
theorem Inv.claims (h : σ.Inv) {k1 : State} (hc : claimSlot σ.k = some (s, k1)) :
    s ≤ σ.k.numTasks ∧ σ.phase s ≠ .started ∧ ∀ t, t < s → σ.phase t = .started := by
  have hlive : ∀ t, t < σ.k.numTasks → (σ.k.tasks t).state ≠ .dead → σ.phase t = .started :=
    fun t ht hst => not_not.mp fun hp => hst ((h.dead t ht).mpr hp)
  rcases claimSlot_eq_some hc with ⟨hdead, -⟩ | ⟨hnone, rfl, -⟩
  · obtain ⟨hlt, hst⟩ := findDeadSlot_eq_some hdead
    refine ⟨hlt.le, (h.dead s hlt).mp hst, fun t ht => hlive t (ht.trans hlt) ?_⟩
    rw [findDeadSlot, List.find?_range_eq_some] at hdead
    simpa using hdead.2.2 t ht
  · refine ⟨Nat.le_refl _, fun hp => ?_, fun t ht => hlive t ht ?_⟩
    · exact Nat.lt_irrefl _ (h.lt _ (by simp [hp]))
    · rw [findDeadSlot, List.find?_eq_none] at hnone
      simpa using hnone t (List.mem_range.mpr ht)

/-- The slot a creation claims is vacant exactly if every slot under construction has a vacant
one below it. -/
theorem Inv.vacant_iff (h : σ.Inv) {k1 : State} (hc : claimSlot σ.k = some (s, k1)) :
    σ.phase s = .vacant ↔ ∀ t, σ.phase t = .building → ∃ u, u < t ∧ σ.phase u = .vacant := by
  obtain ⟨hle, hns, hbelow⟩ := h.claims hc
  constructor
  · intro hv t ht
    refine ⟨s, ?_, hv⟩
    by_contra hge
    obtain rfl | hlt := (not_lt.mp hge).eq_or_lt
    · rw [ht] at hv
      cases hv
    · rw [hbelow t hlt] at ht
      cases ht
  · intro hclear
    cases hp : σ.phase s with
    | vacant => rfl
    | building =>
      obtain ⟨u, hu, hv⟩ := hclear s hp
      rw [hbelow u hu] at hv
      cases hv
    | started => exact absurd hp hns

/-- A creation by the state and the phase the slot gets. -/
theorem Inv.claimed (h : σ.Inv) (hs : s ≤ σ.k.numTasks) {k' : State}
    (hk : Claimed σ.k s st k') {phase : Nat → Phase} (hother : ∀ t, t ≠ s → phase t = σ.phase t)
    (hself : st = .dead ↔ phase s ≠ .started) : Inv ⟨k', phase⟩ := by
  have hnum := hk.num
  refine ⟨fun t ht => ?_, fun t ht => ?_⟩
  · dsimp only at ht ⊢
    by_cases hts : t = s
    · omega
    · have := h.lt t (hother t hts ▸ ht)
      omega
  · dsimp only at ht ⊢
    by_cases hts : t = s
    · rw [hts, hk.self]
      exact hself
    · rw [hk.other t hts, hother t hts]
      exact h.dead t (by omega)

/-- An event that only moves slot `s` of the table to phase `ph` and state `st`. -/
theorem Inv.move (h : σ.Inv) {k' : State} {ph : Phase} (hnum : k'.numTasks = σ.k.numTasks)
    (hs : s < σ.k.numTasks)
    (hstate : ∀ t, (k'.tasks t).state = if t = s then st else (σ.k.tasks t).state)
    (hph : st = .dead ↔ ph ≠ .started) : Inv ⟨k', Function.update σ.phase s ph⟩ := by
  have hk : Claimed σ.k s st k' :=
    ⟨by omega, (hstate s).trans (if_pos rfl), fun t ht => (hstate t).trans (if_neg ht)⟩
  refine h.claimed hs.le hk (fun t ht => Function.update_of_ne ht _ _) ?_
  rw [Function.update_self]
  exact hph

theorem Inv.boot (k : State) : (boot k).Inv := by
  refine ⟨fun s hs => ?_, fun s hs => ?_⟩
  · obtain rfl : s = 0 := by_contra fun h => hs (by simp [Slots.boot, h])
    exact Nat.one_pos
  · obtain rfl : s = 0 := Nat.lt_one_iff.mp hs
    simp [Slots.boot, initMultitasking, State.setTask]

/-- Every allowed event keeps the invariant. -/
theorem Inv.step (h : σ.Inv) (e : Event) (hallow : σ.Allowed e) : (σ.step I e).2.Inv := by
  cases e with
  | createUser priority =>
    dsimp only [Slots.step]
    rcases taskCreateUser_states I σ.k priority with ⟨-, hr⟩ | ⟨s, k1, hc, hk, hret⟩
    · rw [hr]
      exact h
    · obtain ⟨hs, hns, -⟩ := h.claims hc
      generalize taskCreateUser I σ.k priority = r at hk hret
      obtain ⟨r, k'⟩ := r
      cases r with
      | none => exact h.claimed hs hk (fun _ _ => rfl) (iff_of_true rfl hns)
      | some t =>
        have ht := hret t rfl
        subst ht
        exact h.claimed hs hk (fun _ hu => Function.update_of_ne hu _ _) (by simp [note])
  | createTask entry priority =>
    dsimp only [Slots.step]
    rcases createTask_states I σ.k entry priority with ⟨-, hr⟩ | ⟨s, k1, hc, hk⟩
    · rw [hr]
      exact h
    · obtain ⟨hs, hns, -⟩ := h.claims hc
      generalize Kernel.createTask I σ.k entry priority = r at hk
      obtain ⟨r, k'⟩ := r
      rcases hk with ⟨hr, hk⟩ | ⟨hr, hk⟩
      · dsimp only at hr
        subst hr
        exact h.claimed hs hk (fun _ _ => rfl) (iff_of_true rfl hns)
      · dsimp only at hr
        subst hr
        exact h.claimed hs hk (fun _ hu => Function.update_of_ne hu _ _) (by simp [note])
  | start s entry esp =>
    have hlt := h.lt s (by simp [show σ.phase s = .building from hallow])
    obtain ⟨hnum, hstate⟩ := taskStartUser_states (I := I) hlt entry esp
    exact h.move hnum hlt hstate (by simp)
  | abort s =>
    have hlt := h.lt s (by simp [show σ.phase s = .building from hallow])
    obtain ⟨hnum, hstate⟩ := taskAbortUser_states hlt
    exact h.move hnum hlt hstate (by simp)
  | exit =>
    have hlt := h.lt σ.k.currentTask (by simp [show σ.phase _ = .started from hallow])
    obtain ⟨hnum, hstate⟩ := taskExit_states σ.k
    exact h.move hnum hlt hstate (by simp)
  | kill =>
    have hlt := h.lt σ.k.currentTask (by simp [show σ.phase _ = .started from hallow])
    exact h.move rfl hlt (fun t => State.state_setTask _ _ _ t) (by simp)
  | schedule esp =>
    obtain ⟨hnum, hstate⟩ := scheduleHandler_states σ.k esp
    exact ⟨fun s hs => hnum.symm ▸ h.lt s hs, fun s hs => (hstate s).trans (h.dead s (hnum ▸ hs))⟩
  | other phys => exact ⟨h.lt, h.dead⟩

theorem Run.inv (h : Run I σ) : σ.Inv := by
  induction h with
  | boot k => exact Inv.boot k
  | step e _ hallow _ ih => exact ih.step e hallow

/-- **Slots are handed out once**, as long as every slot under construction has a vacant one
below it when a task is created; the first creation that finds this otherwise and succeeds
returns a slot that is under construction. A vacant slot is one whose last task was aborted or
has died, or that was never used. -/
theorem handedOut_vacant_iff (h : Run I σ) (e : Event) (s : Nat)
    (hret : (σ.step I e).1 = some s) : σ.phase s = .vacant ↔ σ.Clear e := by
  have hinv := h.inv
  cases e with
  | createUser priority =>
    dsimp only [Slots.step] at hret
    rcases taskCreateUser_states I σ.k priority with ⟨-, hr⟩ | ⟨t, k₁, hc, -, ht⟩
    · rw [hr] at hret
      simp at hret
    · rw [ht s hret]
      exact hinv.vacant_iff hc
  | createTask entry priority =>
    dsimp only [Slots.step] at hret
    rcases createTask_states I σ.k entry priority with ⟨-, hr⟩ | ⟨t, k₁, hc, hk⟩
    · rw [hr] at hret
      simp at hret
    · have ht : t = s := by
        rcases hk with ⟨hr, -⟩ | ⟨hr, -⟩
        · exact absurd (hr.symm.trans hret) (by simp)
        · exact Option.some.inj (hr.symm.trans hret)
      rw [← ht]
      exact hinv.vacant_iff hc
  | start s entry esp => simp [Slots.step] at hret
  | abort s => simp [Slots.step] at hret
  | exit => simp [Slots.step] at hret
  | kill => simp [Slots.step] at hret
  | schedule esp => simp [Slots.step] at hret
  | other phys => simp [Slots.step] at hret

/-! ### Two loaders -/

/-- A task slot as the loader leaves it: zero. -/
def zeroTask : Task := ⟨0, 0, .ready, 0, 0, 0, false, [], ⟨0, 0⟩, 0⟩

/-- A kernel before `init_multitasking`, with every frame free but frame 0. -/
def freshState : State :=
  ⟨⟨fun _ => 0, fun i => if i = 0 then 1 else 0, 1, ⟨0, Pmm.zero_lt⟩⟩, fun _ => zeroTask, 0,
    0, 0, 0⟩

theorem freshState_free : 0 ∉ freshState.pmm.free ∧ 44 ≤ freshState.pmm.free.card := by
  constructor
  · intro h
    exact absurd (Pmm.mem_free.mp h).2 (by decide)
  · have hsub : Finset.Icc 1 44 ⊆ freshState.pmm.free := by
      intro f hf
      rw [Finset.mem_Icc] at hf
      have htest : ∀ f, 1 ≤ f → f ≤ 44 → freshState.pmm.bitmapTest f = false := by decide
      exact Pmm.mem_free.mpr ⟨by have : PMM_MAX_BLOCKS = 1048576 := rfl; omega, htest f hf.1 hf.2⟩
    calc 44 = (Finset.Icc 1 44).card := by decide
      _ ≤ _ := Finset.card_le_card hsub

/-- The first creation after boot finds no dead slot and takes slot 1. -/
theorem claimSlot_boot (k : State) : ∃ k1, claimSlot (boot k).k = some (1, k1) := by
  have hstate : ((boot k).k.tasks 0).state = .running := by
    simp [boot, initMultitasking, State.setTask]
  have hdead : findDeadSlot (boot k).k = none := by
    rw [findDeadSlot, show (boot k).k.numTasks = 1 from rfl]
    simp [List.range_succ, hstate]
  refine ⟨{ (boot k).k with numTasks := 2 }, ?_⟩
  rw [claimSlot, hdead]
  rfl

theorem handedOut_vacant_boot :
    ((boot freshState).step smallImage (.createUser 1)).1 = some 1 ∧
      (boot freshState).Clear (.createUser 1) ∧ (boot freshState).phase 1 = .vacant := by
  obtain ⟨k₁, hc⟩ := claimSlot_boot freshState
  have hret : ((boot freshState).step smallImage (.createUser 1)).1 = some 1 :=
    (taskCreateUser_isSome hc freshState_free.1
      (Nat.le_trans (by decide) freshState_free.2) 1).1
  have hclear : (boot freshState).Clear (.createUser 1) := by
    rintro s hs
    by_cases h0 : s = 0 <;> simp [boot, h0] at hs
  exact ⟨hret, hclear, (handedOut_vacant_iff (Run.boot freshState) _ 1 hret).mpr hclear⟩

/-- A second loader that creates its task before the first has started gets the same
slot: it is still in state `TASK_DEAD`. -/
theorem two_loaders_share :
    ((boot freshState).step smallImage (.createUser 1)).1 = some 1 ∧
      ((boot freshState).step smallImage (.createUser 1)).2.phase 1 = .building ∧
      (((boot freshState).step smallImage (.createUser 1)).2.step smallImage (.createUser 1)).1 =
        some 1 := by
  obtain ⟨k₁, hc⟩ := claimSlot_boot freshState
  obtain ⟨hret, htakes⟩ := taskCreateUser_isSome (I := smallImage) hc freshState_free.1
    (Nat.le_trans (by decide) freshState_free.2) 1
  have hstates := taskCreateUser_states smallImage (boot freshState).k 1
  dsimp only [step]
  generalize taskCreateUser smallImage (boot freshState).k 1 = r at hret htakes hstates
  obtain ⟨r, k⟩ := r
  dsimp only at hret htakes hstates ⊢
  subst hret
  refine ⟨rfl, by simp [note], ?_⟩
  rcases hstates with ⟨hnone, -⟩ | ⟨s, k₂, hc₂, hk, hs⟩
  · rw [hc] at hnone
    simp at hnone
  · have hs1 := hs 1 rfl
    subst hs1
    have hnum : k.numTasks = 2 := hk.num
    have h0 : (k.tasks 0).state = .running := by
      rw [hk.other 0 (by decide)]
      simp [boot, initMultitasking, State.setTask]
    have hdead : findDeadSlot k = some 1 := by
      rw [findDeadSlot, hnum]
      simp [List.range_succ, h0, hk.self]
    have hc' : claimSlot k = some (1, k) := by rw [claimSlot, hdead]
    have hcard := htakes.card
    have hfresh := freshState_free.2
    exact (taskCreateUser_isSome hc' (fun h => freshState_free.1 (htakes.sub h))
      (by change freshState.pmm.free.card ≤ _ at hcard; omega) 1).1

end Slots

end Crusadia.Kernel
