import Crusadia.Kernel.InitPaging

/-!
# Crusadia.Kernel.Run

The **runs of the kernel** from `init_paging` on, and what a user mapping does in them.

`Reach` is the system: tasks are created, started, aborted and scheduled, they exit or
are killed, pages are mapped, and the rest of the kernel takes and returns frames and
writes to memory that is its own. Every state it reaches satisfies the invariant of the
address spaces (`Reach.inv`). A mapping is confined to its page exactly when it is safe
(`touchesOnly_taskMapUserPage_iff`), and of use to user code exactly in the regions whose
directory entry got the user bit while `init_paging` ran
(`userWritable_taskMapUserPage_iff`).
-/

namespace Crusadia.Kernel

variable {I : Image} {X : Set Nat} {k k0 : State} {s virt phys : Nat}

/-! ### Boot -/

/-- The task table as the loader leaves it, and `init_multitasking`. -/
def startState (p : Phys) : State := initMultitasking ⟨p, fun _ => Slots.zeroTask, 0, 0, 0, 0⟩

/-- The first creation takes slot 1. -/
theorem claimSlot_startState (p : Phys) : ∃ k1, claimSlot (startState p) = some (1, k1) :=
  Slots.claimSlot_boot ⟨p, fun _ => Slots.zeroTask, 0, 0, 0, 0⟩

theorem not_hasDir_startState (p : Phys) (t : Nat) : ¬ (startState p).HasDir t := by
  rintro ⟨h0, hk⟩
  by_cases ht : t = 0
  · simp [startState, initMultitasking, State.setTask, ht] at hk
  · simp [startState, initMultitasking, State.setTask, ht, Slots.zeroTask] at h0

theorem ownedFrames_startState (p : Phys) (t : Nat) :
    ((startState p).tasks t).ownedFrames = [] := by
  by_cases ht : t = 0
  · simp [startState, initMultitasking, State.setTask, ht, Slots.zeroTask]
  · simp [startState, initMultitasking, State.setTask, ht, Slots.zeroTask]

/-- The address spaces are in order after `init_paging` and `init_multitasking`. -/
theorem Built.inv {F : Finset Nat} {c : Nat} {p : Phys} (hF : Usable F) (h : Built F c p)
    (habove : ∀ f ∈ F, I.kernelEnd ≤ f * 4096) : Inv I ∅ (startState p) := by
  have htable : ∀ i, i < 1024 → ∃ f ∈ F, f ∉ p.pmm.free ∧ p.ktab i = f * 4096 := fun i hi =>
    h.building.table i hi (h.complete i hi)
  have hlive : ∀ o : Obj, o.Live ∅ (startState p) → o = .kdir ∨ ∃ i, i < 1024 ∧ o = .ktab i := by
    intro o ho
    cases o with
    | kdir => exact Or.inl rfl
    | ktab i => exact Or.inr ⟨i, ho, rfl⟩
    | dir t => exact absurd ho (not_hasDir_startState p t)
    | tab t i => exact absurd ho.1 (not_hasDir_startState p t)
    | own t a =>
      have ha : a ∈ ((startState p).tasks t).ownedFrames := ho
      rw [ownedFrames_startState] at ha
      simp at ha
    | ext a => exact absurd ho (Set.notMem_empty a)
  have hdir : 16 ∉ F := fun hf => by
    have := (hF 16 hf).1
    omega
  refine ⟨⟨fun t => by rw [ownedFrames_startState]; exact List.nodup_nil, fun i hi => ?_,
    fun t ht => absurd ht (not_hasDir_startState p t),
      fun t ht => absurd ht (not_hasDir_startState p t),
    (by decide : 1 ≤ MAX_TASKS)⟩, fun o ho => ?_, fun o o' ho ho' haddr => ?_,
    fun f hf => habove f (h.building.sub hf)⟩
  · rcases h.building.flags i hi (h.complete i hi) with hfl | ⟨hfl, -⟩
    · exact Or.inl hfl
    · exact Or.inr hfl
  · rcases hlive o ho with rfl | ⟨i, hi, rfl⟩
    · have hframe : pageDirectory / 4096 ∉ p.pmm.free := fun hf => hdir (h.building.sub hf)
      exact ⟨page_pageDirectory, (by decide : pageDirectory < 2 ^ 32), Or.inl rfl, hframe⟩
    · obtain ⟨f, hf, hfree, heq⟩ := htable i hi
      obtain ⟨hpage, -, hlt, -⟩ := hF.page hf
      have haddr : (Obj.ktab i).addr (startState p) = f * 4096 := heq
      rw [haddr]
      refine ⟨hpage, hlt, Or.inr (habove f hf), ?_⟩
      rw [Nat.mul_div_cancel _ (by decide)]
      exact hfree
  · rcases hlive o ho with rfl | ⟨i, hi, rfl⟩ <;> rcases hlive o' ho' with rfl | ⟨j, hj, rfl⟩
    · rfl
    · exact absurd haddr (h.building.ktab_page hF hj (h.complete j hj))
    · exact absurd haddr.symm (h.building.ktab_page hF hi (h.complete i hi))
    · rw [h.building.apart i j hi hj (h.complete i hi) (h.complete j hj) haddr]

/-! ### Frames and memory of others -/

/-- Somebody gives a frame back. -/
theorem Inv.release (h : Inv I X k) {a : Nat} (ha : a ∈ X) :
    Inv I (X \ {a}) { k with pmm := k.pmm.freeBlock a } := by
  have hlive : (Obj.ext a).Live X k := ha
  have hused := fun o ho => h.used_freeBlock (o := o) hlive ho
  have habove := h.above_freeBlock hlive (by simp)
  refine h.restrict Set.sdiff_subset (fun _ _ _ _ => rfl) (fun t ht => ⟨ht, rfl, rfl⟩)
    (fun t => ⟨List.Subset.refl _, h.nodup t⟩) (fun o ho hold => hused o hold ?_) habove
    (Nat.le_refl _) h.num
  intro heq
  rw [heq] at ho
  exact ho.2 rfl

/-- Stores to frames that hold data, and inside the kernel image. -/
theorem Inv.store (h : Inv I X k) {m : Mem}
    (hm : ∀ b, m b ≠ k.mem b → 0x100000 ≤ b ∧ b < I.kernelEnd ∨
      ∃ a, k.Data X a ∧ b / 4096 = a / 4096) : Inv I X { k with mem := m } := by
  refine h.mem_congr (p := ⟨m, k.pmm⟩) (fun q hq i hi => ?_) (Finset.Subset.refl _)
  have hin := h.dir_inUse hq
  refine Mem.entry_congr hin.page hi fun b hb => ?_
  by_contra hne
  rcases hm b hne with ⟨hge, hlt⟩ | ⟨a, ha, hba⟩
  · have hp := hin.page
    unfold Mem.Page at hp
    rcases hin.above with hk | hk
    · have hd : pageDirectory / 4096 = 16 := by decide
      rw [hk] at hb
      omega
    · omega
  · exact (h.data_ne ha).1 q hq (hba.symm.trans hb)

/-- Somebody else takes the next frame. -/
theorem Inv.allocBlock (h : Inv I X k) {f : Nat} (hf : k.pmm.next = some f) :
    k.pmm.allocBlock.2.free = k.pmm.free.erase f ∧
      Inv I (insert (f * 4096) X) { k with pmm := k.pmm.allocBlock.2 } := by
  refine k.pmm.allocBlock_cases (fun hfree => ?_) fun f p hnext hmem hfree => ?_
  · rw [Pmm.next_eq_none_iff.mpr hfree] at hf
    simp at hf
  · rw [hf] at hnext
    cases hnext
    exact ⟨hfree, h.hold hmem hfree⟩

/-! ### Runs -/

/-- The states the kernel reaches, with the set of frames that are neither free nor a
task's. -/
inductive Reach (I : Image) : Set Nat → State → Prop
  /-- `init_paging` with enough frames, then `init_multitasking`. -/
  | boot (probe : FbProbe) (p : Phys) (fbAddr fbWidth fbHeight fbBpp : Nat)
      (habove : ∀ f ∈ p.pmm.free, I.kernelEnd ≤ f * 4096) (hcard : 2048 ≤ p.pmm.free.card)
      (hfb : ∀ b, fbAddr ≤ b → b < fbAddr + wrap (fbWidth * fbHeight * (fbBpp / 8)) →
        b / 4096 ≠ 16 ∧ b / 4096 ∉ p.pmm.free) :
      Reach I ∅ (startState (initPaging probe p fbAddr fbWidth fbHeight fbBpp))
  | createUser {X : Set Nat} {k : State} (priority : Nat) (h : Reach I X k) :
      Reach I X (taskCreateUser I k priority).2
  | createTask {X : Set Nat} {k : State} (entry priority : Nat) (h : Reach I X k) :
      Reach I X (createTask I k entry priority).2
  | start {X : Set Nat} {k : State} {s : Nat} (entry esp : Nat) (hs : k.HasDir s)
      (h : Reach I X k) : Reach I X (taskStartUser I k s entry esp)
  | abort {X : Set Nat} {k : State} (slot : Int) (h : Reach I X k) :
    Reach I X (taskAbortUser k slot)
  | exit {X : Set Nat} {k : State} (h : Reach I X k) : Reach I X (taskExit k)
  | kill {X : Set Nat} {k : State} (h : Reach I X k) : Reach I X (killTask k)
  | schedule {X : Set Nat} {k : State} (esp : Nat) (h : Reach I X k) :
      Reach I X (scheduleHandler k esp).2
  | map {X : Set Nat} {k : State} {s virt : Nat} (phys flags : Nat) (hs : k.HasDir s)
      (hv : virt < 2 ^ 32) (h : Reach I X k) : Reach I X (taskMapUserPage k s phys virt flags).2
  /-- Somebody else takes a frame, -/
  | alloc {X : Set Nat} {k : State} {f : Nat} (hf : k.pmm.next = some f) (h : Reach I X k) :
      Reach I (insert (f * 4096) X) { k with pmm := k.pmm.allocBlock.2 }
  /-- gives it back, -/
  | free {X : Set Nat} {k : State} {a : Nat} (ha : a ∈ X) (h : Reach I X k) :
      Reach I (X \ {a}) { k with pmm := k.pmm.freeBlock a }
  /-- or writes to memory that holds data. -/
  | store {X : Set Nat} {k : State} {m : Mem}
      (hm : ∀ b, m b ≠ k.mem b → 0x100000 ≤ b ∧ b < I.kernelEnd ∨
        ∃ a, k.Data X a ∧ b / 4096 = a / 4096) (h : Reach I X k) : Reach I X { k with mem := m }

/-- Frames above the end of the kernel can be used for tables. -/
theorem usable_of_above {p : Pmm} (habove : ∀ f ∈ p.free, I.kernelEnd ≤ f * 4096) : Usable p.free :=
  fun f hf => ⟨by have := habove f hf; have := I.le_kernelEnd; omega, (Pmm.mem_free.mp hf).1⟩

/-- Every state of a run satisfies the invariant of the address spaces. -/
theorem Reach.inv (h : Reach I X k) : Inv I X k := by
  induction h with
  | boot probe p fbAddr fbWidth fbHeight fbBpp habove hcard hfb =>
    have hF := usable_of_above habove
    exact (built_initPaging (c := 0) hF hcard probe hfb).inv hF habove
  | createUser priority _ ih => exact (ih.taskCreateUser priority).1
  | createTask entry priority _ ih => exact ih.createTask entry priority
  | start entry esp hs _ ih => exact ih.taskStartUser hs entry esp
  | abort slot _ ih => exact ih.taskAbortUser slot
  | exit _ ih => exact ih.taskExit
  | kill _ ih => exact ih.killTask
  | schedule esp _ ih => exact ih.scheduleHandler esp
  | map phys flags hs hv _ ih => exact ih.taskMapUserPage hs hv phys flags
  | alloc hf _ ih => exact (ih.allocBlock hf).2
  | free ha _ ih => exact ih.release ha
  | store hm _ ih => exact ih.store hm

/-! ### While frames are left -/

/-- The kernel maps every page but the first to itself. -/
def State.Ident (k : State) : Prop := ∀ v, v < 2 ^ 32 → 4096 ≤ v → k.toPhys.Ident v

theorem Inv.ident_protectMem (h : Inv I X k) (hid : k.Ident) {a : Nat} (hpage : Mem.Page a)
    (ha : a < 2 ^ 32) {v : Nat} (hv : v < 2 ^ 32) (hge : 4096 ≤ v) :
    walk (protectMem k.mem a) pageDirectory v = some (pageOf v) := by
  rcases h.walk_protectMem hpage ha k.isDir_kernel hv with ⟨hwalk, hpv, -⟩ | ⟨hwalk, -⟩
  · rw [hwalk]
    unfold Mem.Page at hpage
    unfold pageOf
    rw [hpv]
    congr 1
    omega
  · rw [hwalk]
    exact hid v hv hge

/-- With a free frame, a mapping leaves the kernel's identity map. -/
theorem Inv.ident_taskMapUserPage (h : Inv I X k) (hs : k.HasDir s) (hphys : phys < 2 ^ 32)
    (hv : virt < 2 ^ 32) (hid : k.Ident) (hfree : k.pmm.free.Nonempty) :
    (Kernel.taskMapUserPage k s phys virt 0x07).2.Ident := by
  intro v hv' hge
  cases hnext : k.pmm.next with
  | none =>
    rw [Pmm.next_eq_none_iff.mp hnext] at hfree
    simp at hfree
  | some f =>
    obtain ⟨hpage, -, hlt⟩ := h.fresh_page (Pmm.next_mem hnext)
    refine (h.walk_taskMapUserPage_some (h.slot s hs).1 hs hphys hv hnext k.isDir_kernel hv').trans
      ?_
    rw [if_neg fun hc => hs.2 hc.1.symm]
    exact h.ident_protectMem hid hpage hlt hv' hge

/-- So does a new directory. -/
theorem Inv.ident_withDir (h : Inv I X k) (hid : k.Ident) {f : Nat} (hmem : f ∈ k.pmm.free)
    (p : Pmm) :
    (withDir k s f p).Ident := by
  intro v hv hge
  obtain ⟨hpage, -, hlt⟩ := h.fresh_page hmem
  exact (h.walk_cloneMem hmem k.isDir_kernel (Or.inl rfl) hv).trans
    (h.ident_protectMem hid hpage hlt hv hge)

/-- Five frames a page are enough for the user stack to be mapped without touching a table
of the kernel's, or any table but those of the stack. -/
theorem Inv.mapUserStack_keeps : ∀ (n va : Nat) {k : State}, Inv I X k → k.HasDir s →
    va + n * 4096 ≤ 2 ^ 32 → (k.tasks s).ownedFrames.length + n ≤ TASK_MAX_OWNED_FRAMES →
    5 * n < k.pmm.free.card → k.Ident →
    (Kernel.mapUserStack s n va k).2.Ident ∧
      ∀ i, i < 1024 → (∀ j, j < n → i ≠ pdIndex (va + j * 4096)) →
        (Kernel.mapUserStack s n va k).2.mem.entry (k.tasks s).pageDirectory i = k.pde s i := by
  intro n
  induction n with
  | zero => exact fun va k _ _ _ _ _ hid => ⟨hid, fun _ _ _ => rfl⟩
  | succ n ih =>
    intro va k h hs hva hlen hcard hid
    rcases mapUserStack_succ h (h.slot s hs).1 n va (by omega) with
      ⟨hempty, -⟩ | ⟨f, p, -, hmem, hfree, heq⟩
    · simp [hempty] at hcard
    · have hvlt : va < 2 ^ 32 := by omega
      obtain ⟨hinv, hext, hown⟩ := h.trackMap hs hmem hfree hvlt
      have h' : Inv I X (tracked k s f p) := h.track hmem hfree
      have hs' := (hasDir_tracked k s f p s).mpr hs
      have hcard' : p.free.card + 1 = k.pmm.free.card := by
        rw [hfree, Finset.card_erase_add_one hmem]
      obtain ⟨hpage, -, hlt⟩ := h.fresh_page hmem
      have hid' := h'.ident_taskMapUserPage hs' hlt hvlt hid
        (Finset.card_pos.mp (by change 0 < p.free.card; omega))
      have htakes : Takes 4 p (Kernel.taskMapUserPage (tracked k s f p) s (f * 4096) va
          0x07).2.pmm :=
        Takes.taskMapUserPage (tracked k s f p) s _ va _
      have hentry : ∀ i, i < 1024 → i ≠ pdIndex va →
          (Kernel.taskMapUserPage (tracked k s f p) s (f * 4096) va 0x07).2.mem.entry
            (k.tasks s).pageDirectory i = k.pde s i := by
        intro i hi hne
        rw [h'.dirEntry_taskMapUserPage (h'.slot s hs').1 hs' hvlt _ _
          (q := (k.tasks s).pageDirectory)
          (by rw [← (extends_tracked (X := X) (s := s) hfree).dir s]; exact hs'.isDir) hi]
        split
        · exact if_neg fun hc => hne hc.2
        · rfl
      have hlen' := congrArg List.length hown
      rw [List.length_append, List.length_singleton] at hlen'
      have hcard2 := htakes.card
      rw [heq]
      obtain ⟨hid2, hrest⟩ := ih (va + 4096) hinv ((hext.hasDir s).mpr hs) (by omega) (by omega)
        (by omega) hid'
      refine ⟨hid2, fun i hi hne => ?_⟩
      have hstep := hrest i hi fun j hj => by
        have := hne (j + 1) (by omega)
        rwa [show va + (j + 1) * 4096 = va + 4096 + j * 4096 by omega] at this
      rw [hext.dir s] at hstep
      rw [hstep, State.pde, hext.dir s]
      exact hentry i hi (by simpa using hne 0 (by omega))

/-! ### A creation with frames available -/

/-- A task in slot `s`, after its creation in state `k`: the kernel directory is as
before, and the task has a table of its own only for the region of its stack. -/
structure Created (I : Image) (X : Set Nat) (k : State) (s : Nat) (k' : State) : Prop where
  inv : Inv I X k'
  num : s < k'.numTasks
  hasDir : k'.HasDir s
  ident : k'.Ident
  kpde : ∀ i, i < 1024 → k'.kpde i = k.kpde i
  shares : ∀ i, i < 1024 → i ≠ 575 → k'.Shares (k'.tasks s).pageDirectory i

theorem Inv.created {k1 : State} (h : Inv I X k) (hid : k.Ident) (hc : claimSlot k = some (s, k1))
    (hcard : 22 ≤ k.pmm.free.card) (priority : Nat) :
    (Kernel.taskCreateUser I k priority).1 = some s ∧
      Created I X k s (Kernel.taskCreateUser I k priority).2 := by
  have hsome := (taskCreateUser_isSome (I := I) hc h.zero_not_free hcard priority).1
  obtain ⟨hinv, hsucc⟩ := h.taskCreateUser priority
  obtain ⟨k2, f, p, hc', hmem, hfree, hext, -, -, heq⟩ := hsucc s hsome
  obtain rfl : k1 = k2 := by simpa using hc.symm.trans hc'
  refine ⟨hsome, ?_⟩
  obtain ⟨h1, -, hphys1⟩ := h.claimUser hc priority
  obtain ⟨h2, hdir, hown⟩ := h.newUser hc priority hmem hfree
  have hid1 : (k1.setTask s (Task.initUser I s priority)).Ident := fun v hv hge => by
    rw [hphys1]
    exact hid v hv hge
  have hmem1 : f ∈ (k1.setTask s (Task.initUser I s priority)).pmm.free := by
    rw [hphys1]
    exact hmem
  have hid2 : (Kernel.newUser I k1 s priority f p).Ident := h1.ident_withDir hid1 hmem1 p
  have hcard2 : (Kernel.newUser I k1 s priority f p).pmm.free.card + 1 = k.pmm.free.card := by
    change p.free.card + 1 = _
    rw [hfree, Finset.card_erase_add_one hmem]
  obtain ⟨hid3, hentry⟩ := h2.mapUserStack_keeps 4 0x8FFFC000 hdir (by decide)
    (by rw [hown]; decide) (by omega) hid2
  rw [heq] at hinv hext ⊢
  have hk : ∀ i, i < 1024 → (Kernel.newUser I k1 s priority f p).kpde i = k.kpde i := fun i hi =>
    (h1.entry_cloneMem hmem1 (State.isDir_kernel _) hi).trans (by
      rw [hphys1]
      rfl)
  have hnew : ∀ i, i < 1024 → (Kernel.newUser I k1 s priority f p).pde s i = k.kpde i := by
    intro i hi
    have hpd : ((Kernel.newUser I k1 s priority f p).tasks s).pageDirectory = f * 4096 :=
      (withDir_pageDirectory _ s f p s).trans (if_pos rfl)
    unfold State.pde
    rw [hpd]
    refine (h1.entry_cloneMem_new hmem1 hi).trans ?_
    unfold State.kpde
    rw [hphys1]
  refine ⟨hinv, ?_, (hext.hasDir s).mpr hdir, hid3, fun i hi => (hext.kpde i hi).trans (hk i hi),
    fun i hi hne => congrArg pageOf ?_⟩
  · rw [hext.num]
    exact (h2.slot s hdir).1
  · have hstep := hentry i hi fun j hj => by
      have : pdIndex (0x8FFFC000 + j * 4096) = 575 := by
        unfold pdIndex
        omega
      rw [this]
      exact hne
    rw [hext.dir s, hstep, hnew i hi, ← hk i hi]
    exact (hext.kpde i hi).symm

/-! ### A machine with 22 MiB -/

/-- The frames from 6 MiB to 22 MiB are free. -/
def bootPmm : Pmm := ⟨fun i => if 48 ≤ i ∧ i < 176 then 0 else BitVec.allOnes 32, 0,
    ⟨0, Pmm.zero_lt⟩⟩

theorem free_bootPmm : bootPmm.free = Finset.Ico 0x600 0x1600 := by
  ext f
  have hmax : PMM_MAX_BLOCKS = 1048576 := rfl
  rw [Pmm.mem_free, Finset.mem_Ico, Pmm.bitmapTest_eq, bootPmm]
  dsimp only
  split
  · simp only [BitVec.ofNat_eq_ofNat, BitVec.getLsbD_zero, and_true]
    omega
  · rw [BitVec.getLsbD_allOnes, decide_eq_true (Nat.mod_lt _ (by decide))]
    simp
    omega

/-- Memory as the loader leaves it. -/
def bootPhys : Phys := ⟨fun _ => 0, bootPmm⟩

/-- After `init_paging`, with no frame buffer. -/
@[irreducible]
def bootPaging : Phys := initPaging ⟨false, false⟩ bootPhys 0 0 0 0

/-- After `init_multitasking`. -/
def booted : State := startState bootPaging

/-- After one more `task_create_user`. -/
def created (k : State) : State := (taskCreateUser smallImage k 1).2

/-- After the first `task_create_user`. -/
@[irreducible]
def oneTask : State := created booted

theorem usable_bootPmm :
    Usable bootPmm.free ∧ ∀ f ∈ bootPmm.free, smallImage.kernelEnd ≤ f * 4096 := by
  have hmax : PMM_MAX_BLOCKS = 1048576 := rfl
  have hend : smallImage.kernelEnd = 0x400000 := rfl
  rw [free_bootPmm]
  refine ⟨fun f hf => ?_, fun f hf => ?_⟩
  · rw [Finset.mem_Ico] at hf
    omega
  · rw [Finset.mem_Ico] at hf
    omega

theorem built_bootPaging : Built bootPmm.free 2048 bootPaging := by
  have hcard : 2048 + 2048 ≤ bootPhys.pmm.free.card := by
    change 4096 ≤ bootPmm.free.card
    rw [free_bootPmm, Nat.card_Ico]
  unfold bootPaging
  exact built_initPaging (s := bootPhys) usable_bootPmm.1 hcard _ fun b h1 h2 => by
    simp [wrap] at h2

theorem inv_booted : Inv smallImage ∅ booted :=
  built_bootPaging.inv usable_bootPmm.1 usable_bootPmm.2

/-- Only the regions below 24 MiB contain frames that were free, so the entries of the
others have no user bit. -/
theorem kpde_booted {i : Nat} (hlow : 5 < i) (hi : i < 1024) : booted.kpde i % 4096 = 3 := by
  change bootPaging.kpde i % 4096 = 3
  rcases built_bootPaging.building.flags i hi (built_bootPaging.complete i hi) with h3 | ⟨-, f,
    hf, hpd⟩
  · exact h3
  · rw [free_bootPmm, Finset.mem_Ico] at hf
    unfold pdIndex at hpd
    omega

theorem toPhys_booted : booted.toPhys = bootPaging := rfl

theorem room_booted : 2048 ≤ booted.pmm.free.card := by
  rw [toPhys_booted]
  exact built_bootPaging.room

theorem ident_booted : booted.Ident := fun v hv hge => by
  rw [toPhys_booted]
  exact built_bootPaging.ident v hv hge

/-- One `task_create_user` after boot. -/
theorem created_booted : (taskCreateUser smallImage booted 1).1 = some 1 ∧
    Created smallImage ∅ booted 1 oneTask := by
  obtain ⟨k1, hc⟩ := claimSlot_startState bootPaging
  rw [oneTask, created]
  exact inv_booted.created ident_booted hc (Nat.le_trans (by decide) room_booted) 1

/-- **Frames have one holder.** In every state the kernel reaches, the page directories and page
tables, the frames that tasks own and those the rest of the kernel holds are all in different
frames, marked used and, but for the kernel directory, above the kernel image. -/
theorem reach_frames_apart (h : Reach I X k) {o o' : Obj} (ho : o.Live X k) (ho' : o'.Live X k) :
    (o.addr k / 4096 = o'.addr k / 4096 → o = o') ∧ o.addr k / 4096 ∉ k.pmm.free ∧
      (o ≠ .kdir → I.kernelEnd ≤ o.addr k) := by
  have hinv := h.inv
  have hu := hinv.inUse o ho
  have hu' := hinv.inUse o' ho'
  refine ⟨fun heq => hinv.apart o o' ho ho' ?_, hu.used, hinv.above ho⟩
  rw [← Nat.div_mul_cancel (Nat.dvd_of_mod_eq_zero hu.page),
    ← Nat.div_mul_cancel (Nat.dvd_of_mod_eq_zero hu'.page), heq]

theorem reach_frames_apart_created :
    (Obj.dir 1).addr oneTask / 4096 ≠ (Obj.ktab 0).addr oneTask / 4096 ∧
      (Obj.dir 1).addr oneTask / 4096 ∉ oneTask.pmm.free := by
  have hcard : 2048 ≤ bootPmm.free.card := by
    rw [free_bootPmm, Nat.card_Ico]
    omega
  have hreach : Reach smallImage ∅ booted := by
    unfold booted bootPaging
    exact .boot ⟨false, false⟩ bootPhys 0 0 0 0 usable_bootPmm.2 hcard fun b _ hb => by
      simp [wrap] at hb
  have hcreate : Reach smallImage ∅ oneTask := by
    rw [oneTask, created]
    exact hreach.createUser 1
  have h := reach_frames_apart hcreate (show (Obj.dir 1).Live ∅ _ from created_booted.2.hasDir)
    (show (Obj.ktab 0).Live ∅ _ from (by decide : 0 < 1024))
  exact ⟨fun heq => absurd (h.1 heq) (by decide), h.2.1⟩

/-- The rest of the kernel has taken all frames that were left. -/
def exhaust (k : State) : State :=
  { k with pmm := ⟨fun _ => BitVec.allOnes 32, 0, ⟨0, Pmm.zero_lt⟩⟩ }

theorem free_exhaust (k : State) : (exhaust k).pmm.free = ∅ := by
  rw [Finset.eq_empty_iff_forall_notMem]
  intro f hf
  have := (Pmm.mem_free.mp hf).2
  rw [Pmm.bitmapTest_eq, exhaust, BitVec.getLsbD_allOnes,
    decide_eq_true (Nat.mod_lt _ (by decide))] at this
  simp at this

/-! ### Who is affected by a mapping -/

/-- Without a free frame, a page outside the region of the stack is mapped in the table
that the task shares with the kernel. -/
theorem Created.not_touchesOnly (hc : Created I X k0 s k) (hphys : phys < 2 ^ 32)
    (hv : virt < 2 ^ 32) (hge : 4096 ≤ virt) (hstack : pdIndex virt ≠ 575)
    (hne : pageOf phys ≠ pageOf virt) :
    ¬ TouchesOnly (exhaust k) (taskMapUserPage (exhaust k) s phys virt 0x07).2 s virt := by
  have hfree := free_exhaust k
  have hinv : Inv I X (exhaust k) := hc.inv.setPmm (by
    rw [exhaust] at hfree
    rw [hfree]
    exact Finset.empty_subset _)
  have hs : (exhaust k).HasDir s := hc.hasDir
  have hself : walk (exhaust k).mem pageDirectory virt = some (pageOf virt) := hc.ident virt hv hge
  rw [taskMapUserPage_eq (k := exhaust k) hc.num hs phys virt 0x07]
  intro ht
  have hsafe := (hinv.touchesOnly_iff hs.isDir hphys hv).mp ht
  have hentry := hsafe.entry (Or.inl ⟨Pmm.next_eq_none_iff.mpr hfree,
    hc.shares _ (pdIndex_lt hv) hstack⟩)
  rw [hself] at hentry
  exact hne (Option.some.inj hentry).symm

/-- For every state of the page tables, every slot, every page and every number of free
frames: a mapping touches nobody else exactly when it is safe; on a slot without a
directory it does nothing. -/
theorem touchesOnly_taskMapUserPage_iff (h : Inv I X k) (slot : Int) (hphys : phys < 2 ^ 32)
    (hv : virt < 2 ^ 32) :
    TouchesOnly k (taskMapUserPage k slot phys virt 0x07).2 slot.toNat virt ↔
      (0 ≤ slot → slot < k.numTasks → (k.tasks slot.toNat).pageDirectory ≠ 0 →
        MapSafe k slot.toNat phys virt) := by
  have hsame : TouchesOnly k k slot.toNat virt :=
    ⟨fun _ _ => rfl, fun _ _ _ _ _ => rfl, fun _ _ _ _ => rfl⟩
  by_cases hrange : slot < 0 ∨ slot ≥ k.numTasks
  · rw [taskMapUserPage, if_pos hrange]
    exact iff_of_true hsame fun h₁ h₂ => by omega
  · obtain ⟨s, rfl⟩ := Int.eq_ofNat_of_zero_le (by omega : 0 ≤ slot)
    rw [Int.toNat_natCast] at *
    rw [taskMapUserPage, if_neg hrange, Int.toNat_natCast]
    dsimp only
    by_cases hdir : (k.tasks s).pageDirectory = 0
    · rw [if_pos hdir]
      exact iff_of_true hsame fun _ _ hne => absurd hdir hne
    · have hq : k.IsDir (k.tasks s).pageDirectory := by
        by_cases hk : (k.tasks s).pageDirectory = pageDirectory
        · exact Or.inl hk
        · exact State.HasDir.isDir ⟨hdir, hk⟩
      rw [if_neg hdir]
      refine (h.touchesOnly_iff hq hphys hv).trans ?_
      exact ⟨fun hsafe _ _ _ => hsafe, fun hsafe => hsafe (by omega) (by omega) hdir⟩

/-- A page that is mapped to itself is what the kernel has there. -/
theorem Created.mapSafe (hc : Created I X k0 s k) (hv : virt < 2 ^ 32)
    (hge : 4096 ≤ virt) : MapSafe k s virt virt := by
  refine ⟨fun f hf _ _ _ _ => ?_, fun _ => hc.ident virt hv hge⟩
  have hmem := Pmm.next_mem hf
  have hlt : f < 2 ^ 20 := (Pmm.mem_free.mp hmem).1
  have hne : f ≠ 0 := fun h0 => hc.inv.zero_not_free (h0 ▸ hmem)
  rw [hc.ident (f * 4096) (by omega) (by omega), pageOf, Nat.mul_div_cancel _ (by decide)]

theorem touchesOnly_taskMapUserPage_iff_booted : TouchesOnly oneTask
    (taskMapUserPage oneTask 1 0x40000000 0x40000000 0x07).2 1 0x40000000 :=
  (touchesOnly_taskMapUserPage_iff created_booted.2.inv 1 (by decide) (by decide)).mpr fun _ _ _ =>
    created_booted.2.mapSafe (by decide) (by decide)

/-- Without a free frame the kernel, which had mapped 0x40000000 to itself, maps it to the
page of the task. -/
theorem taskMapUserPage_exhausted : ¬ TouchesOnly (exhaust oneTask)
    (taskMapUserPage (exhaust oneTask) (1 : Nat) 0x500000 0x40000000 0x07).2 1 0x40000000 :=
  created_booted.2.not_touchesOnly (by decide) (by decide) (by decide) (by decide) (by decide)

/-! ### What user code may do with a page -/

theorem Created.userBit (hc : Created I X k0 s k) (hv : virt < 2 ^ 32)
    (hflags : k0.kpde (pdIndex virt) % 4096 = 3) : (k.kpde (pdIndex virt)).testBit 2 = false := by
  rw [hc.kpde _ (pdIndex_lt hv), Nat.testBit_eq_decide_div_mod_eq, decide_eq_false_iff_not]
  omega

/-- A page of a region whose kernel entry has no user bit is closed to user code. -/
theorem Created.not_userWritable (hc : Created I X k0 s k) (phys : Nat)
    (hv : virt < 2 ^ 32) (hflags : k0.kpde (pdIndex virt) % 4096 = 3) :
    ¬ UserWritable (taskMapUserPage k s phys virt 0x07).2.mem (k.tasks s).pageDirectory virt
      phys := by
  intro huser
  have hbit := huser.pde 2 (by decide)
  rw [hc.inv.pdeBits_taskMapUserPage hc.num hc.hasDir hv phys 0x07 (by decide),
    hc.userBit hv hflags] at hbit
  cases hbit

/-- For every task with a directory of its own and every page: `task_map_user_page`
succeeds, and the page is open to user code exactly when the kernel's directory entry
for its region is. -/
theorem userWritable_taskMapUserPage_iff (h : Inv I X k) (hslot : s < k.numTasks)
    (hs : k.HasDir s) (hphys : phys < 2 ^ 32) (hv : virt < 2 ^ 32) :
    (taskMapUserPage k s phys virt 0x07).1 = true ∧
      (UserWritable (taskMapUserPage k s phys virt 0x07).2.mem (k.tasks s).pageDirectory virt phys ↔
        (k.kpde (pdIndex virt)).testBit 2 = true) := by
  have hok : (taskMapUserPage k s phys virt 0x07).1 = true := by rw [taskMapUserPage_eq hslot hs]
  refine ⟨hok, fun huser => ?_, h.userWritable hslot hs hphys hv⟩
  rw [← h.pdeBits_taskMapUserPage hslot hs hv phys 0x07 (by decide : 2 < 3)]
  exact huser.pde 2 (by decide)

theorem userWritable_taskMapUserPage_iff_booted :
    (taskMapUserPage oneTask (1 : Nat) 0x700000 0x08048000 0x07).1 = true ∧
      ¬ UserWritable (taskMapUserPage oneTask (1 : Nat) 0x700000 0x08048000 0x07).2.mem
        (oneTask.tasks 1).pageDirectory 0x08048000 0x700000 := by
  obtain ⟨hok, hiff⟩ := userWritable_taskMapUserPage_iff created_booted.2.inv created_booted.2.num
    created_booted.2.hasDir (show 0x700000 < 2 ^ 32 by decide) (show 0x08048000 < 2 ^ 32 by decide)
  refine ⟨hok, fun huser => ?_⟩
  have hbit := hiff.mp huser
  rw [created_booted.2.userBit (by decide) (kpde_booted (by decide) (by decide))] at hbit
  cases hbit

/-- After boot on a machine with 22 MiB, pages above 24 MiB are closed to user code. -/
theorem not_userWritable_booted (hv : virt < 2 ^ 32) (hpd : 5 < pdIndex virt) :
    ¬ UserWritable (taskMapUserPage oneTask (1 : Nat) 0x700000 virt 0x07).2.mem
      (oneTask.tasks 1).pageDirectory virt 0x700000 :=
  created_booted.2.not_userWritable 0x700000 hv (kpde_booted hpd (pdIndex_lt hv))

/-- There, neither the user text, nor the heap, nor the stack is open to user code. -/
theorem userPages_closed :
    ¬ UserWritable (taskMapUserPage oneTask (1 : Nat) 0x700000 0x08048000 0x07).2.mem
      (oneTask.tasks 1).pageDirectory 0x08048000 0x700000 ∧
    ¬ UserWritable (taskMapUserPage oneTask (1 : Nat) 0x700000 0x40000000 0x07).2.mem
      (oneTask.tasks 1).pageDirectory 0x40000000 0x700000 ∧
    ¬ UserWritable (taskMapUserPage oneTask (1 : Nat) 0x700000 0x8FFFF000 0x07).2.mem
      (oneTask.tasks 1).pageDirectory 0x8FFFF000 0x700000 :=
  ⟨not_userWritable_booted (by decide) (by decide), not_userWritable_booted (by decide) (by decide),
    not_userWritable_booted (by decide) (by decide)⟩

end Crusadia.Kernel
