import Crusadia.Kernel.UserPage

/-!
# Crusadia.Kernel.Tasks

The functions of `task.c` keep the **invariant of the address spaces**.

Frames change hands in few ways: a frame that was free becomes an owned frame of a task
(`Inv.track`) or somebody else's (`Inv.hold`), somebody's frames become a task's
(`Inv.adopt`), a task gets a directory (`Inv.clone`), and a task gives back everything it
holds (`Inv.freeTaskAddressSpace`). The functions are compositions of these.
-/

namespace Crusadia.Kernel

variable {I : Image} {X : Set Nat} {k k' : State} {s : Nat} {p : Pmm} {f : Nat}

/-! ### Updates of the task table -/

/-- A field that an update of a slot keeps. -/
theorem State.setTask_keeps {α : Type} (g : Task → α) {f : Task → Task}
    (hf : g (f (k.tasks s)) = g (k.tasks s)) (t : Nat) :
    g ((k.setTask s f).tasks t) = g (k.tasks t) := by
  rw [State.tasks_setTask]
  split
  · rename_i ht
    rw [ht, hf]
  · rfl

/-- Fewer frames free, everything else the same. -/
theorem Inv.setPmm (h : Inv I X k) (hsub : p.free ⊆ k.pmm.free) :
    Inv I X { k with pmm := p } :=
  h.mem_congr (p := ⟨k.mem, p⟩) (fun _ _ _ _ => rfl) hsub

/-! ### Frames that change hands -/

/-- A free frame becomes somebody's. -/
theorem Inv.hold (h : Inv I X k) (hmem : f ∈ k.pmm.free) (hfree : p.free = k.pmm.free.erase f) :
    Inv I (insert (f * 4096) X) { k with pmm := p } := by
  refine h.extend (n := .ext (f * 4096)) ⟨h.nodup, h.kflags, h.flags, h.slot, h.num⟩ hmem hfree
    fun o ho => ?_
  cases o with
  | ext a =>
    rcases ho with ha | ha
    · exact Or.inr ⟨by rw [ha], ha⟩
    · exact Or.inl ⟨ha, rfl⟩
  | _ => exact Or.inl ⟨ho, rfl⟩

/-- Somebody's frames become owned frames of slot `s`. -/
theorem Inv.adopt {fr : List Nat} (h : Inv I (X ∪ {a | a ∈ fr}) k) (hnodup : fr.Nodup)
    (hnew : ∀ a ∈ fr, a ∉ X) :
    Inv I X (k.setTask s fun t => { t with ownedFrames := t.ownedFrames ++ fr }) := by
  generalize hk' : State.setTask _ s _ = k'
  have hsame : SameDirs k k' := by
    rw [← hk']
    exact ⟨fun _ _ _ _ => rfl, State.setTask_keeps Task.pageDirectory rfl,
      State.setTask_keeps Task.kernelStackTop rfl, Nat.le_refl _, h.num⟩
  have hpmm : k'.pmm = k.pmm := by rw [← hk']; rfl
  have hown : ∀ t, (k'.tasks t).ownedFrames =
      if t = s then (k.tasks s).ownedFrames ++ fr else (k.tasks t).ownedFrames := fun t => by
    rw [← hk', State.tasks_setTask]
    split <;> rfl
  have hnodup' : ∀ t, (k'.tasks t).ownedFrames.Nodup := by
    intro t
    rw [hown]
    split
    · refine List.nodup_append.mpr ⟨h.nodup s, hnodup, fun a ha b hb => ?_⟩
      rintro rfl
      have := h.apart (.own s a) (.ext a) ha (Or.inr hb) rfl
      simp at this
    · exact h.nodup t
  -- an object is one of before, or a frame of the list, which was somebody's
  have hobj : ∀ o : Obj, o.Live X k' →
      (o.Live (X ∪ {a | a ∈ fr}) k ∧ o.addr k' = o.addr k) ∨ ∃ a ∈ fr, o = .own s a := by
    intro o ho
    by_cases hfr : ∃ a ∈ fr, o = .own s a
    · exact Or.inr hfr
    · refine Or.inl (hsame.obj ho (fun t a heq => ?_) fun a heq => ?_)
      · subst heq
        have ha : a ∈ (k'.tasks t).ownedFrames := ho
        rw [hown] at ha
        split at ha
        · rename_i hts
          subst hts
          exact (List.mem_append.mp ha).resolve_right fun hmem => hfr ⟨a, hmem, rfl⟩
        · exact ha
      · subst heq
        exact Or.inl ho
  have hclash : ∀ o : Obj, o.Live X k' → o.Live (X ∪ {a | a ∈ fr}) k → ∀ a ∈ fr, o.addr k ≠ a := by
    intro o ho hold a ha heq
    obtain rfl := h.apart o (.ext a) hold (Or.inr ha) heq
    exact hnew a ha ho
  refine ⟨hsame.plain h.toPlain hnodup', fun o ho => ?_, fun o o' ho ho' heq => ?_,
    fun f hf => h.free_above f (hpmm ▸ hf)⟩
  · rw [hpmm]
    rcases hobj o ho with ⟨hold, haddr⟩ | ⟨a, ha, rfl⟩
    · rw [haddr]
      exact h.inUse o hold
    · exact h.inUse (.ext a) (Or.inr ha)
  · rcases hobj o ho with ⟨hold, haddr⟩ | ⟨a, ha, rfl⟩ <;>
      rcases hobj o' ho' with ⟨hold', haddr'⟩ | ⟨a', ha', rfl⟩
    · exact h.apart o o' hold hold' (haddr.symm.trans (heq.trans haddr'))
    · exact absurd (haddr.symm.trans heq) (hclash o ho hold a' ha')
    · exact absurd (haddr'.symm.trans heq.symm) (hclash o' ho' hold' a ha)
    · exact congrArg (Obj.own s) heq

/-- A free frame becomes an owned frame of slot `s`. -/
theorem Inv.track (h : Inv I X k) (hmem : f ∈ k.pmm.free) (hfree : p.free = k.pmm.free.erase f) :
    Inv I X ({ k with pmm := p }.setTask s fun t =>
      { t with ownedFrames := t.ownedFrames ++ [f * 4096] }) := by
  have hset : insert (f * 4096) X = X ∪ {a | a ∈ [f * 4096]} := by
    ext a
    simp [or_comm]
  have hheld := h.hold hmem hfree
  rw [hset] at hheld
  refine hheld.adopt (List.nodup_singleton _) fun a ha hX => (h.inUse (.ext a) hX).used ?_
  rw [Obj.addr, List.mem_singleton.mp ha, Nat.mul_div_cancel _ (by decide)]
  exact hmem

/-! ### A new directory -/

/-- The stores of `clone_kernel_page_directory` in the frame at `a`. -/
def cloneMem (m : Mem) (a : Nat) : Mem := (protectMem m a).copy a pageDirectory 4096

/-- The two outcomes of `clone_kernel_page_directory`. -/
inductive Cloned (k : State) : Nat → Phys → Prop
  | full (hfree : k.pmm.free = ∅) : Cloned k 0 k.toPhys
  | made {f : Nat} {p : Pmm} (hnext : k.pmm.next = some f) (hmem : f ∈ k.pmm.free)
      (hfree : p.free = k.pmm.free.erase f) : Cloned k (f * 4096) ⟨cloneMem k.mem (f * 4096), p⟩

theorem Inv.cloneKernelPageDirectory_spec (h : Inv I X k) :
    Cloned k (cloneKernelPageDirectory k.toPhys).1 (cloneKernelPageDirectory k.toPhys).2 := by
  unfold cloneKernelPageDirectory
  refine k.pmm.allocBlock_cases (fun hfree => ?_) fun f p hnext hmem hfree => ?_ <;> dsimp only
  · exact Cloned.full hfree
  · obtain ⟨-, hne, hlt⟩ := h.fresh_page hmem
    rw [if_neg hne, h.protectTableFrame_eq hlt]
    exact Cloned.made hnext hmem hfree

/-- The entries of the directories are not changed by making a new one. -/
theorem Inv.entry_cloneMem (h : Inv I X k) (hf : f ∈ k.pmm.free) {q i : Nat} (hq : k.IsDir q)
    (hi : i < 1024) : (cloneMem k.mem (f * 4096)).entry q i = k.mem.entry q i := by
  obtain ⟨hpage, -, hlt⟩ := h.fresh_page hf
  rw [cloneMem, Mem.entry_copy_page hpage (h.dir_inUse hq).page hi (h.fresh_ne_dir hf hq),
    h.entry_protectMem_dir hpage hlt hq hi]

/-- The new directory has the entries of the kernel's. -/
theorem Inv.entry_cloneMem_new (h : Inv I X k) (hf : f ∈ k.pmm.free) {i : Nat} (hi : i < 1024) :
    (cloneMem k.mem (f * 4096)).entry (f * 4096) i = k.kpde i := by
  obtain ⟨hpage, -, hlt⟩ := h.fresh_page hf
  rw [cloneMem, Mem.entry_copy_same hi]
  exact h.entry_protectMem_dir hpage hlt k.isDir_kernel hi

/-- Slot `s` with the directory just made. -/
def withDir (k : State) (s f : Nat) (p : Pmm) : State :=
  { k with toPhys := ⟨cloneMem k.mem (f * 4096), p⟩ }.setTask s fun t =>
    { t with pageDirectory := f * 4096 }

theorem withDir_pageDirectory (k : State) (s f : Nat) (p : Pmm) (t : Nat) :
    ((withDir k s f p).tasks t).pageDirectory =
      if t = s then f * 4096 else (k.tasks t).pageDirectory := by
  rw [withDir, State.tasks_setTask]
  split <;> rfl

theorem Inv.clone (h : Inv I X k) (hslot : s < k.numTasks)
    (hstack : (k.tasks s).kernelStackTop = kstackTop I s) (hmem : f ∈ k.pmm.free)
    (hfree : p.free = k.pmm.free.erase f) :
    Inv I X (withDir k s f p) ∧ (withDir k s f p).HasDir s := by
  have hdir := withDir_pageDirectory k s f p
  have hk : ∀ i, i < 1024 → (withDir k s f p).kpde i = k.kpde i := fun i hi =>
    h.entry_cloneMem hmem k.isDir_kernel hi
  have hself : ∀ i, i < 1024 → (withDir k s f p).pde s i = k.kpde i := fun i hi => by
    unfold State.pde
    rw [hdir, if_pos rfl]
    exact h.entry_cloneMem_new hmem hi
  have hhas : ∀ t, t ≠ s → (withDir k s f p).HasDir t → k.HasDir t := fun t hts ht => by
    unfold State.HasDir at ht ⊢
    rwa [hdir, if_neg hts] at ht
  have hother : ∀ t, t ≠ s → k.HasDir t → ∀ i, i < 1024 → (withDir k s f p).pde t i = k.pde t i :=
    fun t hts ht i hi => by
      unfold State.pde
      rw [hdir, if_neg hts]
      exact h.entry_cloneMem hmem ht.isDir hi
  have hown : ∀ t, ((withDir k s f p).tasks t).ownedFrames = (k.tasks t).ownedFrames :=
    State.setTask_keeps Task.ownedFrames rfl
  have hstacks : ∀ t, ((withDir k s f p).tasks t).kernelStackTop = (k.tasks t).kernelStackTop :=
    State.setTask_keeps Task.kernelStackTop rfl
  have hplain : Plain I (withDir k s f p) := by
    refine ⟨fun t => ?_, fun i hi => ?_, fun t ht i hi => ?_, fun t ht => ?_, h.num⟩
    · rw [hown]
      exact h.nodup t
    · rw [hk i hi]
      exact h.kflags i hi
    · by_cases hts : t = s
      · rw [hts, hk i hi, hself i hi]
      · have ht' := hhas t hts ht
        rw [hk i hi, hother t hts ht' i hi]
        exact h.flags t ht' i hi
    · rw [hstacks]
      by_cases hts : t = s
      · rw [hts]
        exact ⟨hslot, hstack⟩
      · exact h.slot t (hhas t hts ht)
  refine ⟨h.extend (n := .dir s) hplain hmem hfree fun o ho => ?_, ?_⟩
  · cases o with
    | kdir => exact Or.inl ⟨trivial, rfl⟩
    | ktab i => exact Or.inl ⟨ho, congrArg pageOf (hk i ho)⟩
    | dir t =>
      by_cases hts : t = s
      · refine Or.inr ⟨by rw [hts], (hdir t).trans (if_pos hts)⟩
      · exact Or.inl ⟨hhas t hts ho, (hdir t).trans (if_neg hts)⟩
    | tab t i =>
      obtain ⟨ht, hi, hpriv⟩ := ho
      by_cases hts : t = s
      · -- the new directory shares every table
        rw [hts, hself i hi, hk i hi] at hpriv
        exact absurd rfl hpriv
      · have ht' := hhas t hts ht
        rw [hother t hts ht' i hi, hk i hi] at hpriv
        exact Or.inl ⟨⟨ht', hi, hpriv⟩, congrArg pageOf (hother t hts ht' i hi)⟩
    | own t a =>
      have ha : a ∈ ((withDir k s f p).tasks t).ownedFrames := ho
      rw [hown] at ha
      exact Or.inl ⟨ha, rfl⟩
    | ext a => exact Or.inl ⟨ho, rfl⟩
  · unfold State.HasDir
    rw [hdir, if_pos rfl]
    exact ⟨(h.fresh_page hmem).2.1, (h.fresh_ne_dir hmem k.isDir_kernel).symm⟩

/-! ### Giving everything back -/

/-- The slot an object belongs to. -/
def Obj.slot : Obj → Option Nat
  | dir s | tab s _ | own s _ => some s
  | _ => none

/-- Frame `f` holds an object of slot `s`. -/
def State.Holds (k : State) (s f : Nat) : Prop :=
  ∃ o : Obj, o.Live ∅ k ∧ o.slot = some s ∧ o.addr k = f * 4096

/-- A loop that frees frames, by what each turn adds to the free set. -/
theorem Pmm.mem_free_foldl {α : Type} {step : Pmm → α → Pmm} {A : α → Nat → Prop} {l : List α}
    (hstep : ∀ p, ∀ x ∈ l, ∀ f, f ∈ (step p x).free ↔ f ∈ p.free ∨ A x f) (p : Pmm) (f : Nat) :
    f ∈ (l.foldl step p).free ↔ f ∈ p.free ∨ ∃ x ∈ l, A x f := by
  induction l generalizing p with
  | nil => simp
  | cons x l ih =>
    rw [List.foldl_cons, ih fun p y hy => hstep p y (List.mem_cons_of_mem x hy),
      hstep p x List.mem_cons_self, List.exists_mem_cons_iff, or_assoc]

theorem Inv.mem_free_freeTaskAddressSpace (h : Inv I X k) (hs : k.HasDir s) (f : Nat) :
    f ∈ (freeTaskAddressSpace k s).pmm.free ↔ f ∈ k.pmm.free ∨ k.Holds s f := by
  have hd := h.dir_inUse hs.isDir
  have hpage : ∀ a : Nat, Mem.Page a → (f = a / 4096 ↔ a = f * 4096) := fun a ha => by
    unfold Mem.Page at ha
    omega
  have htabs : ∀ p : Pmm, ∀ i ∈ List.range 1024, ∀ f, f ∈ (
      (let entry := k.mem.entry (k.tasks s).pageDirectory i
      let globalEntry := k.mem.entry pageDirectory i
      if !present entry then p
      else if present globalEntry && pageOf entry == pageOf globalEntry then p
      else p.freeBlock (pageOf entry)) : Pmm).free ↔
        f ∈ p.free ∨ pageOf (k.pde s i) ≠ pageOf (k.kpde i) ∧ f = pageOf (k.pde s i) / 4096 := by
    intro p i hi f
    rw [List.mem_range] at hi
    have hlt : pageOf (k.pde s i) < 2 ^ 32 := (h.table_inUse hs.isDir hi).lt
    dsimp only
    rw [h.present_entry hs.isDir hi, h.present_entry k.isDir_kernel hi]
    simp only [Bool.not_true, Bool.false_eq_true, if_false, Bool.true_and, beq_iff_eq]
    change f ∈ (if pageOf (k.pde s i) = pageOf (k.kpde i) then p
      else p.freeBlock (pageOf (k.pde s i))).free ↔ _
    by_cases heq : pageOf (k.pde s i) = pageOf (k.kpde i)
    · rw [if_pos heq]
      simp [heq]
    · rw [if_neg heq, Pmm.free_freeBlock hlt, Finset.mem_insert]
      simp only [ne_eq, heq, not_false_eq_true, true_and]
      exact or_comm
  have howned : ∀ p : Pmm, ∀ a ∈ (k.tasks s).ownedFrames, ∀ f,
      f ∈ (Pmm.freeBlock p a).free ↔ f ∈ p.free ∨ f = a / 4096 := by
    intro p a ha f
    have hlt : a < 2 ^ 32 := (h.inUse (.own s a) ha).lt
    rw [Pmm.free_freeBlock hlt, Finset.mem_insert]
    exact or_comm
  unfold freeTaskAddressSpace
  dsimp only
  rw [if_neg (not_or.mpr hs)]
  change f ∈ (List.foldl Pmm.freeBlock _ _).free ↔ _
  rw [Pmm.mem_free_foldl howned, pageOf_of_page hd.page, Pmm.free_freeBlock hd.lt,
    Finset.mem_insert, Pmm.mem_free_foldl htabs]
  constructor
  · rintro ((hf | hf | ⟨i, hi, hpriv, hf⟩) | ⟨a, ha, hf⟩)
    · exact Or.inr ⟨.dir s, hs, rfl, (hpage _ hd.page).mp hf⟩
    · exact Or.inl hf
    · rw [List.mem_range] at hi
      exact Or.inr ⟨.tab s i, ⟨hs, hi, hpriv⟩, rfl, (hpage _ (pageOf_page _)).mp hf⟩
    · exact Or.inr ⟨.own s a, ha, rfl, (hpage _ (h.inUse (.own s a) ha).page).mp hf⟩
  · rintro (hf | ⟨o, ho, hslot, haddr⟩)
    · exact Or.inl (Or.inr (Or.inl hf))
    · cases o with
      | kdir => simp [Obj.slot] at hslot
      | ktab i => simp [Obj.slot] at hslot
      | ext a => simp [Obj.slot] at hslot
      | dir t =>
        obtain rfl : t = s := by simpa [Obj.slot] using hslot
        exact Or.inl (Or.inl ((hpage _ hd.page).mpr haddr))
      | tab t i =>
        obtain rfl : t = s := by simpa [Obj.slot] using hslot
        obtain ⟨-, hi, hpriv⟩ := ho
        exact Or.inl (Or.inr (Or.inr ⟨i, List.mem_range.mpr hi, hpriv,
          (hpage _ (pageOf_page _)).mpr haddr⟩))
      | own t a =>
        obtain rfl : t = s := by simpa [Obj.slot] using hslot
        exact Or.inr ⟨a, ho, (hpage _ (h.inUse (.own t a) ho).page).mpr haddr⟩

/-- After it has given everything back, a slot has neither a directory nor frames. -/
theorem freeTaskAddressSpace_task (hs : k.HasDir s) (t : Nat) :
    (freeTaskAddressSpace k s).tasks t =
      if t = s then { k.tasks s with ownedFrames := [], pageDirectory := 0 } else k.tasks t := by
  unfold freeTaskAddressSpace
  dsimp only
  rw [if_neg (not_or.mpr hs)]
  exact State.tasks_setTask _ _ _ _

theorem freeTaskAddressSpace_of_not_hasDir (hs : ¬ k.HasDir s) : freeTaskAddressSpace k s = k := by
  unfold freeTaskAddressSpace
  exact if_pos (by simpa only [State.HasDir, not_and_or, ne_eq, not_not] using hs)

theorem freeTaskAddressSpace_mem (k : State) (s : Nat) :
    (freeTaskAddressSpace k s).mem = k.mem ∧
      (freeTaskAddressSpace k s).numTasks = k.numTasks := by
  unfold freeTaskAddressSpace
  dsimp only
  split
  · exact ⟨rfl, rfl⟩
  · exact ⟨rfl, rfl⟩

/-- Two objects in one frame are one. -/
theorem Inv.eq_of_div (h : Inv I X k) {o o' : Obj} (ho : o.Live X k) (ho' : o'.Live X k)
    (heq : o.addr k / 4096 = o'.addr k / 4096) : o = o' := by
  have hp := (h.inUse o ho).page
  have hp' := (h.inUse o' ho').page
  unfold Mem.Page at hp hp'
  exact h.apart o o' ho ho' (by omega)

/-- The frame of one object is freed: no other object loses its own, -/
theorem Inv.used_freeBlock (h : Inv I X k) {n o : Obj} (hn : n.Live X k) (ho : o.Live X k)
    (hne : o ≠ n) : o.addr k / 4096 ∉ (k.pmm.freeBlock (n.addr k)).free := by
  rw [Pmm.free_freeBlock (h.inUse n hn).lt, Finset.mem_insert]
  rintro (heq | hf)
  · exact hne (h.eq_of_div ho hn heq)
  · exact (h.inUse o ho).used hf

/-- and the free frames still lie above the kernel image. -/
theorem Inv.above_freeBlock (h : Inv I X k) {n : Obj} (hn : n.Live X k) (hne : n ≠ .kdir) :
    ∀ f ∈ (k.pmm.freeBlock (n.addr k)).free, I.kernelEnd ≤ f * 4096 := by
  have huse := h.inUse n hn
  intro f hf
  rw [Pmm.free_freeBlock huse.lt, Finset.mem_insert] at hf
  rcases hf with rfl | hf
  · have habove := h.above hn hne
    have hp := huse.page
    unfold Mem.Page at hp
    unfold PMM_BLOCK_SIZE
    omega
  · exact h.free_above f hf

theorem Obj.Live.mono {X' : Set Nat} (hX : X ⊆ X') {o : Obj} (ho : o.Live X k) : o.Live X' k := by
  cases o with
  | ext a => exact hX ho
  | _ => exact ho

section

variable (h : Inv I X k)
include h

theorem Inv.freeTaskAddressSpace (s : Nat) : Inv I X (freeTaskAddressSpace k s) := by
  by_cases hs : k.HasDir s
  · have htask := freeTaskAddressSpace_task hs
    have hfree := h.mem_free_freeTaskAddressSpace hs
    obtain ⟨hmem, hnum⟩ := freeTaskAddressSpace_mem k s
    generalize Kernel.freeTaskAddressSpace k s = k' at htask hfree hmem hnum
    have hdir : ∀ t, k'.HasDir t → t ≠ s ∧ k'.tasks t = k.tasks t ∧ k.HasDir t := by
      intro t ht
      unfold State.HasDir at ht ⊢
      by_cases hts : t = s
      · rw [htask, if_pos hts] at ht
        exact absurd rfl ht.1
      · have htk := (htask t).trans (if_neg hts)
        rw [htk] at ht
        exact ⟨hts, htk, ht⟩
    have howned : ∀ t a, a ∈ (k'.tasks t).ownedFrames → t ≠ s ∧ a ∈ (k.tasks t).ownedFrames := by
      intro t a ha
      rw [htask] at ha
      split at ha
      · simp at ha
      · rename_i hts
        exact ⟨hts, ha⟩
    have hlive : ∀ o : Obj, o.Live X k' → o.slot ≠ some s := by
      intro o ho
      cases o with
      | dir t => simpa [Obj.slot] using (hdir t ho).1
      | tab t i => simpa [Obj.slot] using (hdir t ho.1).1
      | own t a => simpa [Obj.slot] using (howned t a ho).1
      | _ => simp [Obj.slot]
    refine h.restrict (Set.Subset.refl X) (fun q _ i _ => by rw [hmem]) (fun t ht => ?_)
      (fun t => ?_)
      (fun o ho hold hf => ?_) (fun f hf => ?_) (Nat.le_of_eq hnum.symm) (hnum ▸ h.num)
    · obtain ⟨-, htk, ht'⟩ := hdir t ht
      exact ⟨ht', by rw [htk], by rw [htk]⟩
    · refine ⟨fun a ha => (howned t a ha).2, ?_⟩
      rw [htask]
      split
      · exact List.nodup_nil
      · exact h.nodup t
    · have hslot := hlive o ho
      rcases (hfree _).mp hf with hf | ⟨o', ho', hs', haddr⟩
      · exact (h.inUse o hold).used hf
      · have heq := h.eq_of_div hold (ho'.mono (Set.empty_subset X))
          (by rw [haddr, Nat.mul_div_cancel _ (by decide)])
        rw [heq] at hslot
        exact hslot hs'
    · rcases (hfree f).mp hf with hf | ⟨o', ho', hs', haddr⟩
      · exact h.free_above f hf
      · rw [← haddr]
        refine h.above (ho'.mono (Set.empty_subset X)) ?_
        rintro rfl
        simp [Obj.slot] at hs'
  · rw [freeTaskAddressSpace_of_not_hasDir hs]
    exact h

/-- An update of a slot that leaves its directory, its stack and its frames alone. -/
theorem Inv.setTask {f : Task → Task}
    (hdir : (f (k.tasks s)).pageDirectory = (k.tasks s).pageDirectory)
    (hstack : (f (k.tasks s)).kernelStackTop = (k.tasks s).kernelStackTop)
    (hown : (f (k.tasks s)).ownedFrames = (k.tasks s).ownedFrames) : Inv I X (k.setTask s f) :=
  h.sameDirs ⟨fun _ _ _ _ => rfl, State.setTask_keeps Task.pageDirectory hdir,
    State.setTask_keeps Task.kernelStackTop hstack, Nat.le_refl _, h.num⟩
    (State.setTask_keeps Task.ownedFrames hown) (Finset.Subset.refl _)

theorem Inv.taskAbortUser (slot : Int) : Inv I X (taskAbortUser k slot) := by
  unfold Kernel.taskAbortUser
  split
  · exact h
  · exact (h.freeTaskAddressSpace slot.toNat).setTask rfl rfl rfl

theorem Inv.taskExit : Inv I X (taskExit k) :=
  (h.freeTaskAddressSpace k.currentTask).setTask rfl rfl rfl

theorem Inv.killTask : Inv I X (killTask k) := h.setTask rfl rfl rfl

/-- Fields that the invariant does not read. -/
theorem Inv.congr (hphys : k'.toPhys = k.toPhys) (htasks : k'.tasks = k.tasks)
    (hnum : k'.numTasks = k.numTasks) : Inv I X k' :=
  h.sameDirs ⟨fun _ _ _ _ => by rw [hphys], fun _ => by rw [htasks], fun _ => by rw [htasks],
    by rw [hnum], hnum ▸ h.num⟩ (fun _ => by rw [htasks]) (by rw [hphys])

theorem Inv.scheduleHandler (esp : Nat) : Inv I X (scheduleHandler k esp).2 := by
  unfold Kernel.scheduleHandler
  split
  · exact h
  · have h1 : Inv I X (k.setTask k.currentTask fun t => { t with esp }) := h.setTask rfl rfl rfl
    generalize k.setTask k.currentTask _ = k1 at h1
    dsimp only
    split
    · exact h1.congr rfl rfl rfl
    · cases nextRunnable k1 k1.numTasks k1.currentTask with
      | some cur => exact h1.congr rfl rfl rfl
      | none =>
        dsimp only
        split
        · have h2 : Inv I X (k1.setTask 0 fun t => { t with state := .running }) :=
            h1.setTask rfl rfl rfl
          exact h2.congr rfl rfl rfl
        · split
          · exact h1.congr rfl rfl rfl
          · exact h1.congr rfl rfl rfl

end

end Crusadia.Kernel
