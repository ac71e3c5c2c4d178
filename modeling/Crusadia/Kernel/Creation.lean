import Crusadia.Kernel.Tasks

/-!
# Crusadia.Kernel.Creation

How a **task comes into being**: `task_create_user`, `create_task`, `task_start_user`.

`Extends` collects what the steps of a creation leave alone: directories stay where they
are, the kernel directory keeps its entries, no frame is freed, and frames that hold data
keep their bytes. What a step does to one address space is said by two facts about a
mapping: addresses below the end of the kernel move only if their own page is mapped
(`Inv.walk_low`), and a page that is mapped stays mapped (`Inv.pinned`).
-/

namespace Crusadia.Kernel

variable {I : Image} {X : Set Nat} {k k' k'' : State} {s virt phys v q a : Nat} {f : Nat}

/-! ### What the steps of a creation leave alone -/

/-- The frame at `a` holds data: a task owns it, or somebody else does. -/
def State.Data (X : Set Nat) (k : State) (a : Nat) : Prop :=
  a ∈ X ∨ ∃ t, a ∈ (k.tasks t).ownedFrames

/-- Frames that were free are taken into use; nothing else is lost or moved. -/
structure Extends (X : Set Nat) (k k' : State) : Prop where
  num : k'.numTasks = k.numTasks
  dir : ∀ t, (k'.tasks t).pageDirectory = (k.tasks t).pageDirectory
  stack : ∀ t, (k'.tasks t).kernelStackTop = (k.tasks t).kernelStackTop
  own : ∀ t, (k.tasks t).ownedFrames ⊆ (k'.tasks t).ownedFrames
  kpde : ∀ i, i < 1024 → k'.kpde i = k.kpde i
  sub : k'.pmm.free ⊆ k.pmm.free
  data : ∀ a, k.Data X a → ∀ b, b / 4096 = a / 4096 → k'.mem b = k.mem b

namespace Extends

theorem refl (X : Set Nat) (k : State) : Extends X k k :=
  ⟨rfl, fun _ => rfl, fun _ => rfl, fun _ => List.Subset.refl _, fun _ _ => rfl,
    Finset.Subset.refl _, fun _ _ _ _ => rfl⟩

theorem trans (h1 : Extends X k k') (h2 : Extends X k' k'') : Extends X k k'' where
  num := h2.num.trans h1.num
  dir t := (h2.dir t).trans (h1.dir t)
  stack t := (h2.stack t).trans (h1.stack t)
  own t := List.Subset.trans (h1.own t) (h2.own t)
  kpde i hi := (h2.kpde i hi).trans (h1.kpde i hi)
  sub := Finset.Subset.trans h2.sub h1.sub
  data a ha b hb := by
    have ha' : k'.Data X a := ha.imp_right fun ⟨t, ht⟩ => ⟨t, h1.own t ht⟩
    rw [h2.data a ha' b hb, h1.data a ha b hb]

theorem hasDir (h : Extends X k k') (t : Nat) : k'.HasDir t ↔ k.HasDir t :=
  State.hasDir_congr (h.dir t)

end Extends

/-- The object that a data frame is. -/
theorem State.Data.obj (ha : k.Data X a) :
    ∃ o : Obj, o.Live X k ∧ o.addr k = a ∧ ((∃ t, o = .own t a) ∨ o = .ext a) := by
  rcases ha with ha | ⟨t, ha⟩
  · exact ⟨.ext a, ha, rfl, Or.inr rfl⟩
  · exact ⟨.own t a, ha, rfl, Or.inl ⟨t, rfl⟩⟩

section

variable (h : Inv I X k)
include h

/-- A data frame is neither a directory, nor a table, nor free. -/
theorem Inv.data_ne (ha : k.Data X a) : (∀ q, k.IsDir q → a / 4096 ≠ q / 4096) ∧
      (∀ q i, k.IsDir q → i < 1024 → a / 4096 ≠ k.table q i / 4096) ∧
      ∀ f ∈ k.pmm.free, a / 4096 ≠ f := by
  obtain ⟨o, ho, haddr, hform⟩ := ha.obj
  rw [← haddr]
  refine ⟨fun q hq heq => ?_, fun q i hq hi heq => ?_, fun f hf heq => ?_⟩
  · obtain ⟨o', ho', ha', hform'⟩ := Inv.dir_obj X hq
    rw [← ha'] at heq
    have := h.eq_of_div ho ho' heq
    rcases hform with ⟨t, ht⟩ | ht <;> rcases hform' with ht' | ⟨t', ht'⟩ <;>
      simp [ht, ht'] at this
  · obtain ⟨o', ho', ha', hform'⟩ := Inv.table_obj X hq hi
    rw [← ha'] at heq
    have := h.eq_of_div ho ho' heq
    rcases hform with ⟨t, ht⟩ | ht <;> rcases hform' with ⟨ht', -⟩ | ⟨t', ht', -⟩ <;>
      simp [ht, ht'] at this
  · exact (h.inUse o ho).used (heq ▸ hf)

/-- The stores of `unmap_page_dir` go to a table of the kernel, the new table and the
directory. -/
theorem Inv.unmapMem_data (hq : k.IsDir q) (hv : virt < 2 ^ 32)
    (hf : f ∈ k.pmm.free) (ha : k.Data X a) {b : Nat} (hb : b / 4096 = a / 4096) :
    unmapMem k.mem q virt (f * 4096) b = k.mem b := by
  obtain ⟨hpage, -, hlt⟩ := h.fresh_page hf
  obtain ⟨hdir, htab, hfree⟩ := h.data_ne ha
  have hbf : b / 4096 ≠ f := fun heq => hfree f hf (hb.symm.trans heq)
  have hbf' : b / 4096 ≠ f * 4096 / 4096 := by rwa [Nat.mul_div_cancel _ (by decide)]
  have hpd := pdIndex_lt hlt
  unfold unmapMem
  rw [Mem.setEntry_byte (h.dir_inUse hq).page (pdIndex_lt hv) (hb ▸ hdir q hq),
    Mem.setEntry_byte hpage (ptIndex_lt virt) hbf', Mem.copy, Mem.store_out (by omega), protectMem]
  exact Mem.setEntry_byte (h.table_inUse k.isDir_kernel hpd).page (ptIndex_lt _)
    (hb ▸ htab _ _ k.isDir_kernel hpd)

theorem Inv.extends_unmap (hs : k.HasDir s) (hv : virt < 2 ^ 32) :
    Extends X k { k with
      toPhys := Kernel.unmapPageDir k.toPhys (k.tasks s).pageDirectory virt } := by
  have hspec := h.unmapPageDir_spec hs.isDir hv
  generalize Kernel.unmapPageDir k.toPhys (k.tasks s).pageDirectory virt = p at hspec
  cases hspec with
  | full hfree => exact Extends.refl X k
  | copied hnext hmem hfree =>
    exact ⟨rfl, fun _ => rfl, fun _ => rfl, fun _ => List.Subset.refl _,
      fun i hi => h.entry_copied_isDir hs.isDir hv hmem k.isDir_kernel hi fun hc => hs.2 hc.1.symm,
      by rw [hfree]; exact Finset.erase_subset _ _,
      fun a ha b hb => h.unmapMem_data hs.isDir hv hmem ha hb⟩

theorem Inv.extends_map (hq : k.IsDir q) (hv : virt < 2 ^ 32) (phys flags : Nat) :
    Extends X k { k with toPhys := Kernel.mapPageDir k.toPhys q phys virt flags } := by
  have hpd := pdIndex_lt hv
  have htab := h.table_inUse hq hpd
  rw [h.mapPageDir_eq hq hv]
  exact ⟨rfl, fun _ => rfl, fun _ => rfl, fun _ => List.Subset.refl _,
    fun i hi => Mem.entry_setEntry_page htab.page (h.dir_inUse k.isDir_kernel).page
      (ptIndex_lt virt) hi (h.table_ne_dir hq hpd k.isDir_kernel).symm,
    Finset.Subset.refl _,
    fun a ha b hb => Mem.setEntry_byte htab.page (ptIndex_lt virt)
      (hb ▸ (h.data_ne ha).2.1 q _ hq hpd)⟩

theorem Inv.extends_taskMapUserPage (hs : k.HasDir s) (hv : virt < 2 ^ 32)
    (phys flags : Nat) : Extends X k (Kernel.taskMapUserPage k s phys virt flags).2 := by
  unfold Kernel.taskMapUserPage
  split
  · exact Extends.refl X k
  · dsimp only
    rw [Int.toNat_natCast, if_neg hs.1]
    exact (h.extends_unmap hs hv).trans
      ((h.unmapPageDir hs hv).extends_map (k := { k with toPhys := _ }) hs.isDir hv phys flags)

/-! ### What a mapping does to one address space -/

/-- Taking frame `f` for a table moves no page below the end of the kernel, and none that is in a
table of a task's own. -/
theorem Inv.walk_protectMem_keep (hf : f ∈ k.pmm.free) (hq : k.IsDir q)
    (hv : v < 2 ^ 32) (hcase : v < I.kernelEnd ∨ ¬ k.Shares q (pdIndex v)) :
    walk (protectMem k.mem (f * 4096)) q v = walk k.mem q v := by
  obtain ⟨hfp, -, hlt⟩ := h.fresh_page hf
  have habove := h.free_above f hf
  rcases h.walk_protectMem hfp hlt hq hv with ⟨-, hpv, hshare⟩ | ⟨hwalk, -⟩
  · rcases hcase with hlow | hpriv
    · rw [Nat.mul_div_cancel _ (by decide)] at hpv
      omega
    · rw [((page_eq_iff v _).mp hpv).1] at hpriv
      exact absurd hshare hpriv
  · exact hwalk

/-- An address below the end of the kernel moves only if its own page is mapped. -/
theorem Inv.walk_low (hslot : s < k.numTasks) (hs : k.HasDir s)
    (hphys : phys < 2 ^ 32) (hv : virt < 2 ^ 32) (hq : k.IsDir q)
    (hlow : v < I.kernelEnd) (hpage : v / 4096 ≠ virt / 4096) :
    walk (Kernel.taskMapUserPage k s phys virt 0x07).2.mem q v = walk k.mem q v := by
  have hv' : v < 2 ^ 32 := Nat.lt_trans hlow I.kernelEnd_lt
  cases hnext : k.pmm.next with
  | none =>
    rw [h.walk_taskMapUserPage_none hslot hs hphys hv hnext hq hv', if_neg fun hc => hpage hc.1]
  | some f =>
    rw [h.walk_taskMapUserPage_some hslot hs hphys hv hnext hq hv', if_neg fun hc => hpage hc.2]
    exact h.walk_protectMem_keep (Pmm.next_mem hnext) hq hv' (Or.inl hlow)

end

/-- No later mapping of another page can move the page of `v`: the task has a table of
its own for it, or no frame is left to change tables with. -/
def State.Pinned (k : State) (s v : Nat) : Prop :=
  ¬ k.Shares (k.tasks s).pageDirectory (pdIndex v) ∨ k.pmm.free = ∅

section

variable (h : Inv I X k) (hslot : s < k.numTasks) (hs : k.HasDir s) (hphys : phys < 2 ^ 32)
  (hv : virt < 2 ^ 32) (hv' : v < 2 ^ 32)
include h hslot hs hphys hv hv'

theorem Inv.pinned (hpin : k.Pinned s v) (hpage : v / 4096 ≠ virt / 4096) :
    walk (Kernel.taskMapUserPage k s phys virt 0x07).2.mem (k.tasks s).pageDirectory v =
      walk k.mem (k.tasks s).pageDirectory v := by
  cases hnext : k.pmm.next with
  | none =>
    rw [h.walk_taskMapUserPage_none hslot hs hphys hv hnext hs.isDir hv',
      if_neg fun hc => hpage hc.1]
  | some f =>
    have hf := Pmm.next_mem hnext
    rw [h.walk_taskMapUserPage_some hslot hs hphys hv hnext hs.isDir hv',
      if_neg fun hc => hpage hc.2]
    exact h.walk_protectMem_keep hf hs.isDir hv'
      (Or.inr (hpin.resolve_right fun hfull => by simp [hfull] at hf))

/-- The page just mapped is where it was put, and pinned. -/
theorem Inv.walk_mapped (hpage : v / 4096 = virt / 4096) :
    walk (Kernel.taskMapUserPage k s phys virt 0x07).2.mem (k.tasks s).pageDirectory v =
      some (pageOf phys) := by
  cases hnext : k.pmm.next with
  | none =>
    rw [h.walk_taskMapUserPage_none hslot hs hphys hv hnext hs.isDir hv', if_pos ⟨hpage, rfl⟩]
  | some f =>
    rw [h.walk_taskMapUserPage_some hslot hs hphys hv hnext hs.isDir hv', if_pos ⟨rfl, hpage⟩]

end

section

variable (h : Inv I X k) (hslot : s < k.numTasks) (hs : k.HasDir s) (hv : virt < 2 ^ 32)
include h hslot hs hv

/-- A mapping takes one frame, if there is one. -/
theorem Inv.free_taskMapUserPage (phys flags : Nat) :
    (Kernel.taskMapUserPage k s phys virt flags).2.pmm.free =
      match k.pmm.next with
      | some f => k.pmm.free.erase f
      | none => ∅ := by
  have hinv := h.unmapPageDir hs hv
  have hspec := h.unmapPageDir_spec hs.isDir hv
  rw [taskMapUserPage_eq hslot hs]
  dsimp only
  generalize Kernel.unmapPageDir k.toPhys (k.tasks s).pageDirectory virt = p' at hinv hspec
  have hmap := hinv.mapPageDir_eq (k := { k with toPhys := p' }) hs.isDir hv phys flags
  dsimp only at hmap
  rw [hmap]
  cases hspec with
  | full hfree =>
    rw [Pmm.next_eq_none_iff.mpr hfree]
    exact hfree
  | copied hnext hmem hfree =>
    rw [hnext]
    exact hfree

theorem Inv.card_taskMapUserPage (phys flags : Nat) :
    (Kernel.taskMapUserPage k s phys virt flags).2.pmm.free.card = k.pmm.free.card - 1 := by
  rw [h.free_taskMapUserPage hslot hs hv]
  cases hnext : k.pmm.next with
  | none => rw [Pmm.next_eq_none_iff.mp hnext, Finset.card_empty]
  | some f => exact Finset.card_erase_of_mem (Pmm.next_mem hnext)

/-- A page that is mapped is pinned, and a pinned page stays so. -/
theorem Inv.pinned_taskMapUserPage (phys flags : Nat) (hv' : v < 2 ^ 32)
    (hpin : k.Pinned s v ∨ v / 4096 = virt / 4096) :
    (Kernel.taskMapUserPage k s phys virt flags).2.Pinned s v := by
  have htasks := (taskMapUserPage_tasks k s phys virt flags).2
  have hdir : ∀ {q : Nat}, k.IsDir q → _ := fun {q} hq =>
    h.dirEntry_taskMapUserPage hslot hs hv phys flags (q := q) hq (pdIndex_lt hv')
  have hfree := h.free_taskMapUserPage hslot hs hv phys flags
  unfold State.Pinned State.Shares State.table at *
  rw [htasks, hdir hs.isDir, hdir k.isDir_kernel]
  cases hnext : k.pmm.next with
  | none =>
    right
    rw [hfree, hnext]
  | some f =>
    left
    have hmem := Pmm.next_mem hnext
    obtain ⟨hpage, -, -⟩ := h.fresh_page hmem
    have hkernel : ¬ (pageDirectory = (k.tasks s).pageDirectory ∧ pdIndex v = pdIndex virt) :=
      fun hc => hs.2 hc.1.symm
    dsimp only
    rw [if_neg hkernel]
    by_cases hpd : pdIndex v = pdIndex virt
    · -- the new table is the task's alone
      rw [if_pos ⟨rfl, hpd⟩, pageOf_or hpage (Nat.mod_lt _ (by decide))]
      exact (h.fresh_ne_table hmem k.isDir_kernel (pdIndex_lt hv')).symm
    · rw [if_neg fun hc => hpd hc.2]
      rcases hpin with (hpriv | hempty) | hpv
      · exact hpriv
      · rw [hempty] at hmem
        simp at hmem
      · exact absurd ((page_eq_iff v virt).mp hpv).1 hpd

end

/-! ### The user stack -/

section

variable (k : State) (s f : Nat) (p : Pmm)

/-- Slot `s` with one more owned frame. -/
def tracked : State :=
  { k with pmm := p }.setTask s fun t => { t with ownedFrames := t.ownedFrames ++ [f * 4096] }

theorem ownedFrames_tracked (t : Nat) :
    ((tracked k s f p).tasks t).ownedFrames =
      if t = s then (k.tasks s).ownedFrames ++ [f * 4096] else (k.tasks t).ownedFrames := by
  rw [tracked, State.tasks_setTask]
  split <;> rfl

theorem hasDir_tracked (t : Nat) :
    (tracked k s f p).HasDir t ↔ k.HasDir t :=
  State.hasDir_congr (State.setTask_keeps Task.pageDirectory rfl t)

end

theorem extends_tracked {p : Pmm} (hfree : p.free = k.pmm.free.erase f) :
    Extends X k (tracked k s f p) where
  num := rfl
  dir := State.setTask_keeps Task.pageDirectory rfl
  stack := State.setTask_keeps Task.kernelStackTop rfl
  own t := by
    rw [ownedFrames_tracked]
    split
    · rename_i hts
      rw [hts]
      exact List.subset_append_left _ _
    · exact List.Subset.refl _
  kpde _ _ := rfl
  sub := by
    change p.free ⊆ _
    rw [hfree]
    exact Finset.erase_subset _ _
  data _ _ _ _ := rfl

/-- One turn of the loop: without a frame the creation is given up, with one it is owned
by the task and mapped. -/
theorem mapUserStack_succ (h : Inv I X k) (hslot : s < k.numTasks) (n va : Nat)
    (hlen : (k.tasks s).ownedFrames.length < TASK_MAX_OWNED_FRAMES) :
    (k.pmm.free = ∅ ∧ mapUserStack s (n + 1) va k = (none, taskAbortUser k s)) ∨
      ∃ f p, k.pmm.next = some f ∧ f ∈ k.pmm.free ∧ p.free = k.pmm.free.erase f ∧
        mapUserStack s (n + 1) va k = mapUserStack s n (va + 4096)
          (taskMapUserPage (tracked k s f p) s (f * 4096) va 0x07).2 := by
  rw [mapUserStack]
  refine k.pmm.allocBlock_cases (fun hfree => ?_) fun f p hnext hmem hfree => ?_ <;> dsimp only
  · exact Or.inl ⟨hfree, by rw [if_pos rfl]⟩
  · obtain ⟨-, hne, -⟩ := h.fresh_page hmem
    refine Or.inr ⟨f, p, hnext, hmem, hfree, ?_⟩
    unfold PMM_BLOCK_SIZE
    rw [if_neg hne, taskTrackFrames_eq (k := { k with pmm := p }) hslot [f * 4096] hlen]
    rfl

/-- One turn that finds a frame. -/
theorem Inv.trackMap (h : Inv I X k) (hs : k.HasDir s) {p : Pmm} (hmem : f ∈ k.pmm.free)
    (hfree : p.free = k.pmm.free.erase f) (hv : virt < 2 ^ 32) :
    Inv I X (Kernel.taskMapUserPage (tracked k s f p) s (f * 4096) virt 0x07).2 ∧
      Extends X k (Kernel.taskMapUserPage (tracked k s f p) s (f * 4096) virt 0x07).2 ∧
      ((Kernel.taskMapUserPage (tracked k s f p) s (f * 4096) virt 0x07).2.tasks s).ownedFrames =
        (k.tasks s).ownedFrames ++ [f * 4096] := by
  have hs' := (hasDir_tracked k s f p s).mpr hs
  have h' : Inv I X (tracked k s f p) := h.track hmem hfree
  refine ⟨h'.taskMapUserPage hs' hv _ _,
    (extends_tracked hfree).trans (h'.extends_taskMapUserPage hs' hv _ _), ?_⟩
  rw [(taskMapUserPage_tasks _ _ _ _ _).2]
  exact (ownedFrames_tracked k s f p s).trans (if_pos rfl)

/-- The loop keeps the invariant; when it succeeds the task has `n` more frames and the breaks are
as before. -/
theorem Inv.mapUserStack : ∀ (n va : Nat) {k : State}, Inv I X k → k.HasDir s →
    va + n * 4096 ≤ 2 ^ 32 → (k.tasks s).ownedFrames.length + n ≤ TASK_MAX_OWNED_FRAMES →
    Inv I X (mapUserStack s n va k).2 ∧
      ∀ t, (Kernel.mapUserStack s n va k).1 = some t →
        t = s ∧ Extends X k (Kernel.mapUserStack s n va k).2 ∧
        ((Kernel.mapUserStack s n va k).2.tasks s).ownedFrames.length =
          (k.tasks s).ownedFrames.length + n ∧
        ∀ u, ((Kernel.mapUserStack s n va k).2.tasks u).heapVirtNext =
          (k.tasks u).heapVirtNext := by
  intro n
  induction n with
  | zero =>
    intro va k h _ _ _
    exact ⟨h, fun t ht => ⟨(Option.some.inj ht).symm, Extends.refl X k, rfl, fun _ => rfl⟩⟩
  | succ n ih =>
    intro va k h hs hva hlen
    rcases mapUserStack_succ h (h.slot s hs).1 n va (by omega) with
      ⟨-, heq⟩ | ⟨f, p, -, hmem, hfree, heq⟩
    · rw [heq]
      exact ⟨h.taskAbortUser s, fun t ht => by simp at ht⟩
    · have hvlt : va < 2 ^ 32 := by omega
      obtain ⟨hinv, hext, hown⟩ := h.trackMap hs hmem hfree hvlt
      rw [heq]
      have hlen' := congrArg List.length hown
      rw [List.length_append, List.length_singleton] at hlen'
      obtain ⟨hinv', hsucc⟩ := ih (va + 4096) hinv ((hext.hasDir s).mpr hs) (by omega) (by omega)
      refine ⟨hinv', fun t ht => ?_⟩
      obtain ⟨rfl, hext', hn, hbrk⟩ := hsucc t ht
      refine ⟨rfl, hext.trans hext', by omega, fun u => ?_⟩
      rw [hbrk, (taskMapUserPage_tasks _ _ _ _ _).2, tracked,
        State.setTask_keeps Task.heapVirtNext rfl]

/-- One turn of the loop that found the frame `f`, from `k` to `k₂`. -/
structure StackTurn (I : Image) (X : Set Nat) (s va f : Nat) (k k₂ : State) : Prop where
  mem : f ∈ k.pmm.free
  inv : Inv I X k₂
  ext : Extends X k k₂
  own : (k₂.tasks s).ownedFrames = (k.tasks s).ownedFrames ++ [f * 4096]
  free : k₂.pmm.free ⊆ k.pmm.free.erase f
  card : k₂.pmm.free.card = k.pmm.free.card - 2
  /-- the page mapped in this turn -/
  page : ∀ v, v < 2 ^ 32 → v / 4096 = va / 4096 →
    walk k₂.mem (k.tasks s).pageDirectory v = some (f * 4096) ∧ k₂.Pinned s v
  /-- other pages -/
  keep : ∀ v, v < 2 ^ 32 → v / 4096 ≠ va / 4096 → v < I.kernelEnd ∨ k.Pinned s v →
    walk k₂.mem (k.tasks s).pageDirectory v = walk k.mem (k.tasks s).pageDirectory v
  pin : ∀ v, v < 2 ^ 32 → k.Pinned s v → k₂.Pinned s v

theorem Inv.mapUserStack_turn (h : Inv I X k) (hs : k.HasDir s) {n va t : Nat} (hva : va < 2 ^ 32)
    (hlen : (k.tasks s).ownedFrames.length < TASK_MAX_OWNED_FRAMES)
    (ht : (Kernel.mapUserStack s (n + 1) va k).1 = some t) :
    ∃ f k₂, Kernel.mapUserStack s (n + 1) va k = Kernel.mapUserStack s n (va + 4096) k₂ ∧
      StackTurn I X s va f k k₂ := by
  rcases mapUserStack_succ h (h.slot s hs).1 n va hlen with ⟨-, heq⟩ | ⟨f, p, -, hmem, hfree, heq⟩
  · rw [heq] at ht
    simp at ht
  · obtain ⟨hfp, -, hflt⟩ := h.fresh_page hmem
    obtain ⟨hinv, hext, hown⟩ := h.trackMap hs hmem hfree hva
    have h' : Inv I X (tracked k s f p) := h.track hmem hfree
    have hs' := (hasDir_tracked k s f p s).mpr hs
    have hslot' := (h'.slot s hs').1
    have hdir' : ((tracked k s f p).tasks s).pageDirectory = (k.tasks s).pageDirectory :=
      (extends_tracked (X := X) (s := s) hfree).dir s
    have hpin' : ∀ v, k.Pinned s v → (tracked k s f p).Pinned s v := by
      intro v hp
      rcases hp with hpriv | hempty
      · left
        unfold State.Shares State.table at *
        rw [hdir']
        exact hpriv
      · rw [hempty] at hmem
        simp at hmem
    have hmapped := fun v hv => h'.walk_mapped hslot' hs' hflt hva (v := v) hv
    have hkeep := fun v hv => h'.pinned hslot' hs' hflt hva (v := v) hv
    have hlow := fun v => h'.walk_low hslot' hs' hflt hva (v := v) hs'.isDir
    have hpin := fun v hv => h'.pinned_taskMapUserPage hslot' hs' hva (f * 4096) 0x07 (v := v) hv
    rw [hdir', pageOf_of_page hfp] at hmapped
    rw [hdir'] at hkeep hlow
    refine ⟨f, _, heq, hmem, hinv, hext, hown, ?_, ?_, fun v hv hpv => ?_, fun v hv hne hcase => ?_,
      fun v hv hp => hpin v hv (Or.inl (hpin' v hp))⟩
    · rw [← hfree]
      exact (h'.extends_taskMapUserPage hs' hva _ _).sub
    · have hcard1 : (tracked k s f p).pmm.free.card = k.pmm.free.card - 1 := by
        change p.free.card = _
        rw [hfree, Finset.card_erase_of_mem hmem]
      rw [h'.card_taskMapUserPage hslot' hs' hva, hcard1]
      omega
    · exact ⟨hmapped v hv hpv, hpin v hv (Or.inr hpv)⟩
    · rcases hcase with hlt | hp
      · exact hlow v hlt hne
      · exact hkeep v hv (hpin' v hp) hne

/-- When the loop succeeds, every page of the stack is mapped to a frame of the task that was
free, and pinned, each to another; pages outside the stack are as before, if they are the kernel's
or pinned. -/
structure StackMapped (I : Image) (s va n : Nat) (k k' : State) : Prop where
  stack : ∀ v, va ≤ v → v < va + n * 4096 → ∃ f ∈ k.pmm.free, f * 4096 ∈ (k'.tasks s).ownedFrames ∧
    walk k'.mem (k'.tasks s).pageDirectory v = some (f * 4096) ∧ k'.Pinned s v
  apart : ∀ v w a, va ≤ v → v < va + n * 4096 → va ≤ w → w < va + n * 4096 →
    walk k'.mem (k'.tasks s).pageDirectory v = some a →
    walk k'.mem (k'.tasks s).pageDirectory w = some a → v / 4096 = w / 4096
  keep : ∀ v, v < 2 ^ 32 → v < va ∨ va + n * 4096 ≤ v → v < I.kernelEnd ∨ k.Pinned s v →
    walk k'.mem (k'.tasks s).pageDirectory v = walk k.mem (k.tasks s).pageDirectory v
  pin : ∀ v, v < 2 ^ 32 → k.Pinned s v → k'.Pinned s v
  card : k'.pmm.free.card = k.pmm.free.card - 2 * n

theorem Inv.mapUserStack_pages : ∀ (n va : Nat) {k : State}, Inv I X k → k.HasDir s →
    va % 4096 = 0 → va + n * 4096 ≤ 2 ^ 32 →
    (k.tasks s).ownedFrames.length + n ≤ TASK_MAX_OWNED_FRAMES →
    ∀ t, (Kernel.mapUserStack s n va k).1 = some t →
      StackMapped I s va n k (Kernel.mapUserStack s n va k).2 := by
  intro n
  induction n with
  | zero =>
    intro va k h _ _ _ _ t _
    exact ⟨fun v h1 h2 => by omega, fun v w a h1 h2 => by omega, fun _ _ _ _ => rfl,
      fun _ _ hp => hp, (Nat.sub_zero _).symm⟩
  | succ n ih =>
    intro va k h hs hpage hva hlen t ht
    obtain ⟨f, k₂, heq, hturn⟩ := h.mapUserStack_turn hs (by omega) (by omega) ht
    have hlen' := congrArg List.length hturn.own
    rw [List.length_append, List.length_singleton] at hlen'
    have hs2 : k₂.HasDir s := (hturn.ext.hasDir s).mpr hs
    rw [heq] at ht ⊢
    obtain ⟨-, hsucc⟩ := hturn.inv.mapUserStack n (va + 4096) hs2 (by omega) (by omega)
    obtain ⟨-, hext2, -⟩ := hsucc t ht
    have hrest := ih (va + 4096) hturn.inv hs2 (by omega) (by omega) (by omega) t ht
    have hdir2 := hturn.ext.dir s
    generalize Kernel.mapUserStack s n (va + 4096) _ = r at *
    -- the page mapped in this turn
    have hhere : ∀ v, va ≤ v → v < va + 4096 →
        walk r.2.mem (r.2.tasks s).pageDirectory v = some (f * 4096) ∧ r.2.Pinned s v := by
      intro v h1 h2
      obtain ⟨hwalk, hp2⟩ := hturn.page v (by omega) (by omega)
      rw [hrest.keep v (by omega) (by omega) (Or.inr hp2), hdir2]
      exact ⟨hwalk, hrest.pin v (by omega) hp2⟩
    -- the frames of the later pages were still free when `f` was not any more
    have hthere : ∀ v, va + 4096 ≤ v → v < va + 4096 + n * 4096 →
        walk r.2.mem (r.2.tasks s).pageDirectory v ≠ some (f * 4096) := fun v h1 h2 heq => by
      obtain ⟨g, hg, -, hwalk, -⟩ := hrest.stack v h1 h2
      have hgf : g = f := by
        rw [hwalk, Option.some.injEq] at heq
        omega
      exact Finset.notMem_erase f _ (hturn.free (hgf ▸ hg))
    refine ⟨fun v h1 h2 => ?_, fun v w a hv1 hv2 hw1 hw2 hv hw => ?_, fun v hv hout hcase => ?_,
      fun v hv hp => hrest.pin v hv (hturn.pin v hv hp), ?_⟩
    · by_cases hlt : v < va + 4096
      · exact ⟨f, hturn.mem, hext2.own s (by rw [hturn.own]; simp), hhere v h1 hlt⟩
      · obtain ⟨g, hg, hrest⟩ := hrest.stack v (by omega) (by omega)
        exact ⟨g, Finset.mem_of_mem_erase (hturn.free hg), hrest⟩
    · by_cases hv' : v < va + 4096 <;> by_cases hw' : w < va + 4096
      · omega
      · rw [(hhere v hv1 hv').1] at hv
        exact absurd (hw.trans hv.symm) (hthere w (by omega) (by omega))
      · rw [(hhere w hw1 hw').1] at hw
        exact absurd (hv.trans hw.symm) (hthere v (by omega) (by omega))
      · exact hrest.apart v w a (by omega) (by omega) (by omega) (by omega) hv hw
    · have hcase2 : v < I.kernelEnd ∨ k₂.Pinned s v := hcase.imp_right (hturn.pin v hv)
      rw [hrest.keep v hv (by omega) hcase2, hdir2]
      exact hturn.keep v hv (by omega) hcase
    · rw [hrest.card, hturn.card]
      omega

/-! ### task_create_user -/

theorem claimSlot_lt (h : k.numTasks ≤ MAX_TASKS) (hc : claimSlot k = some (s, k')) :
    s < k'.numTasks ∧ k'.numTasks ≤ MAX_TASKS ∧ k.numTasks ≤ k'.numTasks ∧
      k'.toPhys = k.toPhys ∧ k'.tasks = k.tasks := by
  have hc' := hc
  rcases claimSlot_eq_some hc with ⟨hdead, rfl⟩ | ⟨hnone, rfl, rfl⟩
  · exact ⟨(findDeadSlot_eq_some hdead).1, h, Nat.le_refl _, rfl, rfl⟩
  · unfold claimSlot at hc'
    rw [hnone] at hc'
    dsimp only at hc'
    split at hc'
    · simp at hc'
    · refine ⟨Nat.lt_succ_self _, ?_, Nat.le_succ _, rfl, rfl⟩
      dsimp only
      omega

/-- A slot is filled in anew: frames it still held are forgotten, its directory stays
until a new one replaces it. -/
theorem Inv.claim (h : Inv I X k) (hc : claimSlot k = some (s, k')) {f : Task → Task}
    (hdir : ∀ t, (f t).pageDirectory = t.pageDirectory) (hown : ∀ t, (f t).ownedFrames = [])
    (hstack : ∀ t, (f t).kernelStackTop = kstackTop I s) :
    Inv I X (k'.setTask s f) ∧ s < (k'.setTask s f).numTasks := by
  obtain ⟨hlt, hmax, hle, hphys, htasks⟩ := claimSlot_lt h.num hc
  have htask : ∀ t, (k'.setTask s f).tasks t = if t = s then f (k.tasks s) else k.tasks t :=
    fun t => by rw [State.tasks_setTask, htasks]
  have hpd : ∀ t, ((k'.setTask s f).tasks t).pageDirectory = (k.tasks t).pageDirectory :=
    fun t => by
    rw [htask]
    split
    · rename_i hts
      rw [hdir, hts]
    · rfl
  have hpmm : (k'.setTask s f).toPhys = k.toPhys := hphys
  generalize hk1 : k'.setTask s f = k1 at htask hpd hpmm
  have hnum : k1.numTasks = k'.numTasks := by rw [← hk1]; rfl
  refine ⟨h.restrict (Set.Subset.refl X) (fun q _ i _ => by rw [hpmm]) (fun t ht => ?_)
    (fun t => ?_) (fun o _ ho hf => ?_) (fun f' hf => ?_) (hnum ▸ hle) (hnum ▸ hmax), hnum ▸ hlt⟩
  · have ht' := (State.hasDir_congr (hpd t)).mp ht
    refine ⟨ht', hpd t, ?_⟩
    rw [htask]
    split
    · rename_i hts
      rw [hstack, (h.slot t ht').2, hts]
    · rfl
  · rw [htask]
    split
    · rw [hown]
      exact ⟨List.nil_subset _, List.nodup_nil⟩
    · exact ⟨List.Subset.refl _, h.nodup t⟩
  · rw [hpmm] at hf
    exact (h.inUse o ho).used hf
  · rw [hpmm] at hf
    exact h.free_above f' hf

theorem Inv.claimUser (h : Inv I X k) (hc : claimSlot k = some (s, k')) (priority : Nat) :
    Inv I X (k'.setTask s (Task.initUser I s priority)) ∧
      s < (k'.setTask s (Task.initUser I s priority)).numTasks ∧
      (k'.setTask s (Task.initUser I s priority)).toPhys = k.toPhys :=
  have h1 := h.claim hc (f := Task.initUser I s priority) (fun _ => rfl) (fun _ => rfl) fun _ => rfl
  ⟨h1.1, h1.2, (claimSlot_lt h.num hc).2.2.2.1⟩

/-- The state in which `task_create_user` starts to map the stack: slot `s` is filled in
and has the directory in frame `f`. -/
def newUser (I : Image) (k : State) (s priority f : Nat) (p : Pmm) : State :=
  withDir (k.setTask s (Task.initUser I s priority)) s f p

/-- The outcomes of `task_create_user` up to the stack. -/
theorem taskCreateUser_cases (h : Inv I X k) (priority : Nat) :
    (claimSlot k = none ∧ taskCreateUser I k priority = (none, k)) ∨
      ∃ s k1, claimSlot k = some (s, k1) ∧
        ((k.pmm.free = ∅ ∧ taskCreateUser I k priority =
            (none, k1.setTask s (Task.initUser I s priority))) ∨
          ∃ f p, k.pmm.next = some f ∧ f ∈ k.pmm.free ∧ p.free = k.pmm.free.erase f ∧
            taskCreateUser I k priority =
              mapUserStack s 4 0x8FFFC000 (newUser I k1 s priority f p)) := by
  unfold taskCreateUser
  cases hc : claimSlot k with
  | none => exact Or.inl ⟨rfl, rfl⟩
  | some r =>
    obtain ⟨s, k1⟩ := r
    obtain ⟨h1, -, hphys1⟩ := h.claimUser hc priority
    refine Or.inr ⟨s, k1, rfl, ?_⟩
    have hspec := h1.cloneKernelPageDirectory_spec
    dsimp only
    generalize hr : cloneKernelPageDirectory _ = r at hspec
    obtain ⟨dir, phys⟩ := r
    dsimp only at hspec ⊢
    cases hspec with
    | full hfree =>
      rw [hphys1] at hfree
      exact Or.inl ⟨hfree, by rw [if_pos rfl]⟩
    | @made f p hnext hmem hfree =>
      obtain ⟨-, hne, -⟩ := h1.fresh_page hmem
      rw [if_neg hne]
      rw [hphys1] at hnext hmem hfree
      exact Or.inr ⟨f, p, hnext, hmem, hfree, rfl⟩

/-- The new directory keeps the invariant. -/
theorem Inv.newUser (h : Inv I X k) (hc : claimSlot k = some (s, k')) (priority : Nat) {p : Pmm}
    (hmem : f ∈ k.pmm.free) (hfree : p.free = k.pmm.free.erase f) :
    Inv I X (newUser I k' s priority f p) ∧ (Kernel.newUser I k' s priority f p).HasDir s ∧
      ((Kernel.newUser I k' s priority f p).tasks s).ownedFrames = [] := by
  obtain ⟨h1, hslot, hphys1⟩ := h.claimUser hc priority
  have hself : (k'.setTask s (Task.initUser I s priority)).tasks s =
      Task.initUser I s priority (k'.tasks s) := by rw [State.tasks_setTask, if_pos rfl]
  obtain ⟨h2, hdir⟩ := h1.clone hslot (by rw [hself]; rfl) (by rw [hphys1]; exact hmem)
    (by rw [hphys1]; exact hfree)
  refine ⟨h2, hdir, ?_⟩
  rw [Kernel.newUser, withDir, State.setTask_keeps Task.ownedFrames rfl]
  exact congrArg Task.ownedFrames hself

theorem Inv.taskCreateUser (h : Inv I X k) (priority : Nat) :
    Inv I X (taskCreateUser I k priority).2 ∧
      ∀ s, (Kernel.taskCreateUser I k priority).1 = some s →
        ∃ k1 f p, claimSlot k = some (s, k1) ∧ f ∈ k.pmm.free ∧ p.free = k.pmm.free.erase f ∧
          Extends X (Kernel.newUser I k1 s priority f p) (Kernel.taskCreateUser I k priority).2 ∧
          ((Kernel.taskCreateUser I k priority).2.tasks s).ownedFrames.length = 4 ∧
          (∀ u, ((Kernel.taskCreateUser I k priority).2.tasks u).heapVirtNext =
            ((Kernel.newUser I k1 s priority f p).tasks u).heapVirtNext) ∧
          Kernel.taskCreateUser I k priority =
            Kernel.mapUserStack s 4 0x8FFFC000 (Kernel.newUser I k1 s priority f p) := by
  rcases taskCreateUser_cases h priority with
    ⟨-, heq⟩ | ⟨s, k1, hc, ⟨-, heq⟩ | ⟨f, p, hnext, hmem, hfree, heq⟩⟩
  · rw [heq]
    exact ⟨h, fun s hs => by simp at hs⟩
  · rw [heq]
    exact ⟨(h.claimUser hc priority).1, fun s hs => by simp at hs⟩
  · obtain ⟨h1, hdir, hown⟩ := h.newUser hc priority hmem hfree
    rw [heq]
    obtain ⟨h2, hsucc⟩ := h1.mapUserStack 4 0x8FFFC000 hdir (by decide) (by rw [hown]; decide)
    refine ⟨h2, fun t ht => ?_⟩
    obtain ⟨rfl, hext, hlen, hbrk⟩ := hsucc t ht
    rw [hown] at hlen
    exact ⟨k1, f, p, hc, hmem, hfree, hext, hlen, hbrk, rfl⟩

/-- The directories translate as before, up to the entry for `f`, and the new one as the
kernel's. -/
theorem Inv.walk_cloneMem (h : Inv I X k) (hmem : f ∈ k.pmm.free) {q' : Nat} (hq' : k.IsDir q')
    (hq : q = q' ∨ q = f * 4096 ∧ q' = pageDirectory) (hv : v < 2 ^ 32) :
    walk (cloneMem k.mem (f * 4096)) q v = walk (protectMem k.mem (f * 4096)) q' v := by
  obtain ⟨hpage, -, hlt⟩ := h.fresh_page hmem
  have hpd := pdIndex_lt hv
  have hdir : (cloneMem k.mem (f * 4096)).entry q (pdIndex v) = k.mem.entry q' (pdIndex v) := by
    rcases hq with rfl | ⟨rfl, rfl⟩
    · exact h.entry_cloneMem hmem hq' hpd
    · exact h.entry_cloneMem_new hmem hpd
  have hprot := h.entry_protectMem_dir hpage hlt hq' hpd
  refine walk_congr (hdir.trans hprot.symm) ?_
  rw [hprot]
  exact Mem.entry_copy_page hpage (h.table_inUse hq' hpd).page (ptIndex_lt v)
    (h.fresh_ne_table hmem hq' hpd) _

/-- The address space of a task that was just created in state `k`. -/
structure UserSpace (I : Image) (k : State) (s : Nat) (k' : State) : Prop where
  hasDir : k'.HasDir s
  stack : ∀ v, 0x8FFFC000 ≤ v → v < 0x90000000 → ∃ a ∈ (k'.tasks s).ownedFrames,
    walk k'.mem (k'.tasks s).pageDirectory v = some a ∧ k'.Pinned s v
  /-- each page of the stack has a frame of its own -/
  apart : ∀ v w a, 0x8FFFC000 ≤ v → v < 0x90000000 → 0x8FFFC000 ≤ w → w < 0x90000000 →
    walk k'.mem (k'.tasks s).pageDirectory v = some a →
    walk k'.mem (k'.tasks s).pageDirectory w = some a → v / 4096 = w / 4096
  low : ∀ v, v < I.kernelEnd →
    walk k'.mem (k'.tasks s).pageDirectory v = walk k.mem pageDirectory v
  card : k'.pmm.free.card = k.pmm.free.card - 9

theorem Inv.userSpace (h : Inv I X k) (priority : Nat)
    (hret : (Kernel.taskCreateUser I k priority).1 = some s) :
    UserSpace I k s (Kernel.taskCreateUser I k priority).2 := by
  obtain ⟨k1, f, p, hc, hmem, hfree, hext, -, -, heq⟩ := (h.taskCreateUser priority).2 s hret
  obtain ⟨h1, -, hphys1⟩ := h.claimUser hc priority
  obtain ⟨h2, hdir, hown⟩ := h.newUser hc priority hmem hfree
  have hpd : ((Kernel.newUser I k1 s priority f p).tasks s).pageDirectory = f * 4096 :=
    (withDir_pageDirectory _ s f p s).trans (if_pos rfl)
  have hwalk : ∀ v, v < I.kernelEnd →
      walk (Kernel.newUser I k1 s priority f p).mem (f * 4096) v = walk k.mem pageDirectory v :=
    fun v hv => by
      have hmem1 : f ∈ (k1.setTask s (Task.initUser I s priority)).pmm.free := by
        rw [hphys1]
        exact hmem
      have hv32 := Nat.lt_trans hv I.kernelEnd_lt
      refine (h1.walk_cloneMem hmem1 (State.isDir_kernel _) (Or.inr ⟨rfl, rfl⟩) hv32).trans ?_
      rw [h1.walk_protectMem_keep hmem1 (State.isDir_kernel _) hv32 (Or.inl hv), hphys1]
  have hcard : (Kernel.newUser I k1 s priority f p).pmm.free.card = k.pmm.free.card - 1 := by
    change p.free.card = _
    rw [hfree, Finset.card_erase_of_mem hmem]
  rw [heq] at hret hext ⊢
  have hpages := h2.mapUserStack_pages 4 0x8FFFC000 hdir (by decide) (by decide)
    (by rw [hown]; decide) s hret
  have hend := I.kernelEnd_le
  refine ⟨(hext.hasDir s).mpr hdir, fun v h1 h2 => ?_, fun v w a hv hv' hw hw' =>
    hpages.apart v w a hv (by omega) hw (by omega), fun v hv => ?_, ?_⟩
  · obtain ⟨g, -, hpage⟩ := hpages.stack v h1 (by omega)
    exact ⟨g * 4096, hpage⟩
  · rw [hpages.keep v (by omega) (Or.inl (by omega)) (Or.inl hv), hpd]
    exact hwalk v hv
  · rw [hpages.card, hcard]
    omega

/-! ### Stores in the kernel image -/

/-- Pushed words lie right below the stack pointer. -/
theorem pushWords_out {b : Nat} : ∀ (ws : List Nat) (m : Mem) (sp : Nat), 4 * ws.length ≤ sp →
    b < sp - 4 * ws.length ∨ sp ≤ b → (pushWords m sp ws).1 b = m b := by
  intro ws
  induction ws with
  | nil => exact fun _ _ _ _ => rfl
  | cons w ws ih =>
    intro m sp hle hb
    rw [List.length_cons] at hle hb
    rw [pushWords, ih _ _ (by omega) (by omega)]
    exact Mem.store_out (by omega)

/-- Stores inside the kernel image do not reach a frame in use, -/
theorem InUse.entry_image {p : Pmm} (ha : InUse I p a) {m m' : Mem}
    (hm : ∀ b, b < 0x100000 ∨ I.kernelEnd ≤ b → m b = m' b) {i : Nat} (hi : i < 1024) :
    m.entry a i = m'.entry a i := by
  have hp := ha.page
  unfold Mem.Page at hp
  refine Mem.entry_congr ha.page hi fun b hb => hm b ?_
  rcases ha.above with hk | hge
  · rw [hk] at hb
    have hd : pageDirectory / 4096 = 16 := by decide
    omega
  · omega

/-- and so no directory. -/
theorem Inv.image_store (h : Inv I X k) {m : Mem}
    (hm : ∀ b, b < 0x100000 ∨ I.kernelEnd ≤ b → m b = k.mem b) :
    Inv I X { k with mem := m } :=
  h.mem_congr (p := ⟨m, k.pmm⟩) (fun _ hq _ hi => (h.dir_inUse hq).entry_image hm hi)
    (Finset.Subset.refl _)

/-- Words pushed inside the kernel image. -/
theorem pushWords_image {m : Mem} {sp : Nat} {ws : List Nat} (hlow : 0x100000 + 4 * ws.length ≤ sp)
    (hhigh : sp ≤ I.kernelEnd) (b : Nat) (hb : b < 0x100000 ∨ I.kernelEnd ≤ b) :
    (pushWords m sp ws).1 b = m b :=
  pushWords_out ws m sp (by omega) (by omega)

/-- The stacks of a slot lie inside the kernel image. -/
theorem kstackTop_bounds (I : Image) (hs : s < MAX_TASKS) :
    0x100000 + 8192 ≤ kstackTop I s ∧ kstackTop I s ≤ I.kernelEnd := by
  have hge := I.taskKstacks_ge
  have hle := I.taskKstacks_le
  unfold MAX_TASKS at hs
  unfold kstackTop TASK_GUARD_SIZE TASK_KSTACK_SIZE
  omega

theorem Inv.push_stack (h : Inv I X k) (hs : s < MAX_TASKS) (ws : List Nat)
    (hlen : ws.length ≤ 4096) :
    Inv I X { k with
      mem := (pushWords k.mem (I.taskStacks + s * (TASK_GUARD_SIZE + USER_STACK_SIZE)
        + (TASK_GUARD_SIZE + USER_STACK_SIZE)) ws).1 } := by
  have hge := I.taskStacks_ge
  have hle := I.taskStacks_le
  unfold MAX_TASKS at hs
  unfold TASK_GUARD_SIZE USER_STACK_SIZE
  exact h.image_store (pushWords_image (by omega) (by omega))

/-! ### create_task and task_start_user -/

/-- The guard page of the kernel stack of a slot. -/
def kstackGuard (I : Image) (s : Nat) : Nat :=
  I.taskKstacks + s * (TASK_GUARD_SIZE + TASK_KSTACK_SIZE)

theorem kstackGuard_lt (I : Image) (hs : s < MAX_TASKS) : kstackGuard I s < I.kernelEnd := by
  have := I.taskKstacks_le
  unfold MAX_TASKS at hs
  unfold kstackGuard TASK_GUARD_SIZE TASK_KSTACK_SIZE
  omega

theorem Inv.createTask (h : Inv I X k) (entry priority : Nat) :
    Inv I X (createTask I k entry priority).2 := by
  unfold Kernel.createTask
  cases hc : claimSlot k with
  | none => exact h
  | some r =>
    obtain ⟨s, k1⟩ := r
    obtain ⟨hlt, hmax, -, -, -⟩ := claimSlot_lt h.num hc
    have hs : s < MAX_TASKS := Nat.lt_of_lt_of_le hlt hmax
    dsimp only
    generalize hr : pushWords k1.mem _ _ = r
    obtain ⟨mem, esp⟩ := r
    dsimp only
    obtain ⟨h1, hslot⟩ := h.claim hc (f := Task.initKernel I s esp k1.nextPid priority)
      (fun _ => rfl) (fun _ => rfl) fun _ => rfl
    have h2 := h1.push_stack hs
      ([0x0202, 0x10, entry, 0, 32] ++ List.replicate 8 0 ++ List.replicate 4 0x18) (by simp)
    have hpush : (pushWords (k1.setTask s (Task.initKernel I s esp k1.nextPid priority)).mem
        (I.taskStacks + s * (TASK_GUARD_SIZE + USER_STACK_SIZE)
          + (TASK_GUARD_SIZE + USER_STACK_SIZE))
        ([0x0202, 0x10, entry, 0, 32] ++ List.replicate 8 0 ++ List.replicate 4 0x18)).1 = mem :=
      congrArg Prod.fst hr
    rw [hpush] at h2
    generalize hk2 : State.setTask _ s (Task.initKernel I s esp k1.nextPid priority) = k₂
    have h3 : Inv I X k₂ := by
      rw [← hk2]
      exact h2.congr rfl rfl rfl
    have hslot2 : s < k₂.numTasks := by
      rw [← hk2]
      exact hlt
    have hstack : (k₂.tasks s).kernelStackTop = kstackTop I s := by
      rw [← hk2, State.tasks_setTask, if_pos rfl]
      rfl
    have hspec := h3.cloneKernelPageDirectory_spec
    generalize cloneKernelPageDirectory k₂.toPhys = r at hspec
    obtain ⟨dir, phys⟩ := r
    dsimp only at hspec ⊢
    cases hspec with
    | full hfree =>
      rw [if_pos rfl]
      exact h3.setTask (f := fun t => { t with state := .dead }) rfl rfl rfl
    | @made f p hnext hmem hfree =>
      obtain ⟨-, hne, -⟩ := h3.fresh_page hmem
      obtain ⟨h4, hdir⟩ := h3.clone hslot2 hstack hmem hfree
      have hpd : ((withDir k₂ s f p).tasks s).pageDirectory = f * 4096 :=
        (withDir_pageDirectory k₂ s f p s).trans (if_pos rfl)
      have hstackGuard : I.taskStacks + s * (TASK_GUARD_SIZE + USER_STACK_SIZE) < 2 ^ 32 := by
        have := I.taskStacks_le
        have := I.kernelEnd_lt
        unfold MAX_TASKS at hs
        unfold TASK_GUARD_SIZE USER_STACK_SIZE
        omega
      have hkGuard := Nat.lt_trans (kstackGuard_lt I hs) I.kernelEnd_lt
      have h5 := h4.unmapPageDir hdir hstackGuard
      rw [hpd] at h5
      have h6 := Inv.unmapPageDir h5 (s := s) hdir hkGuard
      dsimp only at h6
      rw [hpd] at h6
      rw [if_neg hne]
      exact h6

/-- The frame `task_start_user` builds for the return to user mode. -/
def startFrame (entry userEsp : Nat) : List Nat :=
  [GDT_USER_DATA_SEL, if userEsp ≠ 0 then userEsp else USER_STACK_TOP, 0x0202, GDT_USER_CODE_SEL,
    entry, 0, 128] ++ List.replicate 8 0 ++ List.replicate 4 GDT_USER_DATA_SEL

theorem pushWords_startFrame (I : Image) (hs : s < MAX_TASKS) (entry userEsp : Nat) {m : Mem} :
    ∀ b, b < 0x100000 ∨ I.kernelEnd ≤ b →
      (pushWords m (kstackTop I s) (startFrame entry userEsp)).1 b = m b := by
  have hb := kstackTop_bounds I hs
  exact pushWords_image (by simp [startFrame]; omega) hb.2

theorem taskStartUser_eq (I : Image) (hslot : s < k.numTasks) (entry userEsp : Nat) :
    taskStartUser I k s entry userEsp =
      { k with
        toPhys := unmapPageDir
          ⟨(pushWords k.mem (k.tasks s).kernelStackTop (startFrame entry userEsp)).1, k.pmm⟩
          (k.tasks s).pageDirectory (kstackGuard I s)
        nextPid := wrap (k.nextPid + 1) }.setTask s fun t =>
          { t with
            esp := (pushWords k.mem (k.tasks s).kernelStackTop (startFrame entry userEsp)).2
            pid := k.nextPid
            state := .ready } := by
  unfold taskStartUser
  rw [if_neg (slot_ok hslot), Int.toNat_natCast]
  dsimp only
  rw [State.tasks_setTask, if_pos rfl]
  rfl

theorem Inv.taskStartUser (h : Inv I X k) (hs : k.HasDir s) (entry userEsp : Nat) :
    Inv I X (taskStartUser I k s entry userEsp) := by
  obtain ⟨hslot, htop⟩ := h.slot s hs
  have hs32 : s < MAX_TASKS := Nat.lt_of_lt_of_le hslot h.num
  have h1 := h.image_store (htop ▸ pushWords_startFrame I hs32 entry userEsp)
  have h2 := h1.unmapPageDir (s := s) hs (Nat.lt_trans (kstackGuard_lt I hs32) I.kernelEnd_lt)
  rw [taskStartUser_eq I hslot]
  generalize (pushWords k.mem (k.tasks s).kernelStackTop (startFrame entry userEsp)).2 = esp
  have h3 := h2.setTask (s := s) (f := fun t => { t with esp, pid := k.nextPid, state := .ready })
    rfl rfl rfl
  exact h3.congr rfl rfl rfl

theorem Inv.createUserTask (h : Inv I X k) (entry priority : Nat) :
    Inv I X (createUserTask I k entry priority).2 := by
  obtain ⟨h1, hsucc⟩ := h.taskCreateUser priority
  unfold Kernel.createUserTask
  generalize Kernel.taskCreateUser I k priority = r at h1 hsucc
  obtain ⟨ret, k1⟩ := r
  cases ret with
  | none => exact h1
  | some s =>
    obtain ⟨k₂, f, p, hc, hmem, hfree, hext, -⟩ := hsucc s rfl
    obtain ⟨-, hdir, -⟩ := h.newUser hc priority hmem hfree
    exact h1.taskStartUser ((hext.hasDir s).mpr hdir) entry 0

end Crusadia.Kernel
