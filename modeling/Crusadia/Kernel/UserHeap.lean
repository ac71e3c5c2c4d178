import Crusadia.Kernel.Run

/-!
# Crusadia.Kernel.UserHeap

The user heap: which frames **`task_set_heap_break`** leaves mapped.

`HeapInv M` says of every task that the pages `M` of its heap show frames it owns, a
different one each, and that every other page of the heap shows a frame of the task or
what the kernel shows there. Growing by a page adds it to `M` and releasing a page takes
it out, provided `unmap_page_dir` gets a frame for its copy of the table
(`HeapInv.map`, `HeapInv.release`). It reports nothing when it does not, and then a page
stays mapped whose frame is freed. `BreakSafe` says how many frames a call needs.
-/

namespace Crusadia.Kernel

variable {I : Image} {X : Set Nat} {k k' : State} {s v va a f q virt : Nat} {l : List Nat}
  {M : Nat → Nat → Prop}
  {newBreak : Nat}

/-! ### Untracking a frame -/

/-- `task_untrack_frame` takes one frame out of the list. -/
theorem untrack_perm (ha : a ∈ l) :
    ∃ l', untrack l a = some l' ∧ l'.Perm (l.erase a) := by
  unfold untrack
  cases hidx : l.findIdx? (· = a) with
  | none =>
    have := List.findIdx?_eq_none_iff.mp hidx a ha
    simp at this
  | some i =>
    obtain ⟨hi, hget, -⟩ := List.findIdx?_eq_some_iff_getElem.mp hidx
    have hget : l[i] = a := by simpa using hget
    refine ⟨_, rfl, ?_⟩
    have hne : l ≠ [] := List.ne_nil_of_length_pos (by omega)
    have hlast : l.getD (l.length - 1) 0 = l.getLast hne := by
      rw [List.getD_eq_getElem _ _ (by omega), List.getLast_eq_getElem]
    have hset : l.set i (l.getLast hne) ≠ [] := by simpa using hne
    rw [hlast]
    -- the list without its last element, with that element in place of the frame
    have hperm : (l.set i (l.getLast hne)).Perm (l.getLast hne :: l.erase a) := by
      rw [List.set_eq_take_append_cons_drop, if_pos hi]
      refine List.perm_middle.trans (List.Perm.cons _ ?_)
      have hsplit : l = l.take i ++ a :: l.drop (i + 1) := by
        rw [← hget, List.getElem_cons_drop, List.take_append_drop]
      have := (List.perm_cons_erase ha).symm.trans (List.Perm.of_eq hsplit)
      exact (List.Perm.cons_inv (this.trans List.perm_middle)).symm
    have hdrop : (l.set i (l.getLast hne)).getLast hset = l.getLast hne := by
      rw [List.getLast_eq_getElem, List.getElem_set]
      split
      · rfl
      · simp only [List.length_set, List.getLast_eq_getElem]
    have happ := List.dropLast_append_getLast hset
    rw [hdrop] at happ
    rw [← happ] at hperm
    exact List.Perm.cons_inv ((List.perm_append_singleton _ _).symm.trans hperm)

/-- The frame at `a` is freed, and slot `s` is left with the frames `l`. -/
def untracked (k : State) (s : Nat) (l : List Nat) (a : Nat) : State :=
  { k with pmm := k.pmm.freeBlock a }.setTask s fun t => { t with ownedFrames := l }

theorem ownedFrames_untracked (k : State) (s : Nat) (l : List Nat) (a t : Nat) :
    ((untracked k s l a).tasks t).ownedFrames = if t = s then l else (k.tasks t).ownedFrames := by
  rw [untracked, State.tasks_setTask]
  split <;> rfl

theorem untracked_keeps {α : Type} (g : Task → α) (k : State) (s : Nat) (l : List Nat) (a : Nat)
    (hg : ∀ t : Task, g { t with ownedFrames := l } = g t) (t : Nat) :
    g ((untracked k s l a).tasks t) = g (k.tasks t) := by
  rw [untracked, State.setTask_keeps g (hg _)]

/-- A task gives a frame back. -/
theorem Inv.untrack (h : Inv I X k) (ha : a ∈ (k.tasks s).ownedFrames)
    (hl : l.Perm ((k.tasks s).ownedFrames.erase a)) :
    Inv I X (untracked k s l a) := by
  have hlive : (Obj.own s a).Live X k := ha
  have hnot : a ∉ l := fun hmem => (h.nodup s).not_mem_erase (hl.mem_iff.mp hmem)
  have hown := ownedFrames_untracked k s l a
  have hdir : ∀ t, ((untracked k s l a).tasks t).pageDirectory = (k.tasks t).pageDirectory ∧
      ((untracked k s l a).tasks t).kernelStackTop = (k.tasks t).kernelStackTop := fun t =>
    ⟨untracked_keeps Task.pageDirectory k s l a (fun _ => rfl) t,
      untracked_keeps Task.kernelStackTop k s l a (fun _ => rfl) t⟩
  have hused := fun o ho => h.used_freeBlock (o := o) hlive ho
  have habove := h.above_freeBlock hlive (by simp)
  refine h.restrict (Set.Subset.refl X) (fun q _ i _ => rfl) (fun t ht => ?_) (fun t => ?_)
    (fun o ho hold => hused o hold ?_) habove (Nat.le_refl _) h.num
  · exact ⟨(State.hasDir_congr (hdir t).1).mp ht, hdir t⟩
  · rw [hown]
    split
    · rename_i hts
      subst hts
      exact ⟨List.Subset.trans hl.subset List.erase_subset, hl.nodup_iff.mpr ((h.nodup t).erase a)⟩
    · exact ⟨List.Subset.refl _, h.nodup t⟩
  · intro heq
    have hmem : a ∈ ((untracked k s l a).tasks s).ownedFrames := by
      rw [heq] at ho
      exact ho
    rw [hown, if_pos rfl] at hmem
    exact hnot hmem

/-! ### The pages of the heap -/

/-- An address of the heap region. -/
def InHeap (v : Nat) : Prop := USER_HEAP_BASE ≤ v ∧ v < USER_HEAP_MAX

theorem InHeap.lt (h : InHeap v) : v < 2 ^ 32 := Nat.lt_trans h.2 (by decide)

/-- Page `v` of the heap of slot `s` shows the frame at `a`, and not because the kernel
shows it there. `M` are the pages the heap consists of. -/
structure Mine (M : Nat → Nat → Prop) (k : State) (s v a : Nat) : Prop where
  heap : InHeap v
  walk : walk k.mem (k.tasks s).pageDirectory v = some a
  own : M s v ∨ a ≠ pageOf v

/-- The heaps of all tasks, where `M` are the pages that belong to them. -/
structure HeapInv (M : Nat → Nat → Prop) (k : State) : Prop where
  /-- the kernel maps the region to itself -/
  ident : ∀ v, InHeap v → walk k.mem pageDirectory v = some (pageOf v)
  own : ∀ s, k.HasDir s → ∀ v a, Mine M k s v a → a ∈ (k.tasks s).ownedFrames
  mapped : ∀ s, k.HasDir s → ∀ v, InHeap v → M s v →
    ∃ a, walk k.mem (k.tasks s).pageDirectory v = some a
  inj : ∀ s, k.HasDir s → ∀ v v' a, Mine M k s v a → Mine M k s v' a → v / 4096 = v' / 4096

theorem HeapInv.mono {M' : Nat → Nat → Prop} (h : HeapInv M k) (hsub : ∀ t v, M' t v → M t v) :
    HeapInv M' k := by
  have hmine : ∀ {t v a}, Mine M' k t v a → Mine M k t v a := fun hm =>
    ⟨hm.heap, hm.walk, hm.own.imp_left (hsub _ _)⟩
  exact ⟨h.ident, fun t ht v a hm => h.own t ht v a (hmine hm),
    fun t ht v hv hm => h.mapped t ht v hv (hsub t v hm),
    fun t ht v v' a hm hm' => h.inj t ht v v' a (hmine hm) (hmine hm')⟩

/-- Only what the tasks see, their directories and that they own their frames matter. -/
theorem HeapInv.congr (h : HeapInv M k)
    (hdir : ∀ t, (k'.tasks t).pageDirectory = (k.tasks t).pageDirectory)
    (hown : ∀ t, (k.tasks t).ownedFrames ⊆ (k'.tasks t).ownedFrames)
    (hwalk : ∀ q, k.IsDir q → ∀ v, InHeap v → walk k'.mem q v = walk k.mem q v) : HeapInv M k' := by
  have hhas : ∀ {t}, k'.HasDir t → k.HasDir t := (State.hasDir_congr (hdir _)).mp
  have hmine : ∀ {t v a}, k.HasDir t → Mine M k' t v a → Mine M k t v a := fun ht hm => by
    have hw := hm.walk
    rw [hdir, hwalk _ ht.isDir _ hm.heap] at hw
    exact ⟨hm.heap, hw, hm.own⟩
  refine ⟨fun v hv => ?_, fun t ht v a hm => ?_, fun t ht v hv hm => ?_,
    fun t ht v v' a hm hm' => ?_⟩
  · rw [hwalk _ k.isDir_kernel v hv]
    exact h.ident v hv
  · exact hown t (h.own t (hhas ht) v a (hmine (hhas ht) hm))
  · rw [hdir, hwalk _ (hhas ht).isDir v hv]
    exact h.mapped t (hhas ht) v hv hm
  · exact h.inj t (hhas ht) v v' a (hmine (hhas ht) hm) (hmine (hhas ht) hm')

section

variable (h : HeapInv M k) (hinv : Inv I X k)
include h hinv

/-- A frame that is mapped to itself in the kernel directory changes nothing in the heaps. -/
theorem HeapInv.walk_protectMem (hmem : f ∈ k.pmm.free) (hq : k.IsDir q) (hv : InHeap v) :
    walk (protectMem k.mem (f * 4096)) q v = walk k.mem q v := by
  obtain ⟨hpage, -, hlt⟩ := hinv.fresh_page hmem
  rcases hinv.walk_protectMem hpage hlt hq hv.lt with ⟨hwalk, hpv, hshare⟩ | ⟨hwalk, -⟩
  · have hpdv := ((page_eq_iff v _).mp hpv).1
    rw [← hpdv] at hshare
    rw [hwalk, hinv.walk_of_shares hq hv.lt hv.lt rfl hshare, h.ident v hv]
    have heq : f * 4096 = pageOf v := by
      unfold pageOf
      unfold Mem.Page at hpage
      omega
    rw [heq]
  · exact hwalk

/-- What the tasks see in their heaps after `unmap_page_dir` got a frame. -/
theorem HeapInv.walk_unmap (hs : k.HasDir s)
    (hvirt : virt < 2 ^ 32) (hne : k.pmm.free ≠ ∅) (hq : k.IsDir q) (hv : InHeap v) :
    walk (unmapPageDir k.toPhys (k.tasks s).pageDirectory virt).mem q v =
      if q = (k.tasks s).pageDirectory ∧ v / 4096 = virt / 4096 then none else walk k.mem q v := by
  have hspec := hinv.unmapPageDir_spec hs.isDir hvirt
  generalize Kernel.unmapPageDir k.toPhys (k.tasks s).pageDirectory virt = p at hspec
  cases hspec with
  | full hfree => exact absurd hfree hne
  | @copied f p hnext hmem hfree =>
    rw [hinv.walk_copied hs.isDir hvirt hmem hq hv.lt, h.walk_protectMem hinv hmem hq hv]

/-- What the tasks see in their heaps after a page was mapped, either with a frame for the
copy of the table or in a table of the task's own. -/
theorem HeapInv.walk_map (hs : k.HasDir s) {phys : Nat}
    (hphys : phys < 2 ^ 32) (hvirt : virt < 2 ^ 32)
    (hsafe : k.pmm.free ≠ ∅ ∨ ¬ k.Shares (k.tasks s).pageDirectory (pdIndex virt))
    (hq : k.IsDir q) (hv : InHeap v) : walk (taskMapUserPage k s phys virt 0x07).2.mem q v =
      if q = (k.tasks s).pageDirectory ∧ v / 4096 = virt / 4096 then some (pageOf phys)
      else walk k.mem q v := by
  have hslot := (hinv.slot s hs).1
  cases hnext : k.pmm.next with
  | some f =>
    rw [hinv.walk_taskMapUserPage_some hslot hs hphys hvirt hnext hq hv.lt,
      h.walk_protectMem hinv (Pmm.next_mem hnext) hq hv]
  | none =>
    have hpriv := hsafe.resolve_left fun hne => hne (Pmm.next_eq_none_iff.mp hnext)
    have hpd := pdIndex_lt hvirt
    rw [hinv.walk_taskMapUserPage_none hslot hs hphys hvirt hnext hq hv.lt]
    have hiff : (v / 4096 = virt / 4096 ∧
        k.table q (pdIndex virt) = k.table (k.tasks s).pageDirectory (pdIndex virt)) ↔
        q = (k.tasks s).pageDirectory ∧ v / 4096 = virt / 4096 := by
      refine ⟨fun hc => ⟨?_, hc.1⟩, fun hc => ⟨hc.2, by rw [hc.1]⟩⟩
      rcases (hinv.table_eq hq hs.isDir hpd hpd hc.2).2 with heq | ⟨-, hshare⟩
      · exact heq
      · exact absurd hshare hpriv
    by_cases hc : q = (k.tasks s).pageDirectory ∧ v / 4096 = virt / 4096
    · rw [if_pos (hiff.mpr hc), if_pos hc]
    · rw [if_neg fun hc' => hc (hiff.mp hc'), if_neg hc]

/-- The page of `va` in the heap of slot `s` shows `o` from now on, and the other pages what they
showed. -/
theorem HeapInv.remap (hs : k.HasDir s) {M' : Nat → Nat → Prop} {o : Option Nat}
    (hdir : ∀ t, (k'.tasks t).pageDirectory = (k.tasks t).pageDirectory)
    (hwalk : ∀ q, k.IsDir q → ∀ v, InHeap v → walk k'.mem q v =
      if q = (k.tasks s).pageDirectory ∧ v / 4096 = va / 4096 then o else walk k.mem q v)
    (hM : ∀ t v, M' t v → if t = s ∧ v / 4096 = va / 4096 then o.isSome = true else M t v)
    (hkeep : ∀ t v a, k.HasDir t → Mine M k t v a → ¬ (t = s ∧ v / 4096 = va / 4096) →
      a ∈ (k'.tasks t).ownedFrames)
    (hnew : ∀ a, o = some a → a ∈ (k'.tasks s).ownedFrames ∧
      ∀ t v, k.HasDir t → ¬ Mine M k t v a) : HeapInv M' k' := by
  have hhas : ∀ {t}, k'.HasDir t → k.HasDir t := (State.hasDir_congr (hdir _)).mp
  -- a frame a task shows is the new one, on the new page, or one it showed before
  have hcases : ∀ {t v a}, k'.HasDir t → Mine M' k' t v a →
      (t = s ∧ v / 4096 = va / 4096 ∧ o = some a) ∨
        Mine M k t v a ∧ ¬ (t = s ∧ v / 4096 = va / 4096) := by
    intro t v a ht hm
    have hw := hm.walk
    rw [hdir, hwalk _ (hhas ht).isDir v hm.heap] at hw
    split at hw
    · rename_i hc
      exact Or.inl ⟨hinv.dir_inj (hhas ht) hs hc.1, hc.2, hw⟩
    · rename_i hc
      have hc' : ¬ (t = s ∧ v / 4096 = va / 4096) := fun hcc => hc ⟨by rw [hcc.1], hcc.2⟩
      refine Or.inr ⟨⟨hm.heap, hw, hm.own.imp_left fun hMv => ?_⟩, hc'⟩
      simpa only [if_neg hc'] using hM t v hMv
  refine ⟨fun v hv => ?_, fun t ht v a hm => ?_, fun t ht v hv hm => ?_,
    fun t ht v v' a hm hm' => ?_⟩
  · rw [hwalk _ k.isDir_kernel v hv, if_neg fun hc => hs.2 hc.1.symm]
    exact h.ident v hv
  · rcases hcases ht hm with ⟨rfl, -, ho⟩ | ⟨hm', hc⟩
    · exact (hnew a ho).1
    · exact hkeep t v a (hhas ht) hm' hc
  · have hMv := hM t v hm
    rw [hdir, hwalk _ (hhas ht).isDir v hv]
    by_cases hc : t = s ∧ v / 4096 = va / 4096
    · rw [if_pos hc] at hMv
      rw [if_pos ⟨by rw [hc.1], hc.2⟩]
      exact Option.isSome_iff_exists.mp hMv
    · rw [if_neg hc] at hMv
      rw [if_neg fun hcc => hc ⟨hinv.dir_inj (hhas ht) hs hcc.1, hcc.2⟩]
      exact h.mapped t (hhas ht) v hv hMv
  · rcases hcases ht hm with ⟨-, hpv, ho⟩ | ⟨hold, -⟩ <;>
      rcases hcases ht hm' with ⟨-, hpv', ho'⟩ | ⟨hold', -⟩
    · exact hpv.trans hpv'.symm
    · exact absurd hold' ((hnew a ho).2 t v' (hhas ht))
    · exact absurd hold ((hnew a ho').2 t v (hhas ht))
    · exact h.inj t (hhas ht) v v' a hold hold'

/-- A page is added to the heap of slot `s`. -/
theorem HeapInv.map (hs : k.HasDir s) {p : Pmm}
    (hmem : f ∈ k.pmm.free) (hfree : p.free = k.pmm.free.erase f) (hva : InHeap va)
    (hsafe : p.free ≠ ∅ ∨ ¬ k.Shares (k.tasks s).pageDirectory (pdIndex va)) :
    HeapInv (fun t v => M t v ∨ t = s ∧ v / 4096 = va / 4096)
      (taskMapUserPage (tracked k s f p) s (f * 4096) va 0x07).2 := by
  have hinv1 : Inv I X (tracked k s f p) := hinv.track hmem hfree
  have hs1 := (hasDir_tracked k s f p s).mpr hs
  obtain ⟨hpage, -, hlt⟩ := hinv.fresh_page hmem
  have hext := extends_tracked (X := X) (s := s) hfree
  have h1 : HeapInv M (tracked k s f p) := h.congr hext.dir hext.own fun _ _ _ _ => rfl
  have htasks := (taskMapUserPage_tasks (tracked k s f p) s (f * 4096) va 0x07).2
  have hwalk := fun q hq v hv => h1.walk_map hinv1 hs1 hlt hva.lt (q := q) (v := v)
    (by rw [hext.dir]; exact hsafe) hq hv
  rw [pageOf_of_page hpage] at hwalk
  refine h1.remap hinv1 hs1 (fun t => by rw [htasks]) hwalk (fun t v hMv => ?_)
    (fun t v a ht hm _ => ?_) fun a ha => ?_
  · split
    · rfl
    · rename_i hc
      exact hMv.resolve_right hc
  · rw [htasks]
    exact h1.own t ht v a hm
  · obtain rfl := Option.some.inj ha
    refine ⟨?_, fun t v ht hm => ?_⟩
    · rw [htasks, ownedFrames_tracked, if_pos rfl]
      exact List.mem_append_right _ (List.mem_singleton.mpr rfl)
    · -- a frame that a task showed was not free
      have hold : Mine M k t v (f * 4096) := ⟨hm.heap, by rw [← hext.dir]; exact hm.walk, hm.own⟩
      have huse := h.own t ((hasDir_tracked k s f p t).mp ht) v _ hold
      have := (hinv.inUse (.own t (f * 4096)) huse).used
      rw [Obj.addr, Nat.mul_div_cancel _ (by decide)] at this
      exact this hmem

end

/-- A page of the heap of slot `s` is given back: after `unmap_page_dir`, the state in which
the frame at `a` is untracked and free. -/
def releasedPage (k : State) (s va : Nat) (l : List Nat) (a : Nat) : State :=
  untracked { k with toPhys := unmapPageDir k.toPhys (k.tasks s).pageDirectory va } s l a

theorem HeapInv.release (h : HeapInv M k) (hinv : Inv I X k) (hs : k.HasDir s)
    (hne : k.pmm.free ≠ ∅) (hmine : Mine M k s va a)
    (hl : l.Perm ((k.tasks s).ownedFrames.erase a)) :
    Inv I X (releasedPage k s va l a) ∧
      HeapInv (fun t v => M t v ∧ ¬ (t = s ∧ v / 4096 = va / 4096)) (releasedPage k s va l a) := by
  have hva := hmine.heap
  have ha := h.own s hs va a hmine
  have hinv1 := hinv.unmapPageDir hs hva.lt
  refine ⟨hinv1.untrack (s := s) ha hl, ?_⟩
  refine h.remap hinv hs (o := none) (untracked_keeps Task.pageDirectory _ s l a fun _ => rfl)
    (fun q hq v hv => h.walk_unmap hinv hs hva.lt hne (q := q) (v := v) hq hv)
    (fun t v hMv => by rw [if_neg hMv.2]; exact hMv.1) (fun t v b ht hm hpage => ?_)
    fun b hb => by simp at hb
  have hb := h.own t ht v b hm
  rw [releasedPage, ownedFrames_untracked]
  split
  · rename_i hts
    subst hts
    have hba : b ≠ a := fun hba => hpage ⟨rfl, h.inj t hs v va a (hba ▸ hm) hmine⟩
    exact hl.mem_iff.mpr ((List.mem_erase_of_ne hba).mpr hb)
  · exact hb

/-- One turn of the loop that gives pages back. -/
theorem releasePages_succ (h : HeapInv M k) (hinv : Inv I X k) (hs : k.HasDir s)
    (hva : InHeap va) (hpage : va % 4096 = 0) (hM : M s va) (n : Nat) :
    ∃ a l, Mine M k s va a ∧ l.Perm ((k.tasks s).ownedFrames.erase a) ∧
      releasePages s (n + 1) va k = releasePages s n (va + 4096) (releasedPage k s va l a) := by
  obtain ⟨a, hwalk⟩ := h.mapped s hs va hva hM
  have hmine : Mine M k s va a := ⟨hva, hwalk, Or.inl hM⟩
  have ha := h.own s hs va a hmine
  obtain ⟨l, hl, hperm⟩ := untrack_perm ha
  have hslot := (hinv.slot s hs).1
  have hpos : a ≠ 0 := (hinv.inUse (.own s a) ha).pos
  have htr : taskTranslateUserPtr k s va = a := by
    rw [taskTranslateUserPtr_eq hslot hs, hwalk, hpage]
    exact Nat.or_zero a
  refine ⟨a, l, hmine, hperm, ?_⟩
  rw [releasePages, htr]
  dsimp only
  rw [if_pos hpos]
  unfold taskUntrackFrame
  dsimp only
  rw [if_neg (by omega), Int.toNat_natCast, hl]
  rfl

/-! ### The loops -/

theorem same_page {w : Nat} (hw : w % 4096 = 0) (hle : w ≤ v) (hlt : v < w + 4096) :
    v / 4096 = w / 4096 := by
  omega

/-- The slots have their directories and their breaks. -/
structure SameSlots (k k' : State) : Prop where
  num : k'.numTasks = k.numTasks
  dir : ∀ t, (k'.tasks t).pageDirectory = (k.tasks t).pageDirectory
  brk : ∀ t, (k'.tasks t).heapVirtNext = (k.tasks t).heapVirtNext

namespace SameSlots

theorem refl (k : State) : SameSlots k k := ⟨rfl, fun _ => rfl, fun _ => rfl⟩

theorem trans {k'' : State} (h1 : SameSlots k k') (h2 : SameSlots k' k'') : SameSlots k k'' :=
  ⟨h2.num.trans h1.num, fun t => (h2.dir t).trans (h1.dir t), fun t => (h2.brk t).trans (h1.brk t)⟩

theorem hasDir (h : SameSlots k k') {t : Nat} (ht : k.HasDir t) : k'.HasDir t :=
  (State.hasDir_congr (h.dir t)).mpr ht

theorem releasedPage (k : State) (s va : Nat) (l : List Nat) (a : Nat) :
    SameSlots k (releasedPage k s va l a) :=
  ⟨rfl, untracked_keeps Task.pageDirectory _ s l a fun _ => rfl,
    untracked_keeps Task.heapVirtNext _ s l a fun _ => rfl⟩

end SameSlots

/-- The pages of `M` and those of slot `s` from `lo` to `hi`. -/
def grown (M : Nat → Nat → Prop) (s lo hi : Nat) (t v : Nat) : Prop :=
  M t v ∨ t = s ∧ lo ≤ v ∧ v < hi

/-- The pages of `M` without those of slot `s` from `lo` to `hi`. -/
def shrunk (M : Nat → Nat → Prop) (s lo hi : Nat) (t v : Nat) : Prop :=
  M t v ∧ ¬ (t = s ∧ lo ≤ v ∧ v < hi)

/-- With a free frame, pages of the heap can be given back. -/
theorem HeapInv.releasePages : ∀ (n va : Nat) {M : Nat → Nat → Prop} {k : State}, HeapInv M k →
    Inv I X k → k.HasDir s → k.pmm.free ≠ ∅ → va % 4096 = 0 →
    (∀ v, va ≤ v → v < va + n * 4096 → InHeap v ∧ M s v) →
    Inv I X (releasePages s n va k) ∧ SameSlots k (Kernel.releasePages s n va k) ∧
      HeapInv (shrunk M s va (va + n * 4096)) (Kernel.releasePages s n va k) := by
  intro n
  induction n with
  | zero =>
    intro va M k h hinv _ _ _ _
    exact ⟨hinv, SameSlots.refl k, h.mono fun t v hm => hm.1⟩
  | succ n ih =>
    intro va M k h hinv hs hne hpage hrange
    obtain ⟨hva, hM⟩ := hrange va (Nat.le_refl _) (by omega)
    obtain ⟨a, l, hmine, hperm, heq⟩ := releasePages_succ h hinv hs hva hpage hM n
    obtain ⟨hinv1, h1⟩ := h.release hinv hs hne hmine hperm
    have hslots := SameSlots.releasedPage k s va l a
    have ha : InUse I k.pmm a := hinv.inUse (.own s a) (h.own s hs va a hmine)
    have hne1 : (releasedPage k s va l a).pmm.free ≠ ∅ := by
      change (Pmm.freeBlock _ a).free ≠ ∅
      rw [Pmm.free_freeBlock ha.lt]
      exact Finset.insert_ne_empty _ _
    obtain ⟨hinv2, hslots2, h2⟩ := ih (va + 4096) h1 hinv1 (hslots.hasDir hs) hne1 (by omega)
      fun v hlow hhigh => by
        obtain ⟨hv, hMv⟩ := hrange v (by omega) (by omega)
        exact ⟨hv, hMv, fun hc => by omega⟩
    rw [heq]
    refine ⟨hinv2, hslots.trans hslots2, h2.mono fun t v hm => ?_⟩
    obtain ⟨hMv, hout⟩ := hm
    exact ⟨⟨hMv, fun hc => hout ⟨hc.1, by omega, by omega⟩⟩,
      fun hc => hout ⟨hc.1, by omega, by omega⟩⟩

/-- The table for the last of `n` pages from `va` on is the task's own when it comes to
that page: it is now, or the page before is in the same region. -/
def LastPrivate (k : State) (s va n : Nat) : Prop :=
  ¬ k.Shares (k.tasks s).pageDirectory (pdIndex (va + (n - 1) * 4096)) ∨
    2 ≤ n ∧ pdIndex (va + (n - 2) * 4096) = pdIndex (va + (n - 1) * 4096)

/-- Enough memory to grow by `n` pages at `va`, or to roll back when the limit on the
frames of a task is reached: a page takes a frame and a copy of its table. -/
def GrowSafe (k : State) (s va n : Nat) : Prop :=
  let left := TASK_MAX_OWNED_FRAMES - (k.tasks s).ownedFrames.length
  (left < n → 2 * left + 1 ≤ k.pmm.free.card) ∧
    (n ≤ left → 2 * n ≤ k.pmm.free.card ∨ 2 * n = k.pmm.free.card + 1 ∧ LastPrivate k s va n)

/-- The table of a region in which a page was mapped is the task's own, if a frame was
left for it, and so are those that were. -/
theorem Inv.not_shares_map (h : Inv I X k) (hs : k.HasDir s) (hv : virt < 2 ^ 32)
    (phys flags : Nat) {w : Nat} (hw : w < 2 ^ 32)
    (hpriv : ¬ k.Shares (k.tasks s).pageDirectory (pdIndex w) ∨ pdIndex w = pdIndex virt)
    (hleft : (Kernel.taskMapUserPage k s phys virt flags).2.pmm.free ≠ ∅) :
    ¬ (Kernel.taskMapUserPage k s phys virt flags).2.Shares
      (k.tasks s).pageDirectory (pdIndex w) := by
  have hslot := (h.slot s hs).1
  have htasks := (taskMapUserPage_tasks k s phys virt flags).2
  have hpin : (Kernel.taskMapUserPage k s phys virt flags).2.Pinned s w := by
    rcases hpriv with hpriv | hpd
    · exact h.pinned_taskMapUserPage hslot hs hv phys flags hw (Or.inl (Or.inl hpriv))
    · have := h.pinned_taskMapUserPage hslot hs hv phys flags hv (Or.inr rfl)
      unfold State.Pinned at this ⊢
      rwa [hpd]
  have := hpin.resolve_right hleft
  rwa [htasks] at this

/-- The three things one turn of the growing loop can do. -/
theorem growPages_succ (h : Inv I X k) (hs : k.HasDir s) (start n va : Nat) :
    (k.pmm.free = ∅ ∧ growPages s start (n + 1) va k =
        (false, releasePages s ((va - start) / 4096) start k)) ∨
      ∃ f p, f ∈ k.pmm.free ∧ p.free = k.pmm.free.erase f ∧
        ((k.tasks s).ownedFrames.length < TASK_MAX_OWNED_FRAMES ∧
            growPages s start (n + 1) va k = growPages s start n (va + 4096)
              (taskMapUserPage (tracked k s f p) s (f * 4096) va 0x07).2 ∨
          TASK_MAX_OWNED_FRAMES ≤ (k.tasks s).ownedFrames.length ∧
            growPages s start (n + 1) va k = (false, releasePages s ((va - start) / 4096) start
              { k with pmm := p.freeBlock (f * 4096) })) := by
  have hslot := (h.slot s hs).1
  rw [growPages]
  refine k.pmm.allocBlock_cases (fun hfree => ?_) fun f p hnext hmem hfree => ?_ <;> dsimp only
  · exact Or.inl ⟨hfree, by rw [if_pos rfl]⟩
  · obtain ⟨-, hne, -⟩ := h.fresh_page hmem
    refine Or.inr ⟨f, p, hmem, hfree, ?_⟩
    unfold PMM_BLOCK_SIZE
    rw [if_neg hne]
    by_cases hlen : (k.tasks s).ownedFrames.length < TASK_MAX_OWNED_FRAMES
    · refine Or.inl ⟨hlen, ?_⟩
      rw [taskTrackFrames_eq (k := { k with pmm := p }) hslot [f * 4096] hlen]
      rfl
    · refine Or.inr ⟨by omega, ?_⟩
      have htrack : taskTrackFrames { k with pmm := p } s [f * 4096] =
        (false, { k with pmm := p }) := by
        unfold taskTrackFrames
        rw [if_neg (slot_ok hslot), Int.toNat_natCast, if_pos (by simpa using hlen)]
      rw [htrack]
      rfl

/-- What growing leaves: the pages are added, or none is. -/
structure Grew (I : Image) (X : Set Nat) (M M' : Nat → Nat → Prop) (k : State) (r : Bool × State) :
    Prop where
  inv : Inv I X r.2
  slots : SameSlots k r.2
  ok : r.1 = true → HeapInv M' r.2
  failed : r.1 = false → HeapInv M r.2

/-- Rolling back with a free frame. -/
theorem HeapInv.rollback {start i : Nat} (hpage : start % 4096 = 0) (hlow : USER_HEAP_BASE ≤ start)
    (hmax : start + i * 4096 ≤ USER_HEAP_MAX) (hM : ∀ v, start ≤ v → ¬ M s v)
    (h : HeapInv (grown M s start (start + i * 4096)) k) (hinv : Inv I X k) (hs : k.HasDir s)
    (hne : k.pmm.free ≠ ∅) (M' : Nat → Nat → Prop) :
    Grew I X M M' k (false, Kernel.releasePages s ((start + i * 4096 - start) / 4096) start k) := by
  have hn : (start + i * 4096 - start) / 4096 = i := by omega
  rw [hn]
  obtain ⟨hinv', hslots, h'⟩ := h.releasePages i start hinv hs hne hpage
    fun v hge hlt => ⟨⟨by omega, by omega⟩, Or.inr ⟨rfl, hge, hlt⟩⟩
  refine ⟨hinv', hslots, fun hc => by simp at hc, fun _ => h'.mono fun t v hMv => ⟨Or.inl hMv, ?_⟩⟩
  rintro ⟨rfl, hge, -⟩
  exact hM v hge hMv

/-- One page less to grow. -/
theorem GrowSafe.step (hinv : Inv I X k) (hs : k.HasDir s) {p : Pmm} (hmem : f ∈ k.pmm.free)
    (hfree : p.free = k.pmm.free.erase f) {n : Nat} (hmax : va + (n + 1) * 4096 ≤ 2 ^ 32)
    (hlen : (k.tasks s).ownedFrames.length < TASK_MAX_OWNED_FRAMES)
    (hsafe : GrowSafe k s va (n + 1)) :
    GrowSafe (taskMapUserPage (tracked k s f p) s (f * 4096) va 0x07).2 s (va + 4096) n := by
  have hvlt : va < 2 ^ 32 := by omega
  have hlimit : TASK_MAX_OWNED_FRAMES = 256 := rfl
  have hinvt : Inv I X (tracked k s f p) := hinv.track hmem hfree
  have hst := (hasDir_tracked k s f p s).mpr hs
  obtain ⟨-, hext, hown⟩ := hinv.trackMap hs hmem hfree hvlt
  have hcard := hinvt.card_taskMapUserPage (hinvt.slot s hst).1 hst hvlt (f * 4096) 0x07
  have hpriv := fun w hw => hinvt.not_shares_map (w := w) hst hvlt (f * 4096) 0x07 hw
  have hpcard : p.free.card + 1 = k.pmm.free.card := by
    rw [hfree, Finset.card_erase_add_one hmem]
  change _ = p.free.card - 1 at hcard
  have hdirt : ((tracked k s f p).tasks s).pageDirectory = (k.tasks s).pageDirectory :=
    State.setTask_keeps Task.pageDirectory rfl s
  rw [hdirt] at hpriv
  have hdir := hext.dir s
  generalize (taskMapUserPage (tracked k s f p) s (f * 4096) va 0x07).2 = k1 at *
  have hlen1 := congrArg List.length hown
  rw [List.length_append, List.length_singleton] at hlen1
  unfold GrowSafe at hsafe ⊢
  dsimp only at hsafe ⊢
  rw [hlen1]
  refine ⟨fun hlt => ?_, fun hle => ?_⟩
  · have := hsafe.1 (by omega)
    omega
  · rcases hsafe.2 (by omega) with hge | ⟨heq, hlast⟩
    · left
      omega
    · by_cases hn : n = 0
      · left
        omega
      · right
        refine ⟨by omega, ?_⟩
        have hleft : k1.pmm.free ≠ ∅ := fun he => by
          rw [he, Finset.card_empty] at hcard
          omega
        unfold LastPrivate at hlast ⊢
        rw [hdir, show va + 4096 + (n - 1) * 4096 = va + (n + 1 - 1) * 4096 by omega]
        rcases hlast with hnot | ⟨-, hregion⟩
        · exact Or.inl (hpriv _ (by omega) (Or.inl hnot) hleft)
        · by_cases hn1 : n = 1
          · subst hn1
            refine Or.inl (hpriv _ (by omega) (Or.inr ?_) hleft)
            rw [← hregion]
            simp
          · have hprev : va + 4096 + (n - 2) * 4096 = va + (n + 1 - 2) * 4096 := by omega
            refine Or.inr ⟨by omega, ?_⟩
            rw [hprev]
            exact hregion

/-- Growing with enough memory. -/
theorem HeapInv.growPages {start : Nat} (hpage : start % 4096 = 0) (hlow : USER_HEAP_BASE ≤ start)
    (hM : ∀ v, start ≤ v → ¬ M s v) :
    ∀ (n i : Nat) {k : State}, HeapInv (grown M s start (start + i * 4096)) k → Inv I X k →
    k.HasDir s → start + (i + n) * 4096 ≤ USER_HEAP_MAX → GrowSafe k s (start + i * 4096) n →
    Grew I X M (grown M s start (start + (i + n) * 4096)) k
      (growPages s start n (start + i * 4096) k) := by
  intro n
  induction n with
  | zero =>
    exact fun i k h hinv _ _ _ =>
      ⟨hinv, SameSlots.refl k, fun _ => h, fun hc => by simp [Kernel.growPages] at hc⟩
  | succ n ih =>
    intro i k h hinv hs hmax hsafe
    have hlimit : TASK_MAX_OWNED_FRAMES = 256 := rfl
    have htop : USER_HEAP_MAX = 0x80000000 := rfl
    have hva : InHeap (start + i * 4096) := ⟨by omega, by omega⟩
    have hmax1 : start + i * 4096 ≤ USER_HEAP_MAX := Nat.le_of_lt hva.2
    have hmax2 : start + (i + 1 + n) * 4096 ≤ USER_HEAP_MAX := by
      rw [Nat.add_assoc i 1 n, Nat.add_comm 1 n]
      exact hmax
    have hcard : 0 < k.pmm.free.card := by
      by_cases hleft : TASK_MAX_OWNED_FRAMES - (k.tasks s).ownedFrames.length < n + 1
      · have := hsafe.1 hleft
        omega
      · rcases hsafe.2 (by omega) with hge | ⟨heq, -⟩ <;> omega
    rcases growPages_succ hinv hs start n (start + i * 4096) with
      ⟨hempty, -⟩ | ⟨f, p, hmem, hfree, ⟨hlen, heq⟩ | ⟨hlen, heq⟩⟩
    · simp [hempty] at hcard
    · have hpcard : p.free.card + 1 = k.pmm.free.card := by
        rw [hfree, Finset.card_erase_add_one hmem]
      have hmapsafe : p.free ≠ ∅ ∨
          ¬ k.Shares (k.tasks s).pageDirectory (pdIndex (start + i * 4096)) := by
        by_cases hp0 : p.free = ∅
        · right
          rw [hp0, Finset.card_empty] at hpcard
          obtain hge | ⟨heq', hpriv | hpriv⟩ := hsafe.2 (by
            by_contra hlt
            have := hsafe.1 (by omega)
            omega)
          · omega
          · obtain rfl : n = 0 := by omega
            simpa using hpriv
          · omega
        · exact Or.inl hp0
      have h1 := h.map hinv hs hmem hfree hva hmapsafe
      have hsafe1 := GrowSafe.step hinv hs hmem hfree (by omega) hlen hsafe
      obtain ⟨hinv1, hext, -⟩ := hinv.trackMap hs hmem hfree hva.lt
      have hslots : SameSlots k (Kernel.taskMapUserPage (tracked k s f p) s (f * 4096)
          (start + i * 4096) 0x07).2 := by
        refine ⟨hext.num, hext.dir, fun t => ?_⟩
        rw [(taskMapUserPage_tasks _ _ _ _ _).2, tracked, State.setTask_keeps Task.heapVirtNext rfl]
      rw [heq]
      generalize (Kernel.taskMapUserPage (tracked k s f p) s (f * 4096) (start + i * 4096)
        0x07).2 = k1 at *
      have hgrown : HeapInv (grown M s start (start + (i + 1) * 4096)) k1 := h1.mono (by
        rintro t v (hMv | ⟨rfl, hge, hlt⟩)
        · exact Or.inl (Or.inl hMv)
        · by_cases hv : v < start + i * 4096
          · exact Or.inl (Or.inr ⟨rfl, hge, hv⟩)
          · have hlt' : v < start + i * 4096 + 4096 := by omega
            have hw : (start + i * 4096) % 4096 = 0 := by omega
            exact Or.inr ⟨rfl, same_page hw (Nat.le_of_not_lt hv) hlt'⟩)
      rw [show start + i * 4096 + 4096 = start + (i + 1) * 4096 by omega] at hsafe1 ⊢
      have hrest := ih (i + 1) hgrown hinv1 (hslots.hasDir hs) hmax2 hsafe1
      rw [show i + 1 + n = i + (n + 1) by omega] at hrest
      exact ⟨hrest.inv, hslots.trans hrest.slots, hrest.ok, hrest.failed⟩
    · -- the task has all the frames it may have
      have hsame : (p.freeBlock (f * 4096)).free = k.pmm.free := by
        rw [Pmm.free_freeBlock (hinv.fresh_page hmem).2.2, Nat.mul_div_cancel _ (by decide), hfree,
          Finset.insert_erase hmem]
      rw [heq]
      have hroll := HeapInv.rollback (k := { k with pmm := p.freeBlock (f * 4096) }) hpage hlow
        hmax1 hM (h.congr (fun _ => rfl) (fun _ => List.Subset.refl _) fun _ _ _ _ => rfl)
        (hinv.setPmm (by rw [hsame])) hs
        (fun he => by
          change (p.freeBlock (f * 4096)).free = ∅ at he
          rw [hsame] at he
          simp [he] at hcard)
        (grown M s start (start + (i + (n + 1)) * 4096))
      exact ⟨hroll.inv, ⟨hroll.slots.num, hroll.slots.dir, hroll.slots.brk⟩, hroll.ok, hroll.failed⟩

/-! ### task_set_heap_break -/

/-- The pages below the break of a task. -/
def heapPages (k : State) (t v : Nat) : Prop := v < pageUp (heapBreak (k.tasks t))

/-- The heaps between two calls. -/
structure HeapOk (k : State) : Prop where
  heap : HeapInv (heapPages k) k
  brk : ∀ t, (k.tasks t).heapVirtNext ≤ USER_HEAP_MAX

theorem pageUp_bounds {x : Nat} (hlow : USER_HEAP_BASE ≤ x) (hhigh : x ≤ USER_HEAP_MAX) :
    pageUp x % 4096 = 0 ∧ USER_HEAP_BASE ≤ pageUp x ∧ pageUp x ≤ USER_HEAP_MAX := by
  have hb : USER_HEAP_BASE = 0x40000000 := rfl
  have hm : USER_HEAP_MAX = 0x80000000 := rfl
  unfold pageUp pageOf wrap
  omega

theorem HeapOk.heapBreak_bounds (h : HeapOk k) (t : Nat) :
    USER_HEAP_BASE ≤ heapBreak (k.tasks t) ∧ heapBreak (k.tasks t) ≤ USER_HEAP_MAX := by
  have hb : USER_HEAP_BASE = 0x40000000 := rfl
  have hm : USER_HEAP_MAX = 0x80000000 := rfl
  have := h.brk t
  unfold heapBreak
  split <;> omega

/-- The memory a call of `task_set_heap_break` needs: for growing, what `GrowSafe` says or
no free frame at all; for shrinking, one free frame. -/
def BreakSafe (k : State) (s newBreak : Nat) : Prop :=
  USER_HEAP_BASE ≤ newBreak → newBreak ≤ USER_HEAP_MAX →
    (pageUp (heapBreak (k.tasks s)) < pageUp newBreak → k.pmm.free = ∅ ∨
      GrowSafe k s (pageUp (heapBreak (k.tasks s)))
        ((pageUp newBreak - pageUp (heapBreak (k.tasks s))) / 4096)) ∧
    (pageUp newBreak < pageUp (heapBreak (k.tasks s)) → k.pmm.free ≠ ∅)

/-- The new break is stored. -/
theorem Inv.setBreak (h : Inv I X k) :
    Inv I X (k.setTask s fun t => { t with heapVirtNext := newBreak }) :=
  h.setTask rfl rfl rfl

theorem HeapInv.setBreak (h : HeapInv M k') (hslots : SameSlots k k') (hok : HeapOk k)
    (hlow : USER_HEAP_BASE ≤ newBreak) (hhigh : newBreak ≤ USER_HEAP_MAX)
    (hM : ∀ t v, (if t = s then v < pageUp newBreak else heapPages k t v) → M t v) :
    HeapOk (k'.setTask s fun t => { t with heapVirtNext := newBreak }) := by
  have hbrk : ∀ t,
      ((k'.setTask s fun t => { t with heapVirtNext := newBreak }).tasks t).heapVirtNext =
      if t = s then newBreak else (k.tasks t).heapVirtNext := fun t => by
    rw [State.tasks_setTask]
    split
    · rfl
    · exact hslots.brk t
  refine ⟨(h.mono fun t v hv => hM t v ?_).congr (State.setTask_keeps Task.pageDirectory rfl)
    (fun t => by rw [State.setTask_keeps Task.ownedFrames rfl]; exact List.Subset.refl _)
    fun _ _ _ _ => rfl, fun t => ?_⟩
  · unfold heapPages heapBreak at hv ⊢
    rw [hbrk] at hv
    split
    · rename_i hts
      rw [if_pos hts, if_neg (Nat.not_lt.mpr hlow)] at hv
      exact hv
    · rename_i hts
      rw [if_neg hts] at hv
      exact hv
  · rw [hbrk]
    split
    · exact hhigh
    · exact hok.brk t

theorem HeapOk.taskSetHeapBreak (h : HeapOk k) (hinv : Inv I X k) (hs : k.HasDir s)
    (hsafe : BreakSafe k s newBreak) :
    Inv I X (taskSetHeapBreak k s newBreak).2 ∧
      HeapOk (Kernel.taskSetHeapBreak k s newBreak).2 := by
  have hslot := (hinv.slot s hs).1
  have hb : USER_HEAP_BASE = 0x40000000 := rfl
  unfold Kernel.taskSetHeapBreak
  rw [if_neg (by omega), Int.toNat_natCast]
  dsimp only
  split
  · exact ⟨hinv, h⟩
  · rename_i hrange
    have hlow : USER_HEAP_BASE ≤ newBreak := by omega
    have hhigh : newBreak ≤ USER_HEAP_MAX := by omega
    obtain ⟨hgrow, hshrink⟩ := hsafe hlow hhigh
    obtain ⟨hcb, hcm⟩ := h.heapBreak_bounds s
    obtain ⟨hcp, hclow, hchigh⟩ := pageUp_bounds hcb hcm
    obtain ⟨hnp, hnlow, hnhigh⟩ := pageUp_bounds hlow hhigh
    have hpages : ∀ v, heapPages k s v ↔ v < pageUp (heapBreak (k.tasks s)) := fun v => Iff.rfl
    generalize pageUp (heapBreak (k.tasks s)) = cur at *
    generalize hnew : pageUp newBreak = new at *
    split
    · rename_i hgt
      have hn : cur + (0 + (new - cur) / 4096) * 4096 = new := by omega
      rcases hgrow hgt with hempty | hsafe
      · -- the first allocation fails and there is nothing to roll back
        obtain ⟨n, hsucc⟩ : ∃ n, (new - cur) / 4096 = n + 1 := ⟨(new - cur) / 4096 - 1, by omega⟩
        unfold PMM_BLOCK_SIZE
        rw [hsucc]
        rcases growPages_succ hinv hs cur n cur with ⟨-, heq⟩ | ⟨f, p, hmem, -⟩
        · rw [heq, Nat.sub_self, Nat.zero_div, Kernel.releasePages]
          exact ⟨hinv, h⟩
        · rw [hempty] at hmem
          simp at hmem
      · have hstart : HeapInv (grown (heapPages k) s cur (cur + 0 * 4096)) k :=
          h.heap.mono fun t v hv => by
          rcases hv with hv | ⟨-, hge, hlt⟩
          · exact hv
          · omega
        have hcur : cur + 0 * 4096 = cur := by rw [Nat.zero_mul, Nat.add_zero]
        have hgrew := hstart.growPages (M := heapPages k) hcp hclow
          (fun v hge hv => Nat.not_lt.mpr hge ((hpages v).mp hv)) ((new - cur) / 4096) 0 hinv hs
          (by rw [hn]; exact hnhigh) (by rw [hcur]; exact hsafe)
        rw [hn, hcur] at hgrew
        unfold PMM_BLOCK_SIZE
        generalize Kernel.growPages s cur ((new - cur) / 4096) cur k = r at hgrew
        obtain ⟨ok, k'⟩ := r
        cases ok with
        | false =>
          have hsl := hgrew.slots
          refine ⟨hgrew.inv, (hgrew.failed rfl).mono fun t v hv => ?_, fun t => ?_⟩
          · unfold heapPages heapBreak at hv ⊢
            rwa [hsl.brk] at hv
          · rw [hsl.brk]
            exact h.brk t
        | true =>
          dsimp only
          refine ⟨hgrew.inv.setBreak, (hgrew.ok rfl).setBreak hgrew.slots h hlow hhigh
            fun t v hv => ?_⟩
          rw [hnew] at hv
          split at hv
          · rename_i hts
            subst hts
            by_cases hlt : v < cur
            · exact Or.inl ((hpages v).mpr hlt)
            · exact Or.inr ⟨rfl, by omega, hv⟩
          · exact Or.inl hv
    · rename_i hle
      split
      · rename_i hlt
        have hn : new + (cur - new) / 4096 * 4096 = cur := by omega
        obtain ⟨hinv', hslots, h'⟩ := h.heap.releasePages ((cur - new) / 4096) new hinv hs
          (hshrink hlt) hnp (fun v hge hv => by
            rw [hn] at hv
            exact ⟨⟨by omega, by omega⟩, (hpages v).mpr hv⟩)
        rw [hn] at h'
        unfold PMM_BLOCK_SIZE
        dsimp only
        refine ⟨hinv'.setBreak, h'.setBreak hslots h hlow hhigh fun t v hv => ?_⟩
        rw [hnew] at hv
        split at hv
        · rename_i hts
          subst hts
          exact ⟨(hpages v).mpr (by omega), fun hc => by omega⟩
        · rename_i hts
          exact ⟨hv, fun hc => hts hc.1⟩
      · dsimp only
        refine ⟨hinv.setBreak, h.heap.setBreak (SameSlots.refl k) h hlow hhigh
          fun t v hv => ?_⟩
        rw [hnew] at hv
        split at hv
        · rename_i hts
          subst hts
          exact (hpages v).mpr (by omega)
        · exact hv

end Crusadia.Kernel
