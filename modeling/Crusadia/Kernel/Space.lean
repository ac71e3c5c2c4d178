import Crusadia.Kernel.Slots

/-!
# Crusadia.Kernel.Space

Who holds which frame: the **invariant of the address spaces**.

The kernel directory, its 1024 tables, the directory of every task, the tables a
directory does not share with the kernel and the frames a task owns are *objects*
(`Obj`). `Inv` says that every object has a frame of its own that the bitmap counts as
used, and that a task's directory entries carry the kernel's permission bits. Every
function of `paging.c` and `task.c` adds at most one object in a frame that was free
(`Inv.extend`) or drops objects (`Inv.drop`).
-/

namespace Crusadia.Kernel

/-! ### Table entries -/

theorem pageOf_page (e : Nat) : Mem.Page (pageOf e) := by
  unfold Mem.Page pageOf
  omega

theorem pageOf_of_page {a : Nat} (h : Mem.Page a) : pageOf a = a := by
  unfold Mem.Page at h
  unfold pageOf
  omega

theorem pageOf_lt (h : a < b) : pageOf a < b := by
  unfold pageOf
  omega

variable {a f t : Nat}

/-- A page address with flags in its low twelve bits. -/
theorem or_eq_add (ha : Mem.Page a) (hf : f < 4096) : a ||| f = a + f := by
  unfold Mem.Page at ha
  have hshift : a = (a / 4096) <<< 12 := by
    rw [Nat.shiftLeft_eq]
    omega
  rw [hshift]
  exact (Nat.shiftLeft_add_eq_or_of_lt (i := 12) (by omega) (a / 4096)).symm

theorem pageOf_or (ha : Mem.Page a) (hf : f < 4096) : pageOf (a ||| f) = a := by
  rw [or_eq_add ha hf]
  unfold Mem.Page at ha
  unfold pageOf
  omega

theorem or_mod (ha : Mem.Page a) (hf : f < 4096) : (a ||| f) % 4096 = f := by
  rw [or_eq_add ha hf]
  unfold Mem.Page at ha
  omega

theorem or_lt (ha : Mem.Page a) (hlt : a < 2 ^ 32) (hf : f < 4096) :
    a ||| f < 2 ^ 32 := by
  rw [or_eq_add ha hf]
  unfold Mem.Page at ha
  omega

/-- Whether an entry is present depends on its low twelve bits. -/
theorem present_congr {e e' : Nat} (h : e % 4096 = e' % 4096) : present e = present e' := by
  have hbit : ∀ x : Nat, (x % 2 ^ 12).testBit 0 = x.testBit 0 := fun x => by simp
  unfold present
  rw [← hbit e, ← hbit e', show (2 : Nat) ^ 12 = 4096 from rfl, h]

theorem pdIndex_lt {v : Nat} (h : v < 2 ^ 32) : pdIndex v < 1024 := by
  unfold pdIndex
  omega

theorem ptIndex_lt (v : Nat) : ptIndex v < 1024 := Nat.mod_lt _ (by decide)

/-- A page is given by its two indices. -/
theorem page_eq_iff (v w : Nat) :
    v / 4096 = w / 4096 ↔ pdIndex v = pdIndex w ∧ ptIndex v = ptIndex w := by
  unfold pdIndex ptIndex
  omega

/-! ### Objects -/

/-- The things that live in a frame of their own. -/
inductive Obj
  /-- the directory of the kernel -/
  | kdir
  /-- table `i` of the kernel -/
  | ktab (i : Nat)
  /-- the directory of the task in slot `s` -/
  | dir (s : Nat)
  /-- table `i` of that directory, when it is not the kernel's -/
  | tab (s i : Nat)
  /-- the frame at `a`, which that task owns -/
  | own (s a : Nat)
  /-- the frame at `a`, which somebody else holds -/
  | ext (a : Nat)
  deriving DecidableEq

namespace State

/-- Entry `i` of the kernel directory. -/
def kpde (k : State) (i : Nat) : Nat := k.mem.entry pageDirectory i

/-- Entry `i` of the directory of slot `s`. -/
def pde (k : State) (s i : Nat) : Nat := k.mem.entry (k.tasks s).pageDirectory i

/-- Slot `s` has a directory of its own. -/
def HasDir (k : State) (s : Nat) : Prop :=
  (k.tasks s).pageDirectory ≠ 0 ∧ (k.tasks s).pageDirectory ≠ pageDirectory

theorem hasDir_congr {k k' : State} {t' : Nat}
    (hdir : (k'.tasks t').pageDirectory = (k.tasks t).pageDirectory) :
    k'.HasDir t' ↔ k.HasDir t := by
  unfold HasDir
  rw [hdir]

end State

/-- The address of the frame an object lives in. -/
def Obj.addr (k : State) : Obj → Nat
  | kdir => pageDirectory
  | ktab i => pageOf (k.kpde i)
  | dir s => (k.tasks s).pageDirectory
  | tab s i => pageOf (k.pde s i)
  | own _ a | ext a => a

/-- The objects there are, where `X` is the set of frames that somebody outside the task
table holds: a loader at work, a heap, a driver. -/
def Obj.Live (X : Set Nat) (k : State) : Obj → Prop
  | kdir => True
  | ktab i => i < 1024
  | dir s => k.HasDir s
  | tab s i => k.HasDir s ∧ i < 1024 ∧ pageOf (k.pde s i) ≠ pageOf (k.kpde i)
  | own s a => a ∈ (k.tasks s).ownedFrames
  | ext a => a ∈ X

/-- A frame the bitmap counts as used, by its address. It is the one of the kernel
directory or lies above the kernel image. -/
structure InUse (I : Image) (p : Pmm) (a : Nat) : Prop where
  page : Mem.Page a
  lt : a < 2 ^ 32
  above : a = pageDirectory ∨ I.kernelEnd ≤ a
  used : a / 4096 ∉ p.free

theorem InUse.pos {I : Image} {p : Pmm} (h : InUse I p a) : a ≠ 0 := by
  have := I.le_kernelEnd
  rcases h.above with ha | ha
  · rw [ha]
    decide
  · omega

/-- The part of the invariant that is not about who holds which frame. -/
structure Plain (I : Image) (k : State) : Prop where
  nodup : ∀ s, (k.tasks s).ownedFrames.Nodup
  /-- the kernel directory is complete, and its entries are present and writable -/
  kflags : ∀ i, i < 1024 → k.kpde i % 4096 = 3 ∨ k.kpde i % 4096 = 7
  /-- a task's directory has the kernel's permission bits -/
  flags : ∀ s, k.HasDir s → ∀ i, i < 1024 → k.pde s i % 4096 = k.kpde i % 4096
  /-- a task with a directory has the kernel stack of its slot -/
  slot : ∀ s, k.HasDir s → s < k.numTasks ∧ (k.tasks s).kernelStackTop = kstackTop I s
  num : k.numTasks ≤ MAX_TASKS

/-- The invariant of the address spaces. -/
structure Inv (I : Image) (X : Set Nat) (k : State) : Prop extends Plain I k where
  /-- objects live in used frames -/
  inUse : ∀ o : Obj, o.Live X k → InUse I k.pmm (o.addr k)
  /-- one each -/
  apart : ∀ o o' : Obj, o.Live X k → o'.Live X k → o.addr k = o'.addr k → o = o'
  /-- free frames lie above the kernel image -/
  free_above : ∀ f ∈ k.pmm.free, I.kernelEnd ≤ f * 4096

namespace Inv

variable {I : Image} {X : Set Nat} {k k' : State}

/-- Only the kernel directory is below the end of the kernel. -/
theorem above (h : Inv I X k) {n : Obj} (hn : n.Live X k) (hne : n ≠ .kdir) :
    I.kernelEnd ≤ n.addr k :=
  (h.inUse n hn).above.resolve_left fun hk => hne (h.apart n .kdir hn trivial hk)

/-- A free frame is a page that can be used. -/
theorem fresh_page (h : Inv I X k) (hf : f ∈ k.pmm.free) :
    Mem.Page (f * 4096) ∧ f * 4096 ≠ 0 ∧ f * 4096 < 2 ^ 32 := by
  have hlt := (Pmm.mem_free.mp hf).1
  have hmax : PMM_MAX_BLOCKS = 1048576 := rfl
  have habove := h.free_above f hf
  have hend := I.le_kernelEnd
  exact ⟨Nat.mul_mod_left _ _, by omega, by omega⟩

/-- One new object, in a frame that was free; the others are objects of before, in their
old frames. -/
theorem extend (h : Inv I X k) {X' : Set Nat} (hplain : Plain I k') {n : Obj}
    (hmem : f ∈ k.pmm.free) (hfree : k'.pmm.free = k.pmm.free.erase f)
    (hobj : ∀ o : Obj, o.Live X' k' →
      o.Live X k ∧ o.addr k' = o.addr k ∨ o = n ∧ o.addr k' = f * 4096) : Inv I X' k' := by
  have hdiv : f * 4096 / 4096 = f := Nat.mul_div_cancel _ (by decide)
  obtain ⟨hpage, -, hlt⟩ := h.fresh_page hmem
  have hsub : k'.pmm.free ⊆ k.pmm.free := by
    rw [hfree]
    exact Finset.erase_subset _ _
  have hfresh : ∀ o : Obj, o.Live X k → o.addr k ≠ f * 4096 :=
    fun o ho ha => (h.inUse o ho).used (by rwa [ha, hdiv])
  refine ⟨hplain, fun o ho => ?_, fun o o' ho ho' haddr => ?_,
    fun f hf => h.free_above f (hsub hf)⟩
  · rcases hobj o ho with ⟨hold, ha⟩ | ⟨-, ha⟩
    · have := h.inUse o hold
      rw [ha]
      exact ⟨this.page, this.lt, this.above, fun hf => this.used (hsub hf)⟩
    · rw [ha]
      refine ⟨hpage, hlt, Or.inr (h.free_above f hmem), ?_⟩
      rw [hdiv, hfree]
      exact Finset.notMem_erase _ _
  · rcases hobj o ho with ⟨hold, ha⟩ | ⟨hn, ha⟩ <;>
      rcases hobj o' ho' with ⟨hold', ha'⟩ | ⟨hn', ha'⟩
    · exact h.apart o o' hold hold' (ha.symm.trans (haddr.trans ha'))
    · exact absurd (ha.symm.trans (haddr.trans ha')) (hfresh o hold)
    · exact absurd (ha'.symm.trans (haddr.symm.trans ha)) (hfresh o' hold')
    · rw [hn, hn']

/-- Only objects of before, in their old frames, and none of those has been freed. -/
theorem drop (h : Inv I X k) {X' : Set Nat} (hplain : Plain I k')
    (hobj : ∀ o : Obj, o.Live X' k' → o.Live X k ∧ o.addr k' = o.addr k)
    (hused : ∀ o : Obj, o.Live X' k' → o.addr k / 4096 ∉ k'.pmm.free)
    (habove : ∀ f ∈ k'.pmm.free, I.kernelEnd ≤ f * 4096) : Inv I X' k' := by
  refine ⟨hplain, fun o ho => ?_, fun o o' ho ho' haddr => ?_, habove⟩
  · obtain ⟨hold, ha⟩ := hobj o ho
    have := h.inUse _ hold
    rw [ha]
    exact ⟨this.page, this.lt, this.above, hused o ho⟩
  · obtain ⟨hold, ha⟩ := hobj o ho
    obtain ⟨hold', ha'⟩ := hobj o' ho'
    exact h.apart o o' hold hold' (ha.symm.trans (haddr.trans ha'))

/-! #### Directories and tables -/

end Inv

/-- `q` is the address of a directory. -/
def State.IsDir (k : State) (q : Nat) : Prop :=
  q = pageDirectory ∨ ∃ s, k.HasDir s ∧ q = (k.tasks s).pageDirectory

/-- The table that directory `q` has for index `i`. -/
def State.table (k : State) (q i : Nat) : Nat := pageOf (k.mem.entry q i)

/-- Directory `q` uses the kernel's table for index `i`. -/
def State.Shares (k : State) (q i : Nat) : Prop := k.table q i = k.table pageDirectory i

theorem State.isDir_kernel (k : State) : k.IsDir pageDirectory := Or.inl rfl

theorem State.HasDir.isDir {k : State} {s : Nat} (h : k.HasDir s) :
    k.IsDir (k.tasks s).pageDirectory :=
  Or.inr ⟨s, h, rfl⟩

namespace Inv

variable {I : Image} {X : Set Nat} {k k' : State} {q q' i j : Nat}

theorem dir_obj (X : Set Nat) (hq : k.IsDir q) :
    ∃ o : Obj, o.Live X k ∧ o.addr k = q ∧ (o = .kdir ∨ ∃ s, o = .dir s) := by
  rcases hq with rfl | ⟨s, hs, rfl⟩
  · exact ⟨.kdir, trivial, rfl, Or.inl rfl⟩
  · exact ⟨.dir s, hs, rfl, Or.inr ⟨s, rfl⟩⟩

theorem table_obj (X : Set Nat) (hq : k.IsDir q) (hi : i < 1024) :
    ∃ o : Obj, o.Live X k ∧ o.addr k = k.table q i ∧
      (o = .ktab i ∧ k.Shares q i ∨
        ∃ s, o = .tab s i ∧ k.HasDir s ∧ q = (k.tasks s).pageDirectory) := by
  rcases hq with rfl | ⟨s, hs, rfl⟩
  · exact ⟨.ktab i, hi, rfl, Or.inl ⟨rfl, rfl⟩⟩
  · by_cases hshare : k.Shares (k.tasks s).pageDirectory i
    · exact ⟨.ktab i, hi, hshare.symm, Or.inl ⟨rfl, hshare⟩⟩
    · exact ⟨.tab s i, ⟨hs, hi, hshare⟩, rfl, Or.inr ⟨s, rfl, hs, rfl⟩⟩

section

variable (h : Inv I X k)
include h

theorem dir_inUse (hq : k.IsDir q) : InUse I k.pmm q := by
  obtain ⟨o, ho, rfl, -⟩ := dir_obj X hq
  exact h.inUse o ho

theorem table_inUse (hq : k.IsDir q) (hi : i < 1024) : InUse I k.pmm (k.table q i) := by
  obtain ⟨o, ho, ha, -⟩ := table_obj X hq hi
  exact ha ▸ h.inUse o ho

/-- A table is not a directory. -/
theorem table_ne_dir (hq : k.IsDir q) (hi : i < 1024) (hq' : k.IsDir q') : k.table q i ≠ q' := by
  intro heq
  obtain ⟨o, ho, ha, hform⟩ := table_obj X hq hi
  obtain ⟨o', ho', ha', hform'⟩ := dir_obj X hq'
  have := h.apart o o' ho ho' (ha.trans (heq.trans ha'.symm))
  rcases hform with ⟨rfl, -⟩ | ⟨s, rfl, -⟩ <;> rcases hform' with rfl | ⟨t, rfl⟩ <;> simp at this

/-- One table is used at one index only, and by two directories only if it is the kernel's. -/
theorem table_eq (hq : k.IsDir q) (hq' : k.IsDir q') (hi : i < 1024) (hj : j < 1024)
    (heq : k.table q i = k.table q' j) : i = j ∧ (q = q' ∨ k.Shares q i ∧ k.Shares q' i) := by
  obtain ⟨o, ho, ha, hform⟩ := table_obj X hq hi
  obtain ⟨o', ho', ha', hform'⟩ := table_obj X hq' hj
  have hoo := h.apart o o' ho ho' (ha.trans (heq.trans ha'.symm))
  rcases hform with ⟨rfl, hs⟩ | ⟨s, rfl, hs, rfl⟩ <;>
    rcases hform' with ⟨rfl, hs'⟩ | ⟨t, rfl, ht, rfl⟩
  · obtain rfl := Obj.ktab.inj hoo
    exact ⟨rfl, Or.inr ⟨hs, hs'⟩⟩
  · simp at hoo
  · simp at hoo
  · obtain ⟨rfl, rfl⟩ := Obj.tab.inj hoo
    exact ⟨rfl, Or.inl rfl⟩

/-- Two slots do not have the same directory. -/
theorem dir_inj {s : Nat} (hs : k.HasDir s) (ht : k.HasDir t)
    (heq : (k.tasks s).pageDirectory = (k.tasks t).pageDirectory) : s = t :=
  Obj.dir.inj (h.apart (.dir s) (.dir t) hs ht heq)

/-- Every directory entry is present. -/
theorem present_entry (hq : k.IsDir q) (hi : i < 1024) : present (k.mem.entry q i) = true := by
  have hk : present (k.mem.entry pageDirectory i) = true := by
    have h3 : present 3 = true := by decide
    have h7 : present 7 = true := by decide
    rcases h.kflags i hi with hf | hf
    · rw [← h3]
      exact present_congr hf
    · rw [← h7]
      exact present_congr hf
  rcases hq with rfl | ⟨s, hs, rfl⟩
  · exact hk
  · rw [← hk]
    exact present_congr (h.flags s hs i hi)

theorem fresh_ne_dir (hf : f ∈ k.pmm.free) (hq : k.IsDir q) : q ≠ f * 4096 := by
  intro heq
  have := (h.dir_inUse hq).used
  rw [heq, Nat.mul_div_cancel _ (by decide)] at this
  exact this hf

theorem fresh_ne_table (hf : f ∈ k.pmm.free) (hq : k.IsDir q)
    (hi : i < 1024) : k.table q i ≠ f * 4096 := by
  intro heq
  have := (h.table_inUse hq hi).used
  rw [heq, Nat.mul_div_cancel _ (by decide)] at this
  exact this hf

theorem zero_not_free : 0 ∉ k.pmm.free := fun h0 => (h.fresh_page h0).2.1 (Nat.zero_mul _)

/-- The same directories for some of the slots, fewer owned frames, and no frame freed
that is still held. -/
theorem restrict {X' : Set Nat} (hX : X' ⊆ X)
    (hmem : ∀ q, k.IsDir q → ∀ i, i < 1024 → k'.mem.entry q i = k.mem.entry q i)
    (hdir : ∀ s, k'.HasDir s → k.HasDir s ∧
      (k'.tasks s).pageDirectory = (k.tasks s).pageDirectory ∧
      (k'.tasks s).kernelStackTop = (k.tasks s).kernelStackTop)
    (hown : ∀ s, (k'.tasks s).ownedFrames ⊆ (k.tasks s).ownedFrames ∧
      (k'.tasks s).ownedFrames.Nodup)
    (hused : ∀ o : Obj, o.Live X' k' → o.Live X k → o.addr k / 4096 ∉ k'.pmm.free)
    (habove : ∀ f ∈ k'.pmm.free, I.kernelEnd ≤ f * 4096)
    (hle : k.numTasks ≤ k'.numTasks) (hnum : k'.numTasks ≤ MAX_TASKS) : Inv I X' k' := by
  have hk : ∀ i, i < 1024 → k'.kpde i = k.kpde i := fun i hi => hmem _ k.isDir_kernel i hi
  have hd : ∀ s, k'.HasDir s → ∀ i, i < 1024 → k'.pde s i = k.pde s i := by
    intro s hs i hi
    obtain ⟨hs', heq, -⟩ := hdir s hs
    unfold State.pde
    rw [heq]
    exact hmem _ hs'.isDir i hi
  have hobj : ∀ o : Obj, o.Live X' k' → o.Live X k ∧ o.addr k' = o.addr k := by
    intro o ho
    cases o with
    | kdir => exact ⟨trivial, rfl⟩
    | ktab i => exact ⟨ho, congrArg pageOf (hk i ho)⟩
    | dir s => exact ⟨(hdir s ho).1, (hdir s ho).2.1⟩
    | tab s i =>
      obtain ⟨hs, hi, hne⟩ := ho
      rw [hd s hs i hi, hk i hi] at hne
      exact ⟨⟨(hdir s hs).1, hi, hne⟩, congrArg pageOf (hd s hs i hi)⟩
    | own s a => exact ⟨(hown s).1 ho, rfl⟩
    | ext a => exact ⟨hX ho, rfl⟩
  refine h.drop ⟨fun s => (hown s).2, fun i hi => ?_, fun s hs i hi => ?_, fun s hs => ?_, hnum⟩
    hobj (fun o ho => hused o ho (hobj o ho).1) habove
  · rw [hk i hi]
    exact h.kflags i hi
  · rw [hk i hi, hd s hs i hi]
    exact h.flags s (hdir s hs).1 i hi
  · obtain ⟨hs', -, hstack⟩ := hdir s hs
    obtain ⟨hlt, htop⟩ := h.slot s hs'
    exact ⟨Nat.lt_of_lt_of_le hlt hle, hstack.trans htop⟩

end

end Inv

/-! #### Steps that leave the directories alone -/

/-- The same slots have the same directories with the same entries. -/
structure SameDirs (k k' : State) : Prop where
  mem : ∀ q, k.IsDir q → ∀ i, i < 1024 → k'.mem.entry q i = k.mem.entry q i
  dir : ∀ t, (k'.tasks t).pageDirectory = (k.tasks t).pageDirectory
  stack : ∀ t, (k'.tasks t).kernelStackTop = (k.tasks t).kernelStackTop
  le : k.numTasks ≤ k'.numTasks
  num : k'.numTasks ≤ MAX_TASKS

namespace SameDirs

variable {I : Image} {X X' : Set Nat} {k k' : State} (h : SameDirs k k')

include h

theorem hasDir (t : Nat) : k'.HasDir t ↔ k.HasDir t := State.hasDir_congr (h.dir t)

theorem kpde {i : Nat} (hi : i < 1024) : k'.kpde i = k.kpde i := h.mem _ k.isDir_kernel i hi

theorem pde {i : Nat} (ht : k.HasDir t) (hi : i < 1024) : k'.pde t i = k.pde t i := by
  unfold State.pde
  rw [h.dir]
  exact h.mem _ ht.isDir i hi

theorem plain (hp : Plain I k) (hnodup : ∀ t, (k'.tasks t).ownedFrames.Nodup) : Plain I k' := by
  refine ⟨hnodup, fun i hi => ?_, fun t ht i hi => ?_, fun t ht => ?_, h.num⟩
  · rw [h.kpde hi]
    exact hp.kflags i hi
  · have ht' := (h.hasDir t).mp ht
    rw [h.kpde hi, h.pde ht' hi]
    exact hp.flags t ht' i hi
  · obtain ⟨hlt, htop⟩ := hp.slot t ((h.hasDir t).mp ht)
    exact ⟨Nat.lt_of_lt_of_le hlt h.le, (h.stack t).trans htop⟩

/-- Objects other than owned and foreign frames are where they were. -/
theorem obj {o : Obj} (ho : o.Live X' k') (hown : ∀ t a, o = .own t a → o.Live X k)
    (hext : ∀ a, o = .ext a → o.Live X k) : o.Live X k ∧ o.addr k' = o.addr k := by
  cases o with
  | kdir => exact ⟨trivial, rfl⟩
  | ktab i => exact ⟨ho, congrArg pageOf (h.kpde ho)⟩
  | dir t => exact ⟨(h.hasDir t).mp ho, h.dir t⟩
  | tab t i =>
    obtain ⟨ht, hi, hne⟩ := ho
    have ht' := (h.hasDir t).mp ht
    rw [h.pde ht' hi, h.kpde hi] at hne
    exact ⟨⟨ht', hi, hne⟩, congrArg pageOf (h.pde ht' hi)⟩
  | own t a => exact ⟨hown t a rfl, rfl⟩
  | ext a => exact ⟨hext a rfl, rfl⟩

end SameDirs

namespace Inv

variable {I : Image} {X : Set Nat} {k k' : State}

/-- No new owned or foreign frames, and no more frames free. -/
theorem sameDirs (h : Inv I X k) (hsame : SameDirs k k')
    (hown : ∀ t, (k'.tasks t).ownedFrames = (k.tasks t).ownedFrames)
    (hsub : k'.pmm.free ⊆ k.pmm.free) : Inv I X k' := by
  have hobj : ∀ o : Obj, o.Live X k' → o.Live X k ∧ o.addr k' = o.addr k := by
    intro o ho
    refine hsame.obj ho (fun t a heq => ?_) fun a heq => ?_
    · subst heq
      have ha : a ∈ (k'.tasks t).ownedFrames := ho
      rwa [hown] at ha
    · subst heq
      exact ho
  refine h.drop (hsame.plain h.toPlain fun t => by rw [hown]; exact h.nodup t) hobj
    (fun o ho hf => ?_) fun f hf => h.free_above f (hsub hf)
  exact (h.inUse o (hobj o ho).1).used (hsub hf)

/-- Memory that holds the same directories, with the same or fewer frames free. -/
theorem mem_congr (h : Inv I X k) {p : Phys}
    (hdir : ∀ q, k.IsDir q → ∀ i, i < 1024 → p.mem.entry q i = k.mem.entry q i)
    (hsub : p.pmm.free ⊆ k.pmm.free) : Inv I X { k with toPhys := p } :=
  h.sameDirs ⟨hdir, fun _ => rfl, fun _ => rfl, Nat.le_refl _, h.num⟩ (fun _ => rfl) hsub

end Inv

end Crusadia.Kernel
