import Crusadia.Kernel.ElfLoad
import Crusadia.Kernel.Stack

/-!
# Crusadia.Kernel.ElfExec

The address space of a task that **`elf_exec_argv`** has started.

`push_argv` writes to the frames of the stack only (`OnlyIn`), and `task_start_user` takes
the guard page of the kernel stack out of the directory. So the task sees, on every page
of a segment, what the last segment that covers the page has there (`Exec`).
-/

namespace Crusadia.Kernel

variable {I : Image} {X : Set Nat} {k k' k₁ : State} {s v : Nat} {file : List Byte} {priority : Nat}
  {ps : List Placement} {e : Placement}

/-! ### The start -/

/-- `unmap_page_dir` on a task's directory, as the task sees it. -/
theorem Inv.walk_unmap (h : Inv I X k) (hs : k.HasDir s) {virt : Nat} (hvirt : virt < 2 ^ 32)
    (hv : v < 2 ^ 32) :
    (v / 4096 ≠ virt / 4096 → v < I.kernelEnd ∨ k.Pinned s v →
      walk (Kernel.unmapPageDir k.toPhys (k.tasks s).pageDirectory virt).mem
        (k.tasks s).pageDirectory v = walk k.mem (k.tasks s).pageDirectory v) ∧
    (v / 4096 = virt / 4096 → k.pmm.free ≠ ∅ →
      walk (Kernel.unmapPageDir k.toPhys (k.tasks s).pageDirectory virt).mem
        (k.tasks s).pageDirectory v = none) ∧
    (k.pmm.free = ∅ → (Kernel.unmapPageDir k.toPhys (k.tasks s).pageDirectory virt).mem =
      k.mem) := by
  have hspec := h.unmapPageDir_spec hs.isDir hvirt
  generalize Kernel.unmapPageDir k.toPhys (k.tasks s).pageDirectory virt = p at hspec
  cases hspec with
  | full hfree => exact ⟨fun _ _ => rfl, fun _ hne => absurd hfree hne, fun _ => rfl⟩
  | @copied f p hnext hmem hfree =>
    have hwalk := h.walk_copied hs.isDir hvirt hmem hs.isDir hv
    refine ⟨fun hne hcase => ?_, fun heq _ => hwalk.trans (if_pos ⟨rfl, heq⟩), fun hempty => ?_⟩
    · refine hwalk.trans ((if_neg fun hc => hne hc.2).trans ?_)
      refine h.walk_protectMem_keep hmem hs.isDir hv (hcase.imp_right fun hpin => ?_)
      exact hpin.resolve_right fun hempty => by simp [hempty] at hmem
    · rw [hempty] at hmem
      simp at hmem

/-- Stores inside the kernel image change no directory and no translation. -/
theorem Inv.walk_image (h : Inv I X k) {m : Mem}
    (hm : ∀ b, b < 0x100000 ∨ I.kernelEnd ≤ b → m b = k.mem b) {q : Nat} (hq : k.IsDir q) :
    (∀ i, i < 1024 → m.entry q i = k.mem.entry q i) ∧
      ∀ v, v < 2 ^ 32 → walk m q v = walk k.mem q v := by
  have hdir := fun i hi => (h.dir_inUse hq).entry_image hm (i := i) hi
  refine ⟨hdir, fun v hv => ?_⟩
  have hpd := pdIndex_lt hv
  exact walk_congr (hdir _ hpd) ((h.table_inUse hq hpd).entry_image hm (ptIndex_lt v))

/-- What `task_start_user` leaves of the address space. -/
structure Started (I : Image) (X : Set Nat) (s : Nat) (k k' : State) : Prop where
  inv : Inv I X k'
  dir : (k'.tasks s).pageDirectory = (k.tasks s).pageDirectory
  walk : ∀ v, v < 2 ^ 32 → v / 4096 ≠ kstackGuard I s / 4096 ∨ k.pmm.free = ∅ →
    v < I.kernelEnd ∨ k.Pinned s v →
    walk k'.mem (k.tasks s).pageDirectory v = walk k.mem (k.tasks s).pageDirectory v
  guard : ∀ v, v < 2 ^ 32 → v / 4096 = kstackGuard I s / 4096 → k.pmm.free ≠ ∅ →
    Kernel.walk k'.mem (k.tasks s).pageDirectory v = none
  data : ∀ a, k.Data X a → ∀ b, b / 4096 = a / 4096 → k'.mem b = k.mem b

theorem Inv.started (h : Inv I X k) (hs : k.HasDir s) (entry esp : Nat) :
    Started I X s k (Kernel.taskStartUser I k s entry esp) := by
  obtain ⟨hslot, htop⟩ := h.slot s hs
  have hs32 : s < MAX_TASKS := Nat.lt_of_lt_of_le hslot h.num
  have hguard := Nat.lt_trans (kstackGuard_lt I hs32) I.kernelEnd_lt
  have himage : ∀ b, b < 0x100000 ∨ I.kernelEnd ≤ b →
      (pushWords k.mem (k.tasks s).kernelStackTop (startFrame entry esp)).1 b = k.mem b :=
    htop ▸ pushWords_startFrame I hs32 entry esp
  have h1 := h.image_store himage
  have hinv := h.taskStartUser hs entry esp
  have hwalk1 := (h.walk_image himage hs.isDir).2
  rw [taskStartUser_eq I hslot] at hinv ⊢
  generalize (pushWords k.mem (k.tasks s).kernelStackTop (startFrame entry esp)).2 = sp at *
  generalize (pushWords k.mem (k.tasks s).kernelStackTop (startFrame entry esp)).1 = m at *
  have hext := h1.extends_unmap hs hguard
  have hunmap := fun v hv => h1.walk_unmap (s := s) (v := v) hs hguard hv
  dsimp only at hext hunmap
  have hpin : ∀ v, v < 2 ^ 32 → k.Pinned s v → State.Pinned { k with mem := m } s v :=
    fun v hv hp => hp.congr hv hs rfl (fun q hq => (h.walk_image himage hq).1) id
  refine ⟨hinv, State.setTask_keeps Task.pageDirectory rfl s, fun v hv hcase hkeep => ?_,
    fun v hv hpv hne => (hunmap v hv).2.1 hpv hne, fun a ha b hb => ?_⟩
  · rw [← hwalk1 v hv]
    by_cases hpv : v / 4096 = kstackGuard I s / 4096
    · have hempty := hcase.resolve_left fun hne => hne hpv
      exact congrArg (fun m => Kernel.walk m (k.tasks s).pageDirectory v) ((hunmap v hv).2.2 hempty)
    · exact (hunmap v hv).1 hpv (hkeep.imp_right (hpin v hv))
  · refine (hext.data a ha b hb).trans (himage b (Or.inr ?_))
    obtain ⟨o, ho, haddr, hform⟩ := ha.obj
    have habove := h.above ho (by rcases hform with ⟨t, rfl⟩ | rfl <;> simp)
    have hp := (h.inUse o ho).page
    rw [haddr] at habove hp
    unfold Mem.Page at hp
    omega

/-! ### elf_exec_argv -/

/-- The loaded segments of a file, in the order of their headers. -/
def segmentsOf (file : List Byte) : List Phdr :=
  (checkHeader file).2.segments file (checkHeader file).2.phnum 0

/-- The way of `elf_exec_argv` to success. -/
theorem elfExecArgv_ok {env argv : List (List Byte)}
    (hok : (elfExecArgv I env k (some file) argv priority).1 = .ok) :
    (checkHeader file).1 = .ok ∧ ∃ slot k₁ fr k2 k3 sp k4,
      taskCreateUser I k priority = (some slot, k₁) ∧
      loadHeaders file (checkHeader file).2 slot (checkHeader file).2.phnum 0 [] k₁ =
        (.ok, fr, k2) ∧
      taskTrackFrames k2 slot fr = (true, k3) ∧ pushArgv slot env argv k3 = (some sp, k4) ∧
      (elfExecArgv I env k (some file) argv priority).2 =
        taskStartUser I k4 slot (checkHeader file).2.entry sp := by
  unfold elfExecArgv at hok ⊢
  dsimp only at hok ⊢
  generalize checkHeader file = r at hok ⊢
  obtain ⟨res, eh⟩ := r
  cases res
  case ok =>
    generalize taskCreateUser I k priority = r at hok ⊢
    obtain ⟨_ | slot, k₁⟩ := r
    · simp at hok
    · dsimp only at hok ⊢
      refine ⟨rfl, slot, k₁, ?_⟩
      generalize loadHeaders file eh slot eh.phnum 0 [] k₁ = r at hok ⊢
      obtain ⟨res, fr, k2⟩ := r
      cases res
      case ok =>
        dsimp only at hok ⊢
        refine ⟨fr, k2, ?_⟩
        generalize taskTrackFrames k2 slot fr = r at hok ⊢
        obtain ⟨_ | _, k3⟩ := r
        · simp at hok
        · dsimp only at hok ⊢
          refine ⟨k3, ?_⟩
          generalize pushArgv slot env argv k3 = r at hok ⊢
          obtain ⟨_ | sp, k4⟩ := r
          · simp at hok
          · exact ⟨sp, k4, rfl, rfl, rfl, rfl, rfl⟩
      all_goals simp at hok
  all_goals simp at hok

/-- The header checks bound the size of the file. -/
theorem checkHeader_size (hok : (checkHeader file).1 = .ok) :
    file.length < 2 ^ 31 := by
  unfold checkHeader at hok
  dsimp only at hok
  split_ifs at hok
  omega

/-- What the task in slot `s` sees after `elf_exec_argv` on the state `k`, with the
placements `ps` of the loader. -/
structure Exec (I : Image) (X : Set Nat) (file : List Byte) (k : State) (s : Nat)
    (ps : List Placement) (k' : State) : Prop where
  inv : Inv I X k'
  hasDir : k'.HasDir s
  /-- every segment passed the checks, and its pages were placed in the order of the file -/
  accepted : ∀ ph ∈ segmentsOf file, ph.Accepted file
  order : ps.map (fun e => (e.ph, e.va)) = (loads (segmentsOf file)).reverse
  /-- a frame lies above the kernel image -/
  frame : ∀ e ∈ ps, I.kernelEnd ≤ e.frame
  walk : ∀ v, v < 2 ^ 32 → v / 4096 ≠ kstackGuard I s / 4096 ∨ k.pmm.free.card ≤ 9 + 2 * ps.length →
    ∀ e, placedAt ps v = some e → walk k'.mem (k'.tasks s).pageDirectory v = some e.frame
  guard : ∀ v, v < 2 ^ 32 → v / 4096 = kstackGuard I s / 4096 →
    9 + 2 * ps.length < k.pmm.free.card → Kernel.walk k'.mem (k'.tasks s).pageDirectory v = none
  /-- the frames off the stack hold the bytes of the file -/
  bytes : ∀ e ∈ ps, e.ph.vaddr + e.ph.memsz < 2 ^ 32 → e.va < 0x8FFFC000 ∨ 0x90000000 ≤ e.va →
    ∀ i, i < 4096 → k'.mem (e.frame + i) = e.ph.byteAt file (e.va + i)
  low : ∀ v, v < I.kernelEnd → v / 4096 ≠ kstackGuard I s / 4096 → placedAt ps v = none →
    Kernel.walk k'.mem (k'.tasks s).pageDirectory v = Kernel.walk k.mem pageDirectory v

theorem placedAt_some (h : placedAt ps v = some e) :
    e ∈ ps ∧ e.va = pageOf v :=
  ⟨List.mem_of_find?_eq_some h, by simpa using List.find?_some h⟩

/-- The state in which the task has been given the frames of the loader. -/
structure Loaded (I : Image) (X : Set Nat) (file : List Byte) (k : State) (s : Nat)
    (ps : List Placement) (k' : State) : Prop where
  inv : Inv I X k'
  hasDir : k'.HasDir s
  accepted : ∀ ph ∈ segmentsOf file, ph.Accepted file
  order : ps.map (fun e => (e.ph, e.va)) = (loads (segmentsOf file)).reverse
  owned : ∀ e ∈ ps, e.frame ∈ (k'.tasks s).ownedFrames
  nodup : (ps.map Placement.frame).Nodup
  walk : ∀ v, v < 2 ^ 32 → ∀ e, placedAt ps v = some e →
    walk k'.mem (k'.tasks s).pageDirectory v = some e.frame ∧ k'.Pinned s v
  /-- where nothing was placed, the stack shows the frames it got at creation -/
  stack : ∀ v, 0x8FFFC000 ≤ v → v < 0x90000000 → placedAt ps v = none →
    ∃ a ∈ (k'.tasks s).ownedFrames, (∀ e ∈ ps, e.frame ≠ a) ∧
      Kernel.walk k'.mem (k'.tasks s).pageDirectory v = some a
  apart : ∀ u w a, 0x8FFFC000 ≤ u → u < 0x90000000 → 0x8FFFC000 ≤ w → w < 0x90000000 →
    placedAt ps u = none → placedAt ps w = none →
    Kernel.walk k'.mem (k'.tasks s).pageDirectory u = some a →
    Kernel.walk k'.mem (k'.tasks s).pageDirectory w = some a → u / 4096 = w / 4096
  bytes : ∀ e ∈ ps, e.ph.vaddr + e.ph.memsz < 2 ^ 32 → ∀ i, i < 4096 →
    k'.mem (e.frame + i) = e.ph.byteAt file (e.va + i)
  low : ∀ v, v < I.kernelEnd → placedAt ps v = none →
    Kernel.walk k'.mem (k'.tasks s).pageDirectory v = Kernel.walk k.mem pageDirectory v
  card : k'.pmm.free.card = k.pmm.free.card - (9 + 2 * ps.length)

/-- `task_track_frames` appends, if it succeeds. -/
theorem taskTrackFrames_true {fr : List Nat} (h : taskTrackFrames k s fr = (true, k')) :
    k' = k.setTask s fun t => { t with ownedFrames := t.ownedFrames ++ fr } := by
  unfold taskTrackFrames at h
  split at h
  · simp at h
  · rw [Int.toNat_natCast] at h
    dsimp only at h
    split at h
    · simp at h
    · exact (Prod.mk.inj h).2.symm

/-- A placed page is one of a segment of the file. -/
theorem segment_of_order
    (horder : ps.map (fun e => (e.ph, e.va)) = (loads (segmentsOf file)).reverse) (he : e ∈ ps) :
    e.ph ∈ segmentsOf file ∧ e.va ∈ e.ph.pages := by
  have hmem : (e.ph, e.va) ∈ (loads (segmentsOf file)).reverse := by
    rw [← horder]
    exact List.mem_map_of_mem he
  rw [List.mem_reverse, loads, List.mem_flatMap] at hmem
  obtain ⟨ph, hph, hpage⟩ := hmem
  obtain ⟨va, hva, heq⟩ := List.mem_map.mp hpage
  cases heq
  exact ⟨hph, hva⟩

theorem Inv.loaded (h : Inv I X k) {fr : List Nat} {k2 k3 : State}
    (hhdr : (checkHeader file).1 = .ok)
    (hcreate : Kernel.taskCreateUser I k priority = (some s, k₁))
    (hload : loadHeaders file (checkHeader file).2 s (checkHeader file).2.phnum 0 [] k₁ =
      (.ok, fr, k2))
    (htrack : taskTrackFrames k2 s fr = (true, k3)) :
    ∃ ps, Loaded I X file k s ps k3 := by
  have h1 := (h.taskCreateUser priority).1
  have hspace := h.userSpace (s := s) priority (by rw [hcreate])
  rw [hcreate] at h1 hspace
  have hbase : Held I X k₁ [] k₁ :=
    ⟨by simpa using h1, List.nodup_nil, by simp, Extends.refl X k₁, fun _ => rfl⟩
  have hstart : Placed I file s k₁ [] [] k₁ :=
    ⟨rfl, by simp [placedAt], by simp, fun _ _ _ _ => rfl, fun _ _ hpin => hpin, by simp⟩
  obtain ⟨hheld, hplaced⟩ := Held.loadHeaders file (checkHeader_size hhdr) (checkHeader file).2
    hspace.hasDir (checkHeader file).2.phnum 0 hbase
  obtain ⟨haccepted, ps, horder, hp⟩ := hplaced [] hstart (by rw [hload])
  rw [hload] at hheld hp
  rw [List.append_nil] at hp
  dsimp only at hheld hp
  have hk3 := taskTrackFrames_true htrack
  have hphys : k3.toPhys = k2.toPhys := by rw [hk3]; rfl
  have hpd : ∀ t, (k3.tasks t).pageDirectory = (k2.tasks t).pageDirectory := by
    rw [hk3]
    exact State.setTask_keeps Task.pageDirectory rfl
  have hown : (k3.tasks s).ownedFrames = (k2.tasks s).ownedFrames ++ fr := by
    rw [hk3, State.tasks_setTask, if_pos rfl]
  have hs2 := (hheld.ext.hasDir s).mpr hspace.hasDir
  have hmem : ∀ e ∈ ps, e.frame ∈ fr := fun e he => by
    rw [hp.frames, List.mem_reverse]
    exact List.mem_map_of_mem he
  have hstack : ∀ v, 0x8FFFC000 ≤ v → v < 0x90000000 → placedAt ps v = none →
      Kernel.walk k3.mem (k3.tasks s).pageDirectory v =
        Kernel.walk k₁.mem (k₁.tasks s).pageDirectory v := fun v hlow hhigh hnone => by
    obtain ⟨-, -, -, hpin⟩ := hspace.stack v hlow hhigh
    rw [hphys, hpd]
    exact hp.keep v (by omega) hnone (Or.inr hpin)
  refine ⟨ps, ?_, ?_, haccepted, horder, fun e he => ?_, ?_, fun v hv e he => ?_,
    fun v hlow hhigh hnone => ?_, fun u w a hu hu' hw hw' hnu hnw => ?_, fun e he hfits i hi => ?_,
    fun v hv hnone => ?_, ?_⟩
  · rw [hk3]
    exact hheld.inv.adopt hheld.nodup hheld.new
  · exact (State.hasDir_congr (hpd s)).mpr hs2
  · rw [hown]
    exact List.mem_append_right _ (hmem e he)
  · have := hheld.nodup
    rwa [hp.frames, List.nodup_reverse] at this
  · obtain ⟨hwalk, hpin⟩ := hp.walk v hv e he
    rw [hphys, hpd]
    exact ⟨hwalk, hpin.congr hv hs2 (hpd s) (fun _ _ _ _ => by rw [hphys]) (hphys ▸ id)⟩
  · obtain ⟨a, ha, hwalk, -⟩ := hspace.stack v hlow hhigh
    rw [← hheld.own s] at ha
    refine ⟨a, ?_, fun e he heq => ?_, (hstack v hlow hhigh hnone).trans hwalk⟩
    · rw [hown]
      exact List.mem_append_left _ ha
    · have := hheld.inv.apart (.own s a) (.ext a) ha (Or.inr (heq ▸ hmem e he)) rfl
      simp at this
  · rw [hstack u hu hu' hnu, hstack w hw hw' hnw]
    exact hspace.apart u w a hu hu' hw hw'
  · rw [hphys]
    exact hp.bytes e he (haccepted _ (segment_of_order horder he).1).inFile hfits i hi
  · rw [hphys, hpd]
    exact (hp.keep v (Nat.lt_trans hv I.kernelEnd_lt) hnone (Or.inl hv)).trans (hspace.low v hv)
  · rw [hphys, hp.card, hspace.card, Nat.sub_sub]

/-- A page of the stack shows a placement, or a frame that no placement has. -/
theorem Loaded.stack_cases (h : Loaded I X file k s ps k') {u a : Nat} (hlow : 0x8FFFC000 ≤ u)
    (hhigh : u < 0x90000000) (hwalk : Kernel.walk k'.mem (k'.tasks s).pageDirectory u = some a) :
    (∃ e ∈ ps, e.va = pageOf u ∧ e.frame = a) ∨ placedAt ps u = none ∧ ∀ e ∈ ps, e.frame ≠ a := by
  cases hat : placedAt ps u with
  | none =>
    obtain ⟨b, -, hne, hwalk'⟩ := h.stack u hlow hhigh hat
    rw [hwalk] at hwalk'
    exact Or.inr ⟨rfl, Option.some.inj hwalk' ▸ hne⟩
  | some e =>
    obtain ⟨he, hva⟩ := placedAt_some hat
    have hwalk' := (h.walk u (by omega) e hat).1
    rw [hwalk] at hwalk'
    exact Or.inl ⟨e, he, hva, (Option.some.inj hwalk').symm⟩

/-- Each page of the stack is mapped to a frame of its own. -/
theorem Loaded.ownStack (h : Loaded I X file k s ps k') :
    OwnStack I X {a | a ∈ (k'.tasks s).ownedFrames ∧ ∃ u, 0x8FFFC000 ≤ u ∧ u < 0x90000000 ∧
      Kernel.walk k'.mem (k'.tasks s).pageDirectory u = some a} s k' := by
  refine ⟨h.inv, h.hasDir, fun a ha => (h.inv.inUse (.own s a) ha.1).page,
    fun a ha => Or.inr ⟨s, ha.1⟩, fun u hlow hhigh => ?_, fun u w a hu hu' hw hw' hua hwa => ?_⟩
  · cases hat : placedAt ps u with
    | none =>
      obtain ⟨a, ha, -, hwalk⟩ := h.stack u hlow hhigh hat
      exact ⟨a, ⟨ha, u, hlow, hhigh, hwalk⟩, hwalk⟩
    | some e =>
      have hwalk := (h.walk u (by omega) e hat).1
      exact ⟨e.frame, ⟨h.owned e (placedAt_some hat).1, u, hlow, hhigh, hwalk⟩, hwalk⟩
  · rcases h.stack_cases hu hu' hua with ⟨e, he, hva, hea⟩ | ⟨hnu, hne⟩ <;>
      rcases h.stack_cases hw hw' hwa with ⟨e', he', hva', hea'⟩ | ⟨hnw, hne'⟩
    · have heq : e = e' := List.inj_on_of_nodup_map h.nodup he he' (hea.trans hea'.symm)
      rw [heq, hva'] at hva
      unfold pageOf at hva
      omega
    · exact absurd hea (hne' e he)
    · exact absurd hea' (hne e' he')
    · exact h.apart u w a hu hu' hw hw' hnu hnw hua hwa

/-- The frame of a page off the stack is not one the stack is mapped to. -/
theorem Loaded.off_stack (h : Loaded I X file k s ps k') (he : e ∈ ps)
    (hoff : e.va < 0x8FFFC000 ∨ 0x90000000 ≤ e.va) {u : Nat} (hlow : 0x8FFFC000 ≤ u)
    (hhigh : u < 0x90000000) :
    Kernel.walk k'.mem (k'.tasks s).pageDirectory u ≠ some e.frame := by
  intro hwalk
  rcases h.stack_cases hlow hhigh hwalk with ⟨e', he', hva, hframe⟩ | ⟨-, hne⟩
  · have heq : e' = e := List.inj_on_of_nodup_map h.nodup he' he hframe
    rw [← heq, hva] at hoff
    unfold pageOf at hoff
    omega
  · exact hne e he rfl

theorem Inv.exec (h : Inv I X k) {env argv : List (List Byte)} {k₀ : State}
    (hc : claimSlot k = some (s, k₀))
    (hok : (elfExecArgv I env k (some file) argv priority).1 = .ok) :
    ∃ ps, Exec I X file k s ps (elfExecArgv I env k (some file) argv priority).2 := by
  obtain ⟨hhdr, t, k₁, fr, k2, k3, sp, k4, hcreate, hload, htrack, hpush, heq⟩ := elfExecArgv_ok hok
  obtain ⟨_, f, p, hc', -⟩ := (h.taskCreateUser priority).2 t (by rw [hcreate])
  obtain ⟨rfl, -⟩ : s = t ∧ _ := by simpa [hc] using hc'
  obtain ⟨ps, hl⟩ := h.loaded hhdr hcreate hload htrack
  obtain ⟨ho, hst⟩ := hl.ownStack.onlyIn_pushArgv hpush
  obtain ⟨-, hdir, hwalk⟩ := hl.inv.onlyIn hl.ownStack.data ho
  have hstart := hst.inv.started hst.hasDir (checkHeader file).2.entry sp
  rw [← heq] at hstart
  generalize (elfExecArgv I env k (some file) argv priority).2 = k5 at hstart
  have hempty : k4.pmm.free = ∅ ↔ k.pmm.free.card ≤ 9 + 2 * ps.length := by
    rw [ho.pmm, ← Finset.card_eq_zero, hl.card, Nat.sub_eq_zero_iff_le]
  have hpd : (k5.tasks s).pageDirectory = (k3.tasks s).pageDirectory := by
    rw [hstart.dir, ho.tasks]
  have hframe : ∀ e ∈ ps, I.kernelEnd ≤ e.frame := fun e he =>
    hl.inv.above (n := .own s e.frame) (hl.owned e he) (by simp)
  refine ⟨ps, hstart.inv, ?_, hl.accepted, hl.order, hframe, fun v hv hcase e he => ?_,
    fun v hv hguard hleft => ?_, fun e he hfits hoff i hi => ?_, fun v hv hguard hnone => ?_⟩
  · exact (State.hasDir_congr hpd).mpr hl.hasDir
  · obtain ⟨hw, hpin⟩ := hl.walk v hv e he
    have hpin4 : k4.Pinned s v :=
      hpin.congr hv hl.hasDir (by rw [ho.tasks]) hdir (ho.pmm ▸ id)
    rw [hstart.dir, hstart.walk v hv (hcase.imp_right hempty.mpr) (Or.inr hpin4), ho.tasks,
      hwalk _ v hl.hasDir.isDir hv]
    exact hw
  · rw [hstart.dir]
    exact hstart.guard v hv hguard fun hc => Nat.not_le_of_lt hleft (hempty.mp hc)
  · have hpage := (hl.inv.inUse (.own s e.frame) (hl.owned e he)).page
    have hpe : (e.frame + i) / 4096 = e.frame / 4096 := by
      unfold Mem.Page at hpage
      dsimp only [Obj.addr] at hpage
      omega
    rw [hstart.data e.frame (Or.inr ⟨s, by rw [ho.tasks]; exact hl.owned e he⟩) _ hpe, ho.byte ?_]
    · exact hl.bytes e he hfits i hi
    · rintro a ⟨hown, u, hlow, hhigh, hw⟩ hpa
      have ha : a = e.frame := by
        have := hl.ownStack.page a ⟨hown, u, hlow, hhigh, hw⟩
        unfold Mem.Page at this hpage
        dsimp only [Obj.addr] at hpage
        omega
      exact hl.off_stack he hoff hlow hhigh (ha ▸ hw)
  · rw [hstart.dir, hstart.walk v (Nat.lt_trans hv I.kernelEnd_lt) (Or.inl hguard) (Or.inl hv),
      ho.tasks, hwalk _ v hl.hasDir.isDir (Nat.lt_trans hv I.kernelEnd_lt)]
    exact hl.low v hv hnone

end Crusadia.Kernel
