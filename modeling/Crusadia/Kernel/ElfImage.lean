import Crusadia.Kernel.ElfExec

/-!
# Crusadia.Kernel.ElfImage

What a program finds in its address space, against what its file says.

A page shows the segment that was loaded there last (`lastAt`), and zeros where that
segment has nothing: segments that share a page hide each other's bytes, and a segment may
be loaded over the kernel image. `Inv.exec_ok` says when `elf_exec_argv` succeeds.
-/

namespace Crusadia.Kernel

variable {I : Image} {X A : Set Nat} {k k' k₀ k₁ : State} {s v va priority : Nat} {file : List Byte}
  {ph : Phdr}
  {ps : List Placement}

/-! ### When loading succeeds -/

/-- A page inside the file is read completely. -/
theorem Phdr.length_pageBytes (hfile : ph.InFile file)
    (hfits : ph.vaddr + ph.memsz < 2 ^ 32) :
    (ph.pageBytes file va).length = (ph.overlap va).2 := by
  have hle := hfile.le
  have hoff := hfile.offset
  have hend : ph.fileEnd = ph.vaddr + ph.filesz := Nat.mod_eq_of_lt (by omega)
  have hov : ph.vaddr ≤ (ph.overlap va).1 ∧ ((ph.overlap va).2 = 0 ∨
      (ph.overlap va).1 + (ph.overlap va).2 ≤ ph.vaddr + ph.filesz) := by
    unfold Phdr.overlap
    dsimp only
    rw [hend]
    split <;> split <;> omega
  obtain ⟨hge, hov⟩ := hov
  unfold Phdr.pageBytes pread
  rw [List.length_take, List.length_drop]
  generalize (ph.overlap va).1 = ovStart at *
  generalize (ph.overlap va).2 = ovLen at *
  rcases hov with hzero | hin
  · omega
  · have hwrap : wrap (ph.offset + (ovStart - ph.vaddr)) ≤ ph.offset + (ovStart - ph.vaddr) :=
      Nat.mod_le _ _
    omega

/-- A part of loading that went well: `n` more pages, at most five frames each. -/
structure Loads (n : Nat) (fr : List Nat) (k : State) (r : ElfResult × List Nat × State) :
    Prop where
  ok : r.1 = .ok
  length : r.2.1.length = fr.length + n
  takes : Takes (5 * n) k.pmm r.2.2.pmm
  tasks : r.2.2.tasks = k.tasks ∧ r.2.2.numTasks = k.numTasks

theorem Loads.refl (fr : List Nat) (k : State) : Loads 0 fr k (.ok, fr, k) :=
  ⟨rfl, rfl, Takes.refl 0 k.pmm, rfl, rfl⟩

theorem Loads.trans {n m : Nat} {fr fr' : List Nat} {r : ElfResult × List Nat × State}
    (h1 : Loads n fr k (.ok, fr', k')) (h2 : Loads m fr' k' r) : Loads (n + m) fr k r := by
  refine ⟨h2.ok, ?_, ?_, h2.tasks.1.trans h1.tasks.1, h2.tasks.2.trans h1.tasks.2⟩
  · have := h1.length
    rw [h2.length]
    dsimp only at this
    omega
  · rw [Nat.mul_add]
    exact h1.takes.trans h2.takes

theorem loads_loadPages (ph : Phdr) (slot : Int) (hread : ∀ va,
      (ph.pageBytes file va).length = (ph.overlap va).2) :
      ∀ (n va : Nat) (fr : List Nat) (k : State),
    0 ∉ k.pmm.free → 5 * n ≤ k.pmm.free.card → fr.length + n ≤ TASK_MAX_OWNED_FRAMES →
    Loads n fr k (loadPages file ph slot n va fr k) := by
  intro n
  induction n with
  | zero => exact fun va fr k _ _ _ => Loads.refl fr k
  | succ n ih =>
    intro va fr k h0 hcard hlen
    have hne := allocBlock_ne_zero h0 (by omega)
    have halloc := Takes.alloc k.pmm
    rw [loadPages]
    generalize k.pmm.allocBlock = r at hne halloc
    obtain ⟨phys, pmm⟩ := r
    dsimp only at hne halloc ⊢
    rw [if_neg hne, if_neg (by omega), if_neg (by simp [hread va])]
    generalize hk1 : ({ k with mem := _, pmm := pmm } : State) = k₁
    have hpmm : k₁.pmm = pmm := by rw [← hk1]
    have hstep : Loads 1 fr k (.ok, fr ++ [phys], (taskMapUserPage k₁ slot phys va 0x07).2) := by
      refine ⟨rfl, by simp, ?_, ?_⟩
      · have hmap := Takes.taskMapUserPage k₁ slot phys va 0x07
        rw [hpmm] at hmap
        exact halloc.trans hmap
      · have htasks := taskMapUserPage_tasks k₁ slot phys va 0x07
        rw [← hk1] at htasks ⊢
        exact htasks.symm
    have hcard' := hstep.takes.card
    have hrest := ih (va + 4096) (fr ++ [phys]) (taskMapUserPage k₁ slot phys va 0x07).2
      (fun h => h0 (hstep.takes.sub h)) (by dsimp only at hcard'; omega)
      (by rw [List.length_append, List.length_singleton]; omega)
    rw [Nat.add_comm n 1]
    exact hstep.trans hrest

theorem loads_loadSegment (hacc : ph.Accepted file) (hfits : ph.vaddr + ph.memsz < 2 ^ 32)
    (slot : Int) (fr : List Nat) (k : State) (h0 : 0 ∉ k.pmm.free)
    (hcard : 5 * ph.pages.length ≤ k.pmm.free.card)
    (hlen : fr.length + ph.pages.length ≤ TASK_MAX_OWNED_FRAMES) :
    Loads ph.pages.length fr k (loadSegment file ph slot fr k) := by
  have hle := hacc.inFile.le
  have hoff := hacc.inFile.offset
  unfold loadSegment
  rw [if_neg (by omega), if_neg (by omega), if_neg (by omega)]
  unfold Phdr.pages at hcard hlen ⊢
  by_cases hzero : ph.memsz = 0
  · rw [if_pos hzero, if_pos hzero]
    exact Loads.refl fr k
  · have hrange := hacc.range hzero
    rw [if_neg hzero, List.length_map, List.length_range] at hcard hlen ⊢
    rw [if_neg hzero, if_neg (by omega)]
    exact loads_loadPages ph slot (fun _ => Phdr.length_pageBytes hacc.inFile hfits) _ _ fr k h0
      hcard hlen

theorem loads_loadHeaders (eh : Ehdr) (slot : Int) : ∀ (n i : Nat) (fr : List Nat) (k : State),
    (∀ j, i ≤ j → j < i + n → (eh.phdr file j).isSome) →
    (∀ ph ∈ eh.segments file n i, ph.Accepted file ∧ ph.vaddr + ph.memsz < 2 ^ 32) →
    0 ∉ k.pmm.free → 5 * (loads (eh.segments file n i)).length ≤ k.pmm.free.card →
    fr.length + (loads (eh.segments file n i)).length ≤ TASK_MAX_OWNED_FRAMES →
    Loads (loads (eh.segments file n i)).length fr k (loadHeaders file eh slot n i fr k) := by
  intro n
  induction n with
  | zero => exact fun i fr k _ _ _ _ _ => Loads.refl fr k
  | succ n ih =>
    intro i fr k hphdr hseg h0 hcard hlen
    obtain ⟨ph, hph⟩ := Option.isSome_iff_exists.mp (hphdr i (Nat.le_refl i) (by omega))
    have hphdr' : ∀ j, i + 1 ≤ j → j < i + 1 + n → (eh.phdr file j).isSome :=
      fun j h1 h2 => hphdr j (by omega) (by omega)
    rw [loadHeaders, hph]
    rw [Ehdr.segments, hph] at hseg hcard hlen ⊢
    dsimp only at hseg hcard hlen ⊢
    by_cases hload : ph.type = PT_LOAD
    · rw [if_pos hload] at hseg hcard hlen ⊢
      rw [if_neg (fun hne => hne hload)]
      have hcons : (loads (ph :: eh.segments file n (i + 1))).length =
          ph.pages.length + (loads (eh.segments file n (i + 1))).length := by simp [loads]
      rw [hcons] at hcard hlen ⊢
      obtain ⟨hacc, hfits⟩ := hseg ph List.mem_cons_self
      have hstep := loads_loadSegment hacc hfits slot fr k h0 (by omega) (by omega)
      generalize loadSegment file ph slot fr k = r at hstep
      obtain ⟨res, fr', k'⟩ := r
      obtain rfl : res = .ok := hstep.ok
      have hcard' := hstep.takes.card
      have hlen' := hstep.length
      dsimp only at hcard' hlen' ⊢
      exact hstep.trans (ih (i + 1) fr' k' hphdr'
        (fun ph' hph' => hseg ph' (List.mem_cons_of_mem ph hph'))
        (fun h => h0 (hstep.takes.sub h)) (by omega) (by omega))
    · rw [if_neg hload] at hseg hcard hlen ⊢
      rw [if_pos hload]
      exact ih (i + 1) fr k hphdr' hseg h0 hcard hlen

/-- Without arguments and environment, `push_argv` succeeds. -/
theorem OwnStack.pushArgv_nil (h : OwnStack I X A s k) :
    ∃ esp, (Kernel.pushArgv s [] [] k).1 = some esp := by
  have hpush := h.pushArgv [] [] (Nat.zero_le _)
  generalize Kernel.pushArgv s [] [] k = r at hpush
  obtain ⟨- | esp, k'⟩ := r
  · dsimp only at hpush
    exact absurd hpush (by decide)
  · exact ⟨esp, rfl⟩

/-- `elf_exec_argv` without arguments succeeds on a file with valid headers, when there is a
slot and enough memory. -/
theorem Inv.exec_ok (h : Inv I X k) (hc : claimSlot k = some (s, k₀))
    (hhdr : (checkHeader file).1 = .ok)
    (hphdr : ∀ j, j < (checkHeader file).2.phnum → ((checkHeader file).2.phdr file j).isSome)
    (hseg : ∀ ph ∈ segmentsOf file, ph.Accepted file ∧ ph.vaddr + ph.memsz < 2 ^ 32)
    (hroom : 22 + 5 * (loads (segmentsOf file)).length ≤ k.pmm.free.card)
    (hlen : 4 + (loads (segmentsOf file)).length ≤ TASK_MAX_OWNED_FRAMES) (priority : Nat) :
    (elfExecArgv I [] k (some file) [] priority).1 = .ok := by
  have h0 := h.zero_not_free
  obtain ⟨hret, htakes⟩ := taskCreateUser_isSome (I := I) hc h0 (by omega) priority
  obtain ⟨-, hown⟩ := h.taskCreateUser priority
  obtain ⟨-, -, -, -, -, -, -, hown, -⟩ := hown s hret
  have hspace := h.userSpace priority hret
  cases hcreate : Kernel.taskCreateUser I k priority with
  | mk ret k₁ =>
    rw [hcreate] at hret htakes hown hspace
    obtain rfl : ret = some s := hret
    have hcard := htakes.card
    have hloads := loads_loadHeaders (checkHeader file).2 s
      (checkHeader file).2.phnum 0 [] k₁ (fun j _ hj => hphdr j (by omega)) hseg
      (fun hzero => h0 (htakes.sub hzero))
      (by dsimp only at hcard; unfold segmentsOf at hroom; omega)
      (by unfold segmentsOf at hlen; simp only [List.length_nil]; omega)
    cases hload : loadHeaders file (checkHeader file).2 s (checkHeader file).2.phnum 0 [] k₁ with
    | mk res r =>
      obtain ⟨fr, k2⟩ := r
      rw [hload] at hloads
      obtain rfl : res = .ok := hloads.ok
      have hslot : s < k2.numTasks := by
        rw [hloads.tasks.2]
        have h1 := (h.taskCreateUser priority).1
        rw [hcreate] at h1
        exact (h1.slot s hspace.hasDir).1
      have htrack : taskTrackFrames k2 s fr =
          (true, k2.setTask s fun t => { t with ownedFrames := t.ownedFrames ++ fr }) := by
        have hfr := hloads.length
        have htasks := hloads.tasks.1
        unfold segmentsOf at hlen
        dsimp only [List.length_nil] at hfr htasks hown
        exact taskTrackFrames_eq hslot fr (by rw [htasks, hown]; omega)
      obtain ⟨ps, hl⟩ := h.loaded hhdr hcreate hload htrack
      obtain ⟨esp, hpush⟩ := hl.ownStack.pushArgv_nil
      unfold elfExecArgv
      dsimp only
      generalize checkHeader file = r at *
      obtain ⟨res, eh⟩ := r
      obtain rfl : res = .ok := hhdr
      dsimp only at hload ⊢
      rw [hcreate]
      dsimp only
      rw [hload]
      dsimp only
      rw [htrack]
      dsimp only
      generalize Kernel.pushArgv s [] [] _ = r at hpush
      obtain ⟨ret, k4⟩ := r
      obtain rfl : ret = _ := hpush
      rfl

/-! ### The image -/

/-- The addresses of a segment, computed without wrap-around. -/
def Phdr.Covers (ph : Phdr) (a : Nat) : Prop := ph.vaddr ≤ a ∧ a < ph.vaddr + ph.memsz

/-- The segments are pairwise disjoint and disjoint from the user stack. -/
structure Apart (phs : List Phdr) : Prop where
  disjoint : phs.Pairwise fun ph ph' => ∀ a, ¬ (ph.Covers a ∧ ph'.Covers a)
  stack : ∀ ph ∈ phs, ∀ a, ph.Covers a → a < USER_STACK_TOP - USER_STACK_SIZE ∨ USER_STACK_TOP ≤ a

/-- Address `a` is mapped, and the byte there is the one segment `ph` has. -/
def Shows (file : List Byte) (m : Mem) (dir : Nat) (ph : Phdr) (a : Nat) : Prop :=
  ∃ frame, walk m dir a = some frame ∧ m (frame + a % 4096) = ph.byteAt file a

/-- The segment that is loaded last on the page of `a`. -/
def lastAt (phs : List Phdr) (a : Nat) : Option Phdr :=
  ((loads phs).reverse.find? fun e => e.2 = pageOf a).map Prod.fst

/-- An accepted segment that does not end above 2^32 ends below the last page. -/
theorem Phdr.Accepted.fits (hacc : ph.Accepted file) (hsz : ph.memsz ≠ 0)
    (hle : ph.vaddr + ph.memsz ≤ 2 ^ 32) : ph.vaddr + ph.memsz + 4095 < 2 ^ 32 := by
  by_contra hge
  have hrange := hacc.range hsz
  have hstop : ph.stop = 0 := by
    unfold Phdr.stop pageOf wrap
    omega
  omega

/-- Its pages are those of its addresses. -/
theorem Phdr.Accepted.mem_pages (hacc : ph.Accepted file) (hle : ph.vaddr + ph.memsz ≤ 2 ^ 32)
    {a : Nat} (ha : ph.Covers a) : pageOf a ∈ ph.pages := by
  obtain ⟨hlow, hhigh⟩ := ha
  have hsz : ph.memsz ≠ 0 := by omega
  have hfits := hacc.fits hsz hle
  have hstop : ph.stop = pageOf (ph.vaddr + ph.memsz + 4095) := by
    rw [Phdr.stop, wrap, Nat.mod_eq_of_lt hfits]
  rw [Phdr.pages, if_neg hsz, hstop]
  unfold Phdr.start pageOf
  refine List.mem_map.mpr ⟨a / 4096 - ph.vaddr / 4096, List.mem_range.mpr (by omega), by omega⟩

theorem Phdr.memsz_ne_zero (h : va ∈ ph.pages) : ph.memsz ≠ 0 := by
  intro hzero
  rw [Phdr.pages, if_pos hzero] at h
  simp at h

section

variable (h : Exec I X file k s ps k')
include h

/-- The last segment on a page is the one whose frame is placed there. -/
theorem Exec.lastAt (v : Nat) :
    (placedAt ps v).map Placement.ph = Kernel.lastAt (segmentsOf file) v := by
  rw [Kernel.lastAt, ← h.order, List.find?_map, Option.map_map]
  rfl

theorem Exec.placed (hph : ph ∈ segmentsOf file)
    (hva : va ∈ ph.pages) : ∃ e ∈ ps, e.ph = ph ∧ e.va = va := by
  have hmem : (ph, va) ∈ ps.map fun e => (e.ph, e.va) := by
    rw [h.order, List.mem_reverse, loads, List.mem_flatMap]
    exact ⟨ph, hph, List.mem_map_of_mem hva⟩
  obtain ⟨e, he, heq⟩ := List.mem_map.mp hmem
  exact ⟨e, he, (Prod.mk.inj heq).1, (Prod.mk.inj heq).2⟩

/-- What an address of a segment off the stack shows. -/
theorem Exec.shows_iff (hle : ∀ ph ∈ segmentsOf file, ph.vaddr + ph.memsz ≤ 2 ^ 32)
    (hph : ph ∈ segmentsOf file)
    {a : Nat} (ha : ph.Covers a) (hoff : a < 0x8FFFC000 ∨ 0x90000000 ≤ a) :
    Shows file k'.mem (k'.tasks s).pageDirectory ph a ↔
      (∀ ph', Kernel.lastAt (segmentsOf file) a = some ph' → ph'.byteAt file a = ph.byteAt file a) ∧
        (a / 4096 = kstackGuard I s / 4096 →
          k.pmm.free.card ≤ 9 + 2 * (loads (segmentsOf file)).length) := by
  have hlen : (loads (segmentsOf file)).length = ps.length := by
    rw [← List.length_reverse, ← h.order, List.length_map]
  obtain ⟨e0, he0, -, hva0⟩ := h.placed hph ((h.accepted ph hph).mem_pages (hle ph hph) ha)
  have ha32 : a < 2 ^ 32 := Nat.lt_of_lt_of_le ha.2 (hle ph hph)
  cases hat : placedAt ps a with
  | none =>
    have := List.find?_eq_none.mp hat e0 he0
    simp [hva0] at this
  | some e =>
    obtain ⟨he, hva⟩ := placedAt_some hat
    obtain ⟨heph, hepage⟩ := segment_of_order h.order he
    have hfits := (h.accepted _ heph).fits (Phdr.memsz_ne_zero hepage) (hle _ heph)
    have hbyte : k'.mem (e.frame + a % 4096) = e.ph.byteAt file a := by
      rw [h.bytes e he (by omega) (by rw [hva]; unfold pageOf; omega) _ (Nat.mod_lt _ (by decide)),
        hva, show pageOf a + a % 4096 = a by unfold pageOf; omega]
    have hlast : Kernel.lastAt (segmentsOf file) a = some e.ph := by
      rw [← h.lastAt, hat]
      rfl
    rw [hlast, hlen]
    constructor
    · rintro ⟨frame, hwalk, hshown⟩
      have hguard : a / 4096 = kstackGuard I s / 4096 → k.pmm.free.card ≤ 9 + 2 * ps.length := by
        intro hpa
        by_contra hlt
        rw [h.guard a ha32 hpa (by omega)] at hwalk
        simp at hwalk
      have hwalk' := h.walk a ha32 (Classical.or_iff_not_imp_left.mpr fun hn =>
        hguard (not_not.mp hn)) e hat
      rw [hwalk] at hwalk'
      obtain rfl := Option.some.inj hwalk'
      refine ⟨fun ph' hph' => ?_, hguard⟩
      rw [← Option.some.inj hph', ← hbyte, hshown]
    · rintro ⟨hsame, hguard⟩
      refine ⟨e.frame, h.walk a ha32 (Classical.or_iff_not_imp_left.mpr fun hn =>
        hguard (not_not.mp hn)) e hat, ?_⟩
      rw [hbyte]
      exact hsame e.ph rfl

end

/-! ### Files -/

/-- The bytes of a program header. -/
def Phdr.toBytes (ph : Phdr) : List Byte :=
  [ph.type, ph.offset, ph.vaddr, 0, ph.filesz, ph.memsz, 0, 0].flatMap fun w =>
    (List.range 4).map (Buf.leByte w)

/-- A file that consists of an ELF header and the program headers `phs`. -/
def elfFile (phs : List Phdr) : List Byte :=
  [0x7F, 0x45, 0x4C, 0x46, 1, 1] ++ List.replicate 10 0 ++ [2, 0, 3, 0, 1, 0, 0, 0] ++
    (List.range 4).map (Buf.leByte 0x08048000) ++ [52, 0, 0, 0] ++ List.replicate 8 0 ++
    [52, 0, 32, 0] ++ (List.range 2).map (Buf.leByte phs.length) ++ List.replicate 6 0 ++
    phs.flatMap Phdr.toBytes

/-- After boot there is room for every valid file of at most 252 pages. -/
theorem exec_booted {phs : List Phdr} (hphs : segmentsOf file = phs)
    (hhdr : (checkHeader file).1 = .ok)
    (hphdr : ∀ j, j < (checkHeader file).2.phnum → ((checkHeader file).2.phdr file j).isSome)
    (hseg : ∀ ph ∈ phs, ph.Accepted file ∧ ph.vaddr + ph.memsz < 2 ^ 32)
    (hlen : (loads phs).length ≤ 252) :
    (∃ k₁, claimSlot booted = some (1, k₁)) ∧
      (elfExecArgv smallImage [] booted (some file) [] 1).1 = .ok := by
  subst hphs
  obtain ⟨k₁, hc⟩ := claimSlot_startState bootPaging
  have hroom := room_booted
  have hmax : TASK_MAX_OWNED_FRAMES = 256 := rfl
  exact ⟨⟨k₁, hc⟩, inv_booted.exec_ok hc hhdr hphdr hseg (by omega) (by omega) 1⟩

/-- One byte of a page from the file, and the next byte of the page without file data. -/
def sharedPage : List Phdr := [⟨PT_LOAD, 0, 0x08048000, 1, 1⟩, ⟨PT_LOAD, 0, 0x08048001, 0, 1⟩]

theorem segmentsOf_sharedPage : segmentsOf (elfFile sharedPage) = sharedPage := by decide +kernel

theorem exec_sharedPage : (∃ k₁, claimSlot booted = some (1, k₁)) ∧
    (elfExecArgv smallImage [] booted (some (elfFile sharedPage)) [] 1).1 = .ok := by
  refine exec_booted segmentsOf_sharedPage (by decide +kernel) (by decide +kernel)
    (fun ph hph => ?_) (by decide +kernel)
  simp only [sharedPage, List.mem_cons, List.not_mem_nil, or_false] at hph
  rcases hph with rfl | rfl
  iterate 2
    exact ⟨⟨⟨by decide, by decide +kernel, by decide +kernel⟩,
      fun _ => by decide +kernel⟩, by decide⟩

/-! ### The image is the file's -/

/-- The image of the file is in the memory of the task in slot `s`, as the headers say. -/
def ImageShown (file : List Byte) (k : State) (s : Nat) : Prop :=
  (∀ ph ∈ segmentsOf file, ph.vaddr + ph.memsz ≤ 2 ^ 32) ∧
    (Apart (segmentsOf file) → ∀ ph ∈ segmentsOf file, ∀ a, ph.Covers a →
      Shows file k.mem (k.tasks s).pageDirectory ph a)

/-- No segment ends above 2^32, the bytes of a segment are not hidden by a later segment on the
same page, and no segment lies on the guard page of the kernel stack of slot `s` (which stays mapped
only when the last frame is used up). -/
def ImageFits (I : Image) (file : List Byte) (k : State) (s : Nat) : Prop :=
  (∀ ph ∈ segmentsOf file, ph.vaddr + ph.memsz ≤ 2 ^ 32) ∧
    (Apart (segmentsOf file) → ∀ ph ∈ segmentsOf file, ∀ a, ph.Covers a →
      (∀ ph', lastAt (segmentsOf file) a = some ph' → ph'.byteAt file a = ph.byteAt file a) ∧
        (a / 4096 = kstackGuard I s / 4096 →
          k.pmm.free.card ≤ 9 + 2 * (loads (segmentsOf file)).length))

theorem apart_sharedPage : Apart sharedPage := by
  refine ⟨?_, fun ph hph a ha => ?_⟩
  · simp only [sharedPage, Phdr.Covers, List.pairwise_cons, List.mem_singleton, forall_eq,
      List.not_mem_nil, false_imp_iff, implies_true, List.Pairwise.nil, and_true]
    omega
  · simp only [sharedPage, List.mem_cons, List.not_mem_nil, or_false] at hph
    have hbottom : USER_STACK_TOP - USER_STACK_SIZE = 0x8FFFC000 := rfl
    unfold Phdr.Covers at ha
    rw [hbottom]
    rcases hph with rfl | rfl <;> dsimp only at ha <;> exact Or.inl (by omega)

/-- The byte from the file is on the page of the second segment. -/
theorem hidden_sharedPage :
    ¬ ∀ ph', lastAt (segmentsOf (elfFile sharedPage)) 0x08048000 = some ph' →
    ph'.byteAt (elfFile sharedPage) 0x08048000 =
      (⟨PT_LOAD, 0, 0x08048000, 1, 1⟩ : Phdr).byteAt (elfFile sharedPage) 0x08048000 := fun hsame =>
  absurd (hsame ⟨PT_LOAD, 0, 0x08048001, 0, 1⟩ (by rw [segmentsOf_sharedPage]; decide +kernel))
    (by decide +kernel)

/-- For every file that `elf_exec_argv` accepts: its image is placed as the headers say exactly when
it fits. -/
theorem elfExecArgv_image_iff (h : Inv I X k) {env argv : List (List Byte)}
    (hc : claimSlot k = some (s, k₀))
    (hok : (elfExecArgv I env k (some file) argv priority).1 = .ok) :
    ImageShown file (elfExecArgv I env k (some file) argv priority).2 s ↔ ImageFits I file k s := by
  obtain ⟨ps, hexec⟩ := h.exec hc hok
  unfold ImageShown ImageFits
  refine and_congr_right fun hle => forall_congr' fun hapart => forall_congr' fun ph =>
    forall_congr' fun hph => forall_congr' fun a => forall_congr' fun ha => ?_
  exact hexec.shows_iff hle hph ha (hapart.stack ph hph a ha)

theorem elfExecArgv_image_iff_sharedPage :
    (elfExecArgv smallImage [] booted (some (elfFile sharedPage)) [] 1).1 = .ok ∧
      ¬ ImageShown (elfFile sharedPage)
        (elfExecArgv smallImage [] booted (some (elfFile sharedPage)) [] 1).2 1 := by
  obtain ⟨⟨k₁, hc⟩, hok⟩ := exec_sharedPage
  refine ⟨hok, fun hshown => hidden_sharedPage ?_⟩
  have hfits := ((elfExecArgv_image_iff inv_booted hc hok).mp hshown).2
  rw [segmentsOf_sharedPage] at hfits ⊢
  exact (hfits apart_sharedPage _ List.mem_cons_self 0x08048000 ⟨by decide, by decide⟩).1

/-- Two disjoint segments on one page: the page of the second one is mapped over that of
the first, whose byte from the file is lost. -/
theorem elfExecArgv_sharedPage_hidden :
    (elfExecArgv smallImage [] booted (some (elfFile sharedPage)) [] 1).1 = .ok ∧
      Apart (segmentsOf (elfFile sharedPage)) ∧
      ∃ ph ∈ segmentsOf (elfFile sharedPage), ∃ a, ph.Covers a ∧ ¬ Shows (elfFile sharedPage)
        (elfExecArgv smallImage [] booted (some (elfFile sharedPage)) [] 1).2.mem
        ((elfExecArgv smallImage [] booted (some (elfFile sharedPage)) [] 1).2.tasks
          1).pageDirectory ph a := by
  obtain ⟨⟨k₁, hc⟩, hok⟩ := exec_sharedPage
  obtain ⟨ps, hexec⟩ := inv_booted.exec hc hok
  have hle : ∀ ph ∈ segmentsOf (elfFile sharedPage), ph.vaddr + ph.memsz ≤ 2 ^ 32 := by
    rw [segmentsOf_sharedPage]
    decide
  have hmem : ⟨PT_LOAD, 0, 0x08048000, 1, 1⟩ ∈ segmentsOf (elfFile sharedPage) := by
    rw [segmentsOf_sharedPage]
    exact List.mem_cons_self
  refine ⟨hok, ?_, _, hmem, 0x08048000, ⟨by decide, by decide⟩, fun hshows => hidden_sharedPage ?_⟩
  · rw [segmentsOf_sharedPage]
    exact apart_sharedPage
  · exact ((hexec.shows_iff hle hmem ⟨by decide, by decide⟩ (Or.inl (by decide))).mp hshows).1

/-! ### The kernel below the program -/

/-- The addresses the kernel needs in every address space: its image, which contains the
kernel stacks of the tasks, and its page directory. -/
def KernelPage (I : Image) (v : Nat) : Prop :=
  0x100000 ≤ v ∧ v < I.kernelEnd ∨ v / 4096 = pageDirectory / 4096

theorem KernelPage.lt (h : KernelPage I v) : v < I.kernelEnd := by
  have := I.le_kernelEnd
  have hd : pageDirectory / 4096 = 16 := by decide
  rcases h with h | h <;> omega

/-- The task in slot `s` of `k'` sees the kernel as the kernel directory of `k` shows it, the guard
page of the task's kernel stack left out. -/
def KernelSeen (I : Image) (k k' : State) (s : Nat) : Prop :=
  ∀ v, KernelPage I v → v / 4096 ≠ kstackGuard I s / 4096 →
    walk k'.mem (k'.tasks s).pageDirectory v = walk k.mem pageDirectory v

/-- A page of the kernel shows what it showed exactly when no segment was placed there. -/
theorem Exec.kernel_iff (h : Exec I X file k s ps k') (hv : v < I.kernelEnd)
    (hk : Kernel.walk k.mem pageDirectory v = some (pageOf v))
    (hguard : v / 4096 ≠ kstackGuard I s / 4096) :
    Kernel.walk k'.mem (k'.tasks s).pageDirectory v = Kernel.walk k.mem pageDirectory v ↔
      ∀ e ∈ loads (segmentsOf file), e.2 ≠ pageOf v := by
  have hloads : ∀ e, e ∈ loads (segmentsOf file) ↔ ∃ q ∈ ps, (q.ph, q.va) = e := fun e => by
    rw [← List.mem_reverse, ← h.order, List.mem_map]
  constructor
  · intro hsame e he heq
    obtain ⟨q, hq, rfl⟩ := (hloads e).mp he
    cases hat : placedAt ps v with
    | none =>
      have := List.find?_eq_none.mp hat q hq
      exact absurd heq (by simpa using this)
    | some e' =>
      have hframe := h.frame e' (placedAt_some hat).1
      rw [h.walk v (Nat.lt_trans hv I.kernelEnd_lt) (Or.inl hguard) e' hat, hk] at hsame
      have := Option.some.inj hsame
      unfold pageOf at this
      omega
  · intro hnone
    refine h.low v hv hguard (List.find?_eq_none.mpr fun q hq => ?_)
    have := hnone _ ((hloads _).mpr ⟨q, hq, rfl⟩)
    simpa using this

/-- For every file that `elf_exec_argv` accepts, on a kernel that maps its own pages to
themselves: the new task sees the kernel exactly when no page of a segment is one of the
kernel's. -/
theorem elfExecArgv_kernel_iff (h : Inv I X k) {env argv : List (List Byte)}
    (hk : ∀ v, KernelPage I v → walk k.mem pageDirectory v = some (pageOf v))
    (hc : claimSlot k = some (s, k₀))
    (hok : (elfExecArgv I env k (some file) argv priority).1 = .ok) :
    KernelSeen I k (elfExecArgv I env k (some file) argv priority).2 s ↔
      ∀ v, KernelPage I v → v / 4096 ≠ kstackGuard I s / 4096 →
        ∀ e ∈ loads (segmentsOf file), e.2 ≠ pageOf v := by
  obtain ⟨ps, hexec⟩ := h.exec hc hok
  exact forall_congr' fun v => forall_congr' fun hv => forall_congr' fun hguard =>
    hexec.kernel_iff hv.lt (hk v hv) hguard

/-- A segment on the first page of the kernel image. -/
def onKernel : List Phdr := [⟨PT_LOAD, 0, 0x100000, 0, 1⟩]

theorem segmentsOf_onKernel : segmentsOf (elfFile onKernel) = onKernel := by decide +kernel

theorem exec_onKernel : (∃ k₁, claimSlot booted = some (1, k₁)) ∧
    (elfExecArgv smallImage [] booted (some (elfFile onKernel)) [] 1).1 = .ok := by
  refine exec_booted segmentsOf_onKernel (by decide +kernel) (by decide +kernel) (fun ph hph => ?_)
    (by decide +kernel)
  obtain rfl := List.mem_singleton.mp hph
  exact ⟨⟨⟨by decide, by decide +kernel, by decide +kernel⟩, fun _ => by decide +kernel⟩, by decide⟩

theorem kernel_booted (hv : KernelPage smallImage v) :
    walk booted.mem pageDirectory v = some (pageOf v) := by
  have hd : pageDirectory / 4096 = 16 := by decide
  have hlt := Nat.lt_trans hv.lt smallImage.kernelEnd_lt
  rw [toPhys_booted]
  refine built_bootPaging.ident v hlt ?_
  rcases hv with hv | hv <;> omega

/-- The first page of the kernel image is a page of the segment. -/
theorem kernelPage_onKernel : KernelPage smallImage 0x100000 ∧
    0x100000 / 4096 ≠ kstackGuard smallImage 1 / 4096 ∧
    ¬ ∀ e ∈ loads (segmentsOf (elfFile onKernel)), e.2 ≠ pageOf 0x100000 := by
  refine ⟨Or.inl ⟨by decide, by decide⟩, by decide, fun hnone => ?_⟩
  exact hnone (⟨PT_LOAD, 0, 0x100000, 0, 1⟩, 0x100000) (by rw [segmentsOf_onKernel]; decide +kernel)
    (by decide)

theorem elfExecArgv_kernel_iff_onKernel :
    (∀ v, KernelPage smallImage v → walk booted.mem pageDirectory v = some (pageOf v)) ∧
    (elfExecArgv smallImage [] booted (some (elfFile onKernel)) [] 1).1 = .ok ∧
    ¬ KernelSeen smallImage booted
      (elfExecArgv smallImage [] booted (some (elfFile onKernel)) [] 1).2 1 := by
  obtain ⟨⟨k₁, hc⟩, hok⟩ := exec_onKernel
  obtain ⟨hpage, hguard, hplaced⟩ := kernelPage_onKernel
  exact ⟨fun v hv => kernel_booted hv, hok, fun hseen => hplaced ((elfExecArgv_kernel_iff inv_booted
    (fun v hv => kernel_booted hv) hc hok).mp hseen _ hpage hguard)⟩

/-- A file whose only segment has the address of the kernel is loaded over it: the task
sees a frame of its own at the first page of the kernel image. -/
theorem elfExecArgv_onKernel_replaced :
    (elfExecArgv smallImage [] booted (some (elfFile onKernel)) [] 1).1 = .ok ∧
      KernelPage smallImage 0x100000 ∧
      0x100000 / 4096 ≠ kstackGuard smallImage 1 / 4096 ∧
      walk (elfExecArgv smallImage [] booted (some (elfFile onKernel)) [] 1).2.mem
        ((elfExecArgv smallImage [] booted (some (elfFile onKernel)) [] 1).2.tasks 1).pageDirectory
        0x100000 ≠ walk booted.mem pageDirectory 0x100000 := by
  obtain ⟨⟨k₁, hc⟩, hok⟩ := exec_onKernel
  obtain ⟨ps, hexec⟩ := inv_booted.exec hc hok
  obtain ⟨hpage, hguard, hplaced⟩ := kernelPage_onKernel
  exact ⟨hok, hpage, hguard, fun hsame =>
    hplaced ((hexec.kernel_iff hpage.lt (kernel_booted hpage) hguard).mp hsame)⟩

end Crusadia.Kernel
