import Crusadia.Lib.Bytes
import Crusadia.Kernel.Creation
import Crusadia.Kernel.Elf

/-!
# Crusadia.Kernel.Stack

**Writing to the stack** of a task: `task_write_user_mem` and `push_argv`.

The writes go through the directory of the task, page by page. Where the four pages of the stack
have four different frames (`OwnStack`), a write puts its bytes at its addresses and changes
nothing else (`OwnStack.write`). Seen from the task, `push_argv` then writes two pieces: the strings
from the top of the stack down, and below them the words (`OwnStack.pushArgv`).
-/

namespace Crusadia.Kernel

variable {I : Image} {X A : Set Nat} {k k' k'' : State} {s v c sp used : Nat}

/-! ### Stores to the stack -/

/-- Only memory has changed, and only in the frames `A`. -/
structure OnlyIn (A : Set Nat) (k k' : State) : Prop where
  eq : k' = { k with mem := k'.mem }
  out : ∀ b, k'.mem b ≠ k.mem b → ∃ a ∈ A, b / 4096 = a / 4096

namespace OnlyIn

theorem trans (h1 : OnlyIn A k k') (h2 : OnlyIn A k' k'') : OnlyIn A k k'' := by
  refine ⟨?_, fun b hb => ?_⟩
  · rw [h2.eq, h1.eq]
  · by_cases hb' : k''.mem b = k'.mem b
    · exact h1.out b (hb' ▸ hb)
    · exact h2.out b hb'

theorem tasks (h : OnlyIn A k k') : k'.tasks = k.tasks := by rw [h.eq]

theorem pmm (h : OnlyIn A k k') : k'.pmm = k.pmm := by rw [h.eq]

/-- A byte in another frame is as before. -/
theorem byte (h : OnlyIn A k k') {b : Nat} (hb : ∀ a ∈ A, b / 4096 ≠ a / 4096) :
    k'.mem b = k.mem b := by
  by_contra hne
  obtain ⟨a, ha, hba⟩ := h.out b hne
  exact hb a ha hba

end OnlyIn

/-- Stores to data frames keep the invariant and every translation. -/
theorem Inv.onlyIn (h : Inv I X k) (hA : ∀ a ∈ A, k.Data X a) (ho : OnlyIn A k k') :
    Inv I X k' ∧ (∀ q, k.IsDir q → ∀ i, i < 1024 → k'.mem.entry q i = k.mem.entry q i) ∧
      ∀ q v, k.IsDir q → v < 2 ^ 32 → walk k'.mem q v = walk k.mem q v := by
  have hdir : ∀ q, k.IsDir q → ∀ i, i < 1024 → k'.mem.entry q i = k.mem.entry q i :=
    fun q hq i hi => Mem.entry_congr (h.dir_inUse hq).page hi fun b hb =>
      ho.byte fun a ha hba => (h.data_ne (hA a ha)).1 q hq (hba.symm.trans hb)
  have htab : ∀ q, k.IsDir q → ∀ i, i < 1024 → ∀ j, j < 1024 →
      k'.mem.entry (k.table q i) j = k.mem.entry (k.table q i) j :=
    fun q hq i hi j hj => Mem.entry_congr (h.table_inUse hq hi).page hj fun b hb =>
      ho.byte fun a ha hba => (h.data_ne (hA a ha)).2.1 q i hq hi (hba.symm.trans hb)
  refine ⟨?_, hdir, fun q v hq hv => ?_⟩
  · rw [ho.eq]
    exact h.mem_congr (p := ⟨k'.mem, k.pmm⟩) hdir (Finset.Subset.refl _)
  · have hpd := pdIndex_lt hv
    exact walk_congr (hdir q hq _ hpd) (htab q hq _ hpd _ (ptIndex_lt v))

/-! ### A stack of its own -/

/-- Every page of the stack of slot `s` is mapped, each to another of the frames `A`, which hold
data. -/
structure OwnStack (I : Image) (X A : Set Nat) (s : Nat) (k : State) : Prop where
  inv : Inv I X k
  hasDir : k.HasDir s
  page : ∀ a ∈ A, Mem.Page a
  data : ∀ a ∈ A, k.Data X a
  mapped : ∀ u, 0x8FFFC000 ≤ u → u < 0x90000000 →
    ∃ a ∈ A, walk k.mem (k.tasks s).pageDirectory u = some a
  apart : ∀ u w a, 0x8FFFC000 ≤ u → u < 0x90000000 → 0x8FFFC000 ≤ w → w < 0x90000000 →
    walk k.mem (k.tasks s).pageDirectory u = some a →
    walk k.mem (k.tasks s).pageDirectory w = some a → u / 4096 = w / 4096

/-- A new task has such a stack. -/
theorem Inv.ownStack (h : Inv I X k) (priority : Nat)
    (hret : (Kernel.taskCreateUser I k priority).1 = some s) :
    OwnStack I X {a | a ∈ ((Kernel.taskCreateUser I k priority).2.tasks s).ownedFrames} s
      (Kernel.taskCreateUser I k priority).2 := by
  have hinv := (h.taskCreateUser priority).1
  have hspace := h.userSpace priority hret
  generalize (Kernel.taskCreateUser I k priority).2 = k' at *
  refine ⟨hinv, hspace.hasDir, fun a ha => (hinv.inUse (.own s a) ha).page,
    fun a ha => Or.inr ⟨s, ha⟩, fun u hu hu' => ?_, hspace.apart⟩
  obtain ⟨b, hb, hwalk, -⟩ := hspace.stack u hu hu'
  exact ⟨b, hb, hwalk⟩

/-- What the task in slot `s` reads. -/
def State.userMem (k : State) (s : Nat) : Mem := fun v => k.mem (taskTranslateUserPtr k s v)

namespace OwnStack

/-- The address of a byte of the stack. -/
theorem translate (h : OwnStack I X A s k) (hlow : 0x8FFFC000 ≤ v) (hhigh : v < 0x90000000) :
    ∃ a ∈ A, Kernel.walk k.mem (k.tasks s).pageDirectory v = some a ∧ Mem.Page a ∧ a ≠ 0 ∧
      taskTranslateUserPtr k s v = a + v % 4096 := by
  obtain ⟨a, ha, hwalk⟩ := h.mapped v hlow hhigh
  have hpage := h.page a ha
  obtain ⟨o, ho, haddr, -⟩ := (h.data a ha).obj
  have hpos := (h.inv.inUse o ho).pos
  refine ⟨a, ha, hwalk, hpage, haddr ▸ hpos, ?_⟩
  rw [taskTranslateUserPtr_eq (h.inv.slot s h.hasDir).1 h.hasDir, hwalk]
  exact or_eq_add hpage (Nat.mod_lt _ (by decide))

/-- Different addresses are different bytes. -/
theorem translate_inj (h : OwnStack I X A s k) {u w : Nat} (hu : 0x8FFFC000 ≤ u)
    (hu' : u < 0x90000000) (hw : 0x8FFFC000 ≤ w) (hw' : w < 0x90000000)
    (heq : taskTranslateUserPtr k s u = taskTranslateUserPtr k s w) : u = w := by
  obtain ⟨a, -, hwa, hpa, -, hta⟩ := h.translate hu hu'
  obtain ⟨b, -, hwb, hpb, -, htb⟩ := h.translate hw hw'
  unfold Mem.Page at hpa hpb
  have hab : a = b := by omega
  have hpage := h.apart u w a hu hu' hw hw' hwa (hab ▸ hwb)
  omega

end OwnStack

/-- Bytes were written at the addresses `a .. a + data.length` of the stack, and nothing else
has changed. -/
structure Wrote (s : Nat) (k : State) (a : Nat) (data : List Byte) (k' : State) : Prop where
  eq : k' = { k with mem := k'.mem }
  inside : ∀ i, i < data.length → k'.mem (taskTranslateUserPtr k s (a + i)) = data.getD i 0
  outside : ∀ b, (∀ i, i < data.length → b ≠ taskTranslateUserPtr k s (a + i)) → k'.mem b = k.mem b
  low : 0x8FFFC000 ≤ a
  high : a + data.length ≤ 0x90000000

namespace Wrote

variable {a : Nat} {data : List Byte}

section

variable (h : Wrote s k a data k') (hst : OwnStack I X A s k)
include h hst

theorem onlyIn : OnlyIn A k k' := by
  have hlow := h.low
  have hhigh := h.high
  refine ⟨h.eq, fun b hb => ?_⟩
  have hsome : ∃ i, i < data.length ∧ b = taskTranslateUserPtr k s (a + i) := by
    by_contra hno
    exact hb (h.outside b fun i hi heq => hno ⟨i, hi, heq⟩)
  obtain ⟨i, hi, rfl⟩ := hsome
  obtain ⟨c, hc, -, hpage, -, htr⟩ := hst.translate (v := a + i) (by omega) (by omega)
  unfold Mem.Page at hpage
  exact ⟨c, hc, by omega⟩

/-- The stack is mapped as before. -/
theorem ownStack : OwnStack I X A s k' := by
  have ho := h.onlyIn hst
  obtain ⟨hinv, -, hwalk⟩ := hst.inv.onlyIn hst.data ho
  have hsame : ∀ u, u < 0x90000000 → Kernel.walk k'.mem (k'.tasks s).pageDirectory u =
      Kernel.walk k.mem (k.tasks s).pageDirectory u := fun u hu => by
    rw [ho.tasks, hwalk _ u hst.hasDir.isDir (by omega)]
  refine ⟨hinv, ?_, hst.page, fun b hb => ?_, fun u hu hu' => ?_,
    fun u w b hu hu' hw hw' hub hwb => ?_⟩
  · exact (State.hasDir_congr (by rw [ho.tasks])).mpr hst.hasDir
  · unfold State.Data
    rw [ho.tasks]
    exact hst.data b hb
  · rw [hsame u hu']
    exact hst.mapped u hu hu'
  · exact hst.apart u w b hu hu' hw hw' ((hsame u hu').symm.trans hub)
      ((hsame w hw').symm.trans hwb)

theorem translate (hv : 0x8FFFC000 ≤ v)
    (hv' : v < 0x90000000) : taskTranslateUserPtr k' s v = taskTranslateUserPtr k s v := by
  have hst' := h.ownStack hst
  have ho := h.onlyIn hst
  obtain ⟨-, -, hwalk⟩ := hst.inv.onlyIn hst.data ho
  obtain ⟨b, -, hwb, -, -, htb⟩ := hst'.translate hv hv'
  obtain ⟨c, -, hwc, -, -, htc⟩ := hst.translate hv hv'
  rw [ho.tasks, hwalk _ v hst.hasDir.isDir (by omega), hwc] at hwb
  rw [htb, htc, Option.some.inj hwb]

/-- The task reads what was written. -/
theorem holds : (k'.userMem s).Holds a data := by
  intro i b hb
  obtain ⟨hi, rfl⟩ := List.getElem?_eq_some_iff.mp hb
  have hlow := h.low
  have hhigh := h.high
  rw [State.userMem, h.translate hst (by omega) (by omega), h.inside i hi,
    List.getD_eq_getElem _ _ hi]

/-- The rest of the stack reads as before. -/
theorem userMem (hv : 0x8FFFC000 ≤ v) (hv' : v < 0x90000000) (hout : v < a ∨ a + data.length ≤ v) :
    k'.userMem s v = k.userMem s v := by
  have hlow := h.low
  have hhigh := h.high
  rw [State.userMem, State.userMem, h.translate hst hv hv']
  refine h.outside _ fun i hi heq => ?_
  have := hst.translate_inj hv hv' (by omega) (by omega) heq
  omega

end

variable {b : Nat} {data' : List Byte}

theorem refl (s : Nat) (k : State) (hlow : 0x8FFFC000 ≤ a) (hhigh : a ≤ 0x90000000) :
    Wrote s k a [] k :=
  ⟨rfl, fun i hi => absurd hi (Nat.not_lt_zero i), fun _ _ => rfl, hlow, hhigh⟩

/-- A second piece right behind the first. -/
theorem behind (h : Wrote s k a data k') (h' : Wrote s k' b data' k'') (hb : b = a + data.length)
    (hst : OwnStack I X A s k) : Wrote s k a (data ++ data') k'' := by
  subst hb
  have hlow := h.low
  have hhigh := h'.high
  have htr : ∀ i, i < data.length + data'.length →
      taskTranslateUserPtr k' s (a + i) = taskTranslateUserPtr k s (a + i) := fun i hi =>
    h.translate hst (by omega) (by omega)
  refine ⟨by rw [h'.eq, h.eq], fun i hi => ?_, fun x hx => ?_, hlow, ?_⟩
  · rw [List.length_append] at hi
    by_cases hlt : i < data.length
    · rw [List.getD_append _ _ _ _ hlt, ← h.inside i hlt]
      refine h'.outside _ fun j hj heq => ?_
      rw [Nat.add_assoc, htr _ (by omega)] at heq
      have := hst.translate_inj (by omega) (by omega) (by omega) (by omega) heq
      omega
    · have hin := h'.inside (i - data.length) (by omega)
      rw [Nat.add_assoc, Nat.add_sub_cancel' (Nat.le_of_not_lt hlt), htr i hi] at hin
      rw [List.getD_append_right _ _ _ _ (Nat.le_of_not_lt hlt), hin]
  · rw [List.length_append] at hx
    rw [h'.outside x fun j hj => ?_, h.outside x fun i hi => hx i (by omega)]
    rw [Nat.add_assoc, htr _ (by omega)]
    exact hx _ (by omega)
  · rwa [List.length_append, ← Nat.add_assoc]

/-- A second piece right below the first. -/
theorem below (h : Wrote s k a data k') (h' : Wrote s k' b data' k'') (hb : b + data'.length = a)
    (hst : OwnStack I X A s k) : Wrote s k b (data' ++ data) k'' := by
  have hlow := h'.low
  have hhigh := h.high
  have htr : ∀ i, i < data'.length →
      taskTranslateUserPtr k' s (b + i) = taskTranslateUserPtr k s (b + i) := fun i hi =>
    h.translate hst (by omega) (by omega)
  refine ⟨by rw [h'.eq, h.eq], fun i hi => ?_, fun x hx => ?_, hlow, ?_⟩
  · rw [List.length_append] at hi
    by_cases hlt : i < data'.length
    · rw [List.getD_append _ _ _ _ hlt, ← h'.inside i hlt, htr i hlt]
    · have hin := h.inside (i - data'.length) (by omega)
      rw [show a + (i - data'.length) = b + i by omega] at hin
      rw [List.getD_append_right _ _ _ _ (Nat.le_of_not_lt hlt), ← hin]
      refine h'.outside _ fun j hj heq => ?_
      rw [htr j hj] at heq
      have := hst.translate_inj (by omega) (by omega) (by omega) (by omega) heq
      omega
  · rw [List.length_append] at hx
    rw [h'.outside x fun j hj => ?_, h.outside x fun i hi => ?_]
    · rw [show a + i = b + (data'.length + i) by omega]
      exact hx _ (by omega)
    · rw [htr j hj]
      exact hx j (by omega)
  · rw [List.length_append]
    omega

end Wrote

/-! ### task_write_user_mem -/

/-- A write inside one page. -/
theorem OwnStack.store (h : OwnStack I X A s k) {a : Nat} (data : List Byte)
    (hlow : 0x8FFFC000 ≤ a) (hc : c ≤ data.length) (hpage : a % 4096 + c ≤ 4096)
    (hhigh : a + c ≤ 0x90000000) (hpos : 0 < c) :
    Wrote s k a (data.take c)
      { k with mem := k.mem.store (taskTranslateUserPtr k s a) c fun i => data.getD i 0 } := by
  have htr : ∀ i, i < c → taskTranslateUserPtr k s (a + i) = taskTranslateUserPtr k s a + i := by
    intro i hi
    obtain ⟨x, -, hwx, -, -, hx⟩ := h.translate hlow (by omega)
    obtain ⟨y, -, hwy, -, -, hy⟩ := h.translate (v := a + i) (by omega) (by omega)
    have hsame := (page_eq_iff (a + i) a).mp (by omega)
    have hwalk : Kernel.walk k.mem (k.tasks s).pageDirectory (a + i) =
        Kernel.walk k.mem (k.tasks s).pageDirectory a := by
      unfold Kernel.walk
      rw [hsame.1, hsame.2]
    rw [hwalk, hwx] at hwy
    rw [hx, hy, Option.some.inj hwy]
    omega
  have hlen : (data.take c).length = c := by rw [List.length_take, Nat.min_eq_left hc]
  refine ⟨rfl, fun i hi => ?_, fun b hb => ?_, hlow, by rw [hlen]; exact hhigh⟩
  · rw [hlen] at hi
    rw [htr i hi]
    dsimp only
    rw [Mem.store_in (by omega) (by omega), Nat.add_sub_cancel_left,
      List.getD_eq_getElem _ _ (by omega), List.getD_eq_getElem _ _ (by omega), List.getElem_take]
  · dsimp only
    refine Mem.store_out ?_
    by_contra hin
    refine hb (b - taskTranslateUserPtr k s a) (by omega) ?_
    rw [htr _ (by omega)]
    omega

theorem OwnStack.writePages : ∀ (data : List Byte) (a : Nat) {k : State}, OwnStack I X A s k →
    0x8FFFC000 ≤ a → a + data.length ≤ 0x90000000 →
    (Kernel.writePages k s a data).1 = true ∧
    Wrote s k a data (Kernel.writePages k s a data).2 := by
  intro data
  induction hn : data.length using Nat.strong_induction_on generalizing data with
  | _ n ih =>
    intro a k h hlow hhigh
    cases data with
    | nil =>
      rw [Kernel.writePages]
      exact ⟨rfl, Wrote.refl s k hlow (by omega)⟩
    | cons b bs =>
      rw [List.length_cons] at hn
      obtain ⟨x, -, -, -, hx, htr⟩ := h.translate hlow (by omega)
      rw [Kernel.writePages]
      dsimp only
      rw [if_neg (by omega)]
      have hchunk : min (4096 - a % 4096) (bs.length + 1) ≤ 4096 - a % 4096 := Nat.min_le_left _ _
      have hle : min (4096 - a % 4096) (bs.length + 1) ≤ bs.length + 1 := Nat.min_le_right _ _
      have hpos : 0 < min (4096 - a % 4096) (bs.length + 1) := by omega
      generalize min (4096 - a % 4096) (bs.length + 1) = c at hchunk hle hpos
      have hc : c ≤ (b :: bs).length := hle
      have hfirst := h.store (b :: bs) hlow hc (by omega) (by omega) hpos
      have hlen : ((b :: bs).take c).length = c := by rw [List.length_take, Nat.min_eq_left hc]
      have hrest : ((b :: bs).drop c).length = n - c := by
        rw [List.length_drop, List.length_cons, hn]
      have hst := hfirst.ownStack h
      have hwrap : wrap (a + c) = a + c := Nat.mod_eq_of_lt (by omega)
      rw [hwrap]
      obtain ⟨hret, hsecond⟩ := ih _ (by omega) ((b :: bs).drop c) hrest (a + c) hst (by omega)
        (by omega)
      refine ⟨hret, ?_⟩
      have hall := hfirst.behind hsecond (by rw [hlen]) h
      rwa [List.take_append_drop] at hall

/-- **`task_write_user_mem` on a stack** writes its bytes. -/
theorem OwnStack.write (h : OwnStack I X A s k) (data : List Byte) {a : Nat} (hlow : 0x8FFFC000 ≤ a)
    (hhigh : a + data.length ≤ 0x90000000) :
    (taskWriteUserMem k s a data).1 = true ∧ Wrote s k a data (taskWriteUserMem k s a data).2 := by
  have hslot := (h.inv.slot s h.hasDir).1
  unfold taskWriteUserMem
  rw [if_neg (by omega)]
  exact OwnStack.writePages data a h hlow hhigh

/-! ### push_argv -/

/-- Where the stack pointer is while the arguments are pushed; `c` bytes were skipped. -/
structure SpBound (c sp used : Nat) : Prop where
  le : sp ≤ USER_STACK_TOP
  ge : USER_STACK_TOP ≤ sp + used + c
  used : used ≤ ELF_MAX_ARGV_BYTES
  skip : c ≤ 3

theorem SpBound.down {n : Nat} (h : SpBound c sp used) (hn : used + n ≤ 4096) :
    0x8FFFEFFD ≤ sp - n ∧ sp - n + n = sp ∧ sp ≤ 0x90000000 ∧ SpBound c (sp - n) (used + n) := by
  have hle := h.le
  have hge := h.ge
  have hskip := h.skip
  unfold USER_STACK_TOP at hle hge
  exact ⟨by omega, by omega, hle, by unfold USER_STACK_TOP; omega, by unfold USER_STACK_TOP; omega,
    hn, hskip⟩

/-- More strings below the row that starts at `sp`, in order; the budget is the only reason to
fail. -/
theorem Wrote.pushStrings (hst : OwnStack I X A s k) :
    ∀ (strs : List (List Byte)) (addrs : List Nat)
    {row : List (List Byte)} {sp used c : Nat} {k1 : State}, Wrote s k sp (Mem.strings row) k1 →
    SpBound c sp used →
    match Kernel.pushStrings s strs addrs sp used k1 with
    | (none, _) => 4096 < used + (Mem.strings strs.reverse).length
    | (some (addrs', sp', used'), k2) =>
      sp' + (Mem.strings strs.reverse).length = sp ∧
      used' = used + (Mem.strings strs.reverse).length ∧ SpBound c sp' used' ∧
      addrs' = Mem.places sp' strs.reverse ++ addrs ∧
      Wrote s k sp' (Mem.strings (strs.reverse ++ row)) k2 := by
  intro strs
  induction strs with
  | nil => exact fun addrs row sp used c k1 hw hsp => ⟨rfl, rfl, hsp, rfl, hw⟩
  | cons str strs ih =>
    intro addrs row sp used c k1 hw hsp
    have hlen : (str ++ [(0 : Byte)]).length = str.length + 1 := by simp
    have hrev : (Mem.strings (str :: strs).reverse).length =
        (Mem.strings strs.reverse).length + (str.length + 1) := by simp
    rw [Kernel.pushStrings, hrev]
    by_cases hused : used + (str.length + 1) > ELF_MAX_ARGV_BYTES
    · rw [if_pos hused]
      unfold ELF_MAX_ARGV_BYTES at hused
      show 4096 < used + _
      omega
    rw [if_neg hused]
    unfold ELF_MAX_ARGV_BYTES at hused
    obtain ⟨hlow, hsub, hhigh, hdown⟩ := hsp.down (n := str.length + 1) (by omega)
    obtain ⟨hret, hfirst⟩ :=
      (hw.ownStack hst).write (str ++ [0]) (a := sp - (str.length + 1)) (by omega)
      (by rw [hlen]; omega)
    generalize taskWriteUserMem k1 s (sp - (str.length + 1)) (str ++ [0]) = r at hret hfirst
    obtain ⟨ok, k2⟩ := r
    obtain rfl : ok = true := hret
    have hrow : Wrote s k (sp - (str.length + 1)) (Mem.strings (str :: row)) k2 :=
      hw.below hfirst (by rw [hlen, hsub]) hst
    have hrest := ih ((sp - (str.length + 1)) :: addrs) hrow hdown
    dsimp only at hrest ⊢
    generalize Kernel.pushStrings s strs ((sp - (str.length + 1)) :: addrs) (sp - (str.length + 1))
      (used + (str.length + 1)) k2 = r at hrest
    obtain ⟨- | ⟨addrs', sp', used'⟩, k3⟩ := r
    · show 4096 < used + _
      have : 4096 < used + (str.length + 1) + (Mem.strings strs.reverse).length := hrest
      omega
    · obtain ⟨hsp', hused', hbound, haddrs, hall⟩ := hrest
      refine ⟨by omega, by omega, hbound, ?_, ?_⟩
      · rw [haddrs, List.reverse_cons, Mem.places_append, hsp', List.append_assoc]
        rfl
      · rw [List.reverse_cons, List.append_assoc]
        exact hall

theorem OwnStack.writeWords : ∀ (ws : List Nat) (a : Nat) {k : State}, OwnStack I X A s k →
    0x8FFFC000 ≤ a → a + 4 * ws.length ≤ 0x90000000 →
    (Kernel.writeWords s ws a k).1 = true ∧
      Wrote s k a (Mem.words ws) (Kernel.writeWords s ws a k).2 := by
  intro ws
  induction ws with
  | nil => exact fun a k h hlow hhigh => ⟨rfl, Wrote.refl s k hlow hhigh⟩
  | cons w ws ih =>
    intro a k h hlow hhigh
    rw [List.length_cons] at hhigh
    have hlen : (Mem.word w).length = 4 := Mem.length_word w
    obtain ⟨hret, hfirst⟩ := h.write (Mem.word w) (a := a) hlow (by omega)
    rw [Kernel.writeWords]
    change (taskWriteUserMem k s a ((List.range 4).map (Buf.leByte w))).1 = true at hret
    change Wrote s k a (Mem.word w) (taskWriteUserMem k s a ((List.range 4).map (Buf.leByte w))).2
      at hfirst
    generalize taskWriteUserMem k s a ((List.range 4).map (Buf.leByte w)) = r at hret hfirst
    obtain ⟨ok, k1⟩ := r
    obtain rfl : ok = true := hret
    obtain ⟨hret', hrest⟩ := ih (a + 4) (hfirst.ownStack h) (by omega) (by omega)
    refine ⟨hret', ?_⟩
    rw [Mem.words_cons]
    exact hfirst.behind hrest (by rw [hlen]) h

/-- One more table below the words that start at `sp`. -/
theorem Wrote.pushWordTable (hst : OwnStack I X A s k) {vs : List Nat} {k1 : State}
    (hw : Wrote s k sp (Mem.words vs) k1) (hsp : SpBound c sp used) (ws : List Nat) :
    match Kernel.pushWordTable s ws sp used k1 with
    | (none, _) => 4096 < used + 4 * ws.length
    | (some (sp', used'), k2) =>
      sp' + 4 * ws.length = sp ∧ used' = used + 4 * ws.length ∧ SpBound c sp' used' ∧
      Wrote s k sp' (Mem.words (ws ++ vs)) k2 := by
  unfold Kernel.pushWordTable
  dsimp only
  by_cases hused : used + 4 * ws.length > ELF_MAX_ARGV_BYTES
  · rw [if_pos hused]
    exact hused
  rw [if_neg hused]
  unfold ELF_MAX_ARGV_BYTES at hused
  obtain ⟨hlow, hsub, hhigh, hdown⟩ := hsp.down (n := 4 * ws.length) (by omega)
  obtain ⟨hret, hfirst⟩ := OwnStack.writeWords ws (sp - 4 * ws.length) (hw.ownStack hst) (by omega)
    (by omega)
  generalize Kernel.writeWords s ws (sp - 4 * ws.length) k1 = r at hret hfirst
  obtain ⟨ok, k2⟩ := r
  obtain rfl : ok = true := hret
  refine ⟨hsub, rfl, hdown, ?_⟩
  rw [Mem.words_append]
  exact hw.below hfirst (by rw [Mem.length_words]; exact hsub) hst

/-- The second half of `push_argv`: the tables below the strings. -/
def pushTables (slot : Int) (envAddrs argvAddrs : List Nat) (argc sp used : Nat) (k : State) :
    Option Nat × State :=
  match pushWordTable slot (envAddrs ++ [0]) (sp / 4 * 4) used k with
  | (none, k) => (none, k)
  | (some (sp, used), k) =>
    match pushWordTable slot (argvAddrs ++ [0]) sp used k with
    | (none, k) => (none, k)
    | (some (sp, used), k) =>
      match pushWordTable slot [argc] sp used k with
      | (none, k) => (none, k)
      | (some (sp, _), k) => (some sp, k)

theorem OwnStack.pushTables (h : OwnStack I X A s k) (envAddrs argvAddrs : List Nat) (argc : Nat)
    (hsp : SpBound 0 sp used) :
    match Kernel.pushTables s envAddrs argvAddrs argc sp used k with
    | (none, _) => 4096 < used + 4 * (argvAddrs.length + envAddrs.length + 3)
    | (some esp, k') => 0x8FFFEFFD ≤ esp ∧
        esp + 4 * (argvAddrs.length + envAddrs.length + 3) = sp / 4 * 4 ∧
        Wrote s k esp (Mem.words ([argc] ++ ((argvAddrs ++ [0]) ++ ((envAddrs ++ [0]) ++ []))))
          k' := by
  have hbound : SpBound 3 (sp / 4 * 4) used := by
    have hle := hsp.le
    have hge := hsp.ge
    exact ⟨by omega, by unfold USER_STACK_TOP at hge ⊢; omega, hsp.used, Nat.le_refl 3⟩
  have hle := hsp.le
  have hge := hsp.ge
  have hused := hsp.used
  unfold USER_STACK_TOP at hle hge
  unfold ELF_MAX_ARGV_BYTES at hused
  have hempty : Wrote s k (sp / 4 * 4) (Mem.words []) k :=
    Wrote.refl s k (by omega) (by omega)
  have henv := hempty.pushWordTable h hbound (envAddrs ++ [0])
  unfold Kernel.pushTables
  generalize Kernel.pushWordTable s (envAddrs ++ [0]) (sp / 4 * 4) used k = r at henv
  obtain ⟨- | ⟨sp1, used1⟩, k1⟩ := r
  · have henv : 4096 < used + 4 * (envAddrs ++ [0]).length := henv
    rw [List.length_append, List.length_singleton] at henv
    show 4096 < _
    omega
  obtain ⟨hsp1, hused1, hb1, hw1⟩ := henv
  have hargv := hw1.pushWordTable h hb1 (argvAddrs ++ [0])
  dsimp only
  generalize Kernel.pushWordTable s (argvAddrs ++ [0]) sp1 used1 k1 = r at hargv
  simp only [List.length_append, List.length_singleton] at hsp1 hused1
  obtain ⟨- | ⟨sp2, used2⟩, k2⟩ := r
  · have hargv : 4096 < used1 + 4 * (argvAddrs ++ [0]).length := hargv
    rw [List.length_append, List.length_singleton] at hargv
    show 4096 < _
    omega
  obtain ⟨hsp2, hused2, hb2, hw2⟩ := hargv
  simp only [List.length_append, List.length_singleton] at hsp2 hused2
  have hargc := hw2.pushWordTable h hb2 [argc]
  dsimp only
  generalize Kernel.pushWordTable s [argc] sp2 used2 k2 = r at hargc
  obtain ⟨- | ⟨sp3, used3⟩, k3⟩ := r
  · have hargc : 4096 < used2 + 4 * [argc].length := hargc
    rw [List.length_singleton] at hargc
    show 4096 < _
    omega
  obtain ⟨hsp3, -, hb3, hw3⟩ := hargc
  rw [List.length_singleton] at hsp3
  have hge := hb3.ge
  have hused := hb3.used
  unfold USER_STACK_TOP at hge
  unfold ELF_MAX_ARGV_BYTES at hused
  exact ⟨by omega, by omega, hw3⟩

/-- The two pieces that `push_argv` writes: the strings at the top, and below them, at a
multiple of four, the number of arguments and the two tables. -/
structure Pushed (s : Nat) (env argv : List (List Byte)) (k : State) (esp : Nat) (k' : State)
    (base : Nat) (mid : State) : Prop where
  top : base + (Mem.strings (argv ++ env)).length = 0x90000000
  words : esp + 4 * (argv.length + env.length + 3) = base / 4 * 4
  used : 0x8FFFEFFD ≤ esp
  strings : Wrote s k base (Mem.strings (argv ++ env)) mid
  tables : Wrote s mid esp (Mem.words ([argv.length] ++ ((Mem.places base argv ++ [0]) ++
    ((Mem.places (base + (Mem.strings argv).length) env ++ [0]) ++ [])))) k'

/-- **`push_argv` on a stack** fails when the lists are too long, and pushes them otherwise. -/
theorem OwnStack.pushArgv (h : OwnStack I X A s k) (env argv : List (List Byte))
    (henv : env.length ≤ ELF_MAX_ENV) :
    match Kernel.pushArgv s env argv k with
    | (none, _) => ELF_MAX_ARGV < argv.length ∨
        4096 < (Mem.strings (argv ++ env)).length + 4 * (argv.length + env.length + 3)
    | (some esp, k') => ∃ base mid, Pushed s env argv k esp k' base mid := by
  unfold Kernel.pushArgv
  by_cases hmany : argv.length > ELF_MAX_ARGV
  · rw [if_pos hmany]
    exact Or.inl hmany
  rw [if_neg hmany, List.take_of_length_le henv]
  dsimp only
  have hstart : SpBound 0 USER_STACK_TOP 0 := ⟨Nat.le_refl _, Nat.le_refl _, by decide, by decide⟩
  have hboth : (Mem.strings (argv ++ env)).length =
      (Mem.strings argv).length + (Mem.strings env).length := by
    rw [Mem.strings_append, List.length_append]
  -- the environment
  have hempty : Wrote s k USER_STACK_TOP (Mem.strings []) k :=
    Wrote.refl s k (by decide) (Nat.le_refl _)
  have henvs := hempty.pushStrings h env.reverse [] hstart
  rw [List.reverse_reverse] at henvs
  generalize Kernel.pushStrings s env.reverse [] USER_STACK_TOP 0 k = r at henvs
  obtain ⟨- | ⟨envAddrs, sp1, used1⟩, k1⟩ := r
  · have henvs : 4096 < 0 + (Mem.strings env).length := henvs
    exact Or.inr (by omega)
  obtain ⟨hsp1, hused1, hb1, rfl, hw1⟩ := henvs
  unfold USER_STACK_TOP at hsp1
  rw [List.append_nil] at hw1
  -- the arguments
  have hargs := hw1.pushStrings h argv.reverse [] hb1
  rw [List.reverse_reverse] at hargs
  dsimp only
  generalize Kernel.pushStrings s argv.reverse [] sp1 used1 k1 = r at hargs
  obtain ⟨- | ⟨argvAddrs, sp2, used2⟩, k2⟩ := r
  · have hargs : 4096 < used1 + (Mem.strings argv).length := hargs
    exact Or.inr (by omega)
  obtain ⟨hsp2, hused2, hb2, rfl, hw2⟩ := hargs
  -- the tables
  have htables := (hw2.ownStack h).pushTables (Mem.places sp1 env)
    (Mem.places sp2 argv) argv.length hb2
  rw [Mem.length_places, Mem.length_places] at htables
  rw [List.append_nil, List.append_nil]
  change match Kernel.pushTables s (Mem.places sp1 env) (Mem.places sp2 argv) argv.length sp2
    used2 k2 with | (none, _) => _ | (some esp, k') => _
  generalize Kernel.pushTables s (Mem.places sp1 env) (Mem.places sp2 argv) argv.length sp2 used2
    k2 = r at htables
  obtain ⟨- | esp, k'⟩ := r
  · have htables : 4096 < used2 + 4 * (argv.length + env.length + 3) := htables
    exact Or.inr (by omega)
  · obtain ⟨hlow, hwords, hall⟩ := htables
    rw [← hsp2] at hall
    exact ⟨sp2, k2, by omega, hwords, hlow, hw2, hall⟩

/-- What `push_argv` changes lies in the frames of the stack. -/
theorem OwnStack.onlyIn_pushArgv (h : OwnStack I X A s k) {env argv : List (List Byte)} {esp : Nat}
    (hret : Kernel.pushArgv s env argv k = (some esp, k')) :
      OnlyIn A k k' ∧ OwnStack I X A s k' := by
  have hpush := h.pushArgv _ argv (List.length_take_le ELF_MAX_ENV env)
  have htake : Kernel.pushArgv s (env.take ELF_MAX_ENV) argv k = Kernel.pushArgv s env argv k := by
    unfold Kernel.pushArgv
    rw [List.take_take, Nat.min_self]
  rw [htake, hret] at hpush
  obtain ⟨base, mid, hp⟩ := hpush
  have hmid := hp.strings.ownStack h
  exact ⟨(hp.strings.onlyIn h).trans (hp.tables.onlyIn hmid), hp.tables.ownStack hmid⟩

end Crusadia.Kernel
