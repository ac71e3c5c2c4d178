import Crusadia.Kernel.Stack
import Crusadia.Kernel.Env

/-!
# Crusadia.Kernel.Argv

The **initial stack** of a program: what `push_argv` leaves for `crt0` to read.

On a new task `push_argv` writes two pieces, the strings and below them the words
(`OwnStack.pushArgv`). Read back they are the arguments and the environment (`pushArgv_image`).
-/

namespace Crusadia.Kernel

variable {I : Image} {X A : Set Nat} {k k' k'' : State} {s v : Nat}

/-! ### What crt0 reads -/

/-- A table of pointers at `p`, closed by `NULL`: the pointers lead to the strings. -/
structure PointsTo (m : Mem) (p : Nat) (strs : List CStr) : Prop where
  string : ∀ i t, strs[i]? = some t →
    m.get32 (p + 4 * i) ≠ 0 ∧ m.Holds (m.get32 (p + 4 * i)) (t.chars ++ [0])
  null : m.get32 (p + 4 * strs.length) = 0

/-- `_start` of `crt0.s` finds `argc` at `esp`, `argv` behind it and `envp` behind the `NULL` of
`argv`. -/
structure Decodes (m : Mem) (esp : Nat) (argv env : List CStr) : Prop where
  argc : m.get32 esp = argv.length
  argv : PointsTo m (esp + 4) argv
  envp : PointsTo m (esp + 4 + m.get32 esp * 4 + 4) env

/-- The strings of a table of pointers, as address and size. -/
def stringSpans (m : Mem) (p : Nat) (strs : List CStr) : List (Nat × Nat) :=
  strs.mapIdx fun i t => (m.get32 (p + 4 * i), t.length + 1)

/-- The pieces of the stack image, as address and size: `argc`, the two tables, the strings. -/
def imageSpans (m : Mem) (esp : Nat) (argv env : List CStr) : List (Nat × Nat) :=
  (esp, 4) :: (esp + 4, 4 * (argv.length + 1)) ::
    (esp + 4 + argv.length * 4 + 4, 4 * (env.length + 1)) ::
    (stringSpans m (esp + 4) argv ++ stringSpans m (esp + 4 + argv.length * 4 + 4) env)

/-- A table with the addresses of a row of strings. -/
structure TableOf (m : Mem) (p a : Nat) (strs : List CStr) : Prop where
  pointers : m.Holds p (Mem.words (Mem.places a (strs.map (·.chars)) ++ [0]))
  row : m.Holds a (Mem.strings (strs.map (·.chars)))
  pos : 0 < a
  low : a + (Mem.strings (strs.map (·.chars))).length ≤ 0x90000000

namespace TableOf

variable {m : Mem} {p a : Nat} {strs : List CStr}

section

variable (h : TableOf m p a strs)
include h

theorem lt {q : Nat × Nat} (hq : q ∈ Mem.spans a (strs.map (·.chars))) :
    a ≤ q.1 ∧ q.1 + q.2 ≤ 0x90000000 := by
  have := Mem.mem_spans hq
  have := h.low
  omega

theorem get32 {i : Nat} (hi : i < strs.length) :
    m.get32 (p + 4 * i) = (Mem.places a (strs.map (·.chars))).getD i 0 ∧
      ((Mem.places a (strs.map (·.chars))).getD i 0, (strs.get ⟨i, hi⟩).length + 1) ∈
        Mem.spans a (strs.map (·.chars)) := by
  have hlen : i < (Mem.places a (strs.map (·.chars))).length := by simpa using hi
  have hmem : ((Mem.places a (strs.map (·.chars))).getD i 0, (strs.get ⟨i, hi⟩).length + 1) ∈
      Mem.spans a (strs.map (·.chars)) := by
    rw [List.getD_eq_getElem _ _ hlen]
    refine List.mem_iff_getElem.mpr ⟨i, by simpa [Mem.spans] using hi, ?_⟩
    simp [Mem.spans, CStr.length]
  refine ⟨?_, hmem⟩
  have hw := h.pointers.get32_words (i := i) (by rw [List.length_append]; omega)
  rw [List.getD_append _ _ _ _ hlen] at hw
  have := h.lt hmem
  rw [hw, Nat.mod_eq_of_lt (by dsimp only at this; omega)]

theorem pointsTo : PointsTo m p strs := by
  refine ⟨fun i t ht => ?_, ?_⟩
  · obtain ⟨hi, rfl⟩ := List.getElem?_eq_some_iff.mp ht
    obtain ⟨hget, hmem⟩ := h.get32 hi
    have hlow := (h.lt hmem).1
    have hpos := h.pos
    have hstr := h.row.string (i := i) (by simpa using hi)
    rw [List.getD_eq_getElem (strs.map (·.chars)) _ (by simpa using hi), List.getElem_map] at hstr
    rw [hget]
    exact ⟨by dsimp only at hlow; omega, hstr⟩
  · have hw := h.pointers.get32_words (i := strs.length) (by simp)
    rw [List.getD_append_right _ _ _ _ (by simp)] at hw
    simpa using hw

theorem stringSpans : Kernel.stringSpans m p strs = Mem.spans a (strs.map (·.chars)) := by
  refine List.ext_getElem (by simp [Kernel.stringSpans, Mem.spans]) fun i hi hi' => ?_
  have his : i < strs.length := by simpa [Kernel.stringSpans] using hi
  have hlen : i < (Mem.places a (strs.map (·.chars))).length := by simpa using his
  have hget := (h.get32 his).1
  rw [List.getD_eq_getElem _ _ hlen] at hget
  simp [Kernel.stringSpans, Mem.spans, hget, CStr.length]

end

end TableOf

namespace Pushed

variable {env argv : List CStr} {esp base : Nat} {mid : State}

theorem length_tables (n base base' : Nat) (argv env : List CStr) :
    (Mem.words ([n] ++ ((Mem.places base (argv.map (·.chars)) ++ [0]) ++
      ((Mem.places base' (env.map (·.chars)) ++ [0]) ++ [])))).length =
      4 * (argv.length + env.length + 3) := by
  simp only [Mem.length_words, List.length_append, Mem.length_places, List.length_map,
    List.length_singleton, List.length_nil]
  omega

variable (h : Pushed s (env.map (·.chars)) (argv.map (·.chars)) k esp k' base mid)
  (hst : OwnStack I X A s k)

include h

/-- Where the two pieces lie. -/
theorem bounds :
    0x8FFFEFFD ≤ esp ∧ esp + 4 * (argv.length + env.length + 3) = base / 4 * 4 ∧
      base + (Mem.strings (argv.map (·.chars))).length +
        (Mem.strings (env.map (·.chars))).length = 0x90000000 := by
  have htop := h.top
  have hwords := h.words
  rw [Mem.strings_append, List.length_append] at htop
  rw [List.length_map, List.length_map] at hwords
  exact ⟨h.used, hwords, by omega⟩

include hst

/-- The stack after both pieces are written. -/
theorem tableOf :
    (k'.userMem s).get32 esp = argv.length ∧ TableOf (k'.userMem s) (esp + 4) base argv ∧
      TableOf (k'.userMem s) (esp + 4 + argv.length * 4 + 4)
        (base + (Mem.strings (argv.map (·.chars))).length) env := by
  obtain ⟨hused, hwords, htop⟩ := h.bounds
  have hrow : (Mem.strings (argv.map (·.chars) ++ env.map (·.chars))).length =
      (Mem.strings (argv.map (·.chars))).length + (Mem.strings (env.map (·.chars))).length := by
    rw [Mem.strings_append, List.length_append]
  have hlen := length_tables (argv.map (·.chars)).length base
    (base + (Mem.strings (argv.map (·.chars))).length) argv env
  have hmid := h.strings.ownStack hst
  have htables := h.tables.holds hmid
  have hstrings := h.strings.holds hst
  -- the tables lie below the strings
  have hkept : (k'.userMem s).Holds base
      (Mem.strings (argv.map (·.chars) ++ env.map (·.chars))) := by
    intro i b hb
    obtain ⟨hi, -⟩ := List.getElem?_eq_some_iff.mp hb
    rw [h.tables.userMem hmid (by omega) (by omega) (Or.inr (by omega))]
    exact hstrings i b hb
  rw [List.append_nil, Mem.words_append, Mem.words_append, Mem.holds_append,
    Mem.holds_append] at htables
  obtain ⟨hargc, hargv, henv⟩ := htables
  rw [Mem.strings_append, Mem.holds_append] at hkept
  have hargv' : (Mem.words (Mem.places base (argv.map (·.chars)) ++ [0])).length =
      argv.length * 4 + 4 := by
    rw [Mem.length_words, List.length_append, Mem.length_places, List.length_map,
      List.length_singleton]
    omega
  have hargc' := hargc.get32_words (i := 0) (by simp)
  rw [hargv', ← Nat.add_assoc] at henv
  refine ⟨?_, ⟨hargv, hkept.1, by omega, by omega⟩, ⟨henv, hkept.2, by omega, by omega⟩⟩
  rw [Nat.mul_zero, Nat.add_zero, List.getD_cons_zero, List.length_map] at hargc'
  rw [hargc', Nat.mod_eq_of_lt (by omega)]

theorem decodes : Decodes (k'.userMem s) esp argv env := by
  obtain ⟨hargc, hargv, henv⟩ := h.tableOf hst
  exact ⟨hargc, hargv.pointsTo, by rw [hargc]; exact henv.pointsTo⟩

/-- The pieces of the image follow each other, the tables below the strings. -/
theorem apart : (imageSpans (k'.userMem s) esp argv env).Pairwise fun p q => p.1 + p.2 ≤ q.1 := by
  obtain ⟨hused, hwords, htop⟩ := h.bounds
  obtain ⟨-, hargv, henv⟩ := h.tableOf hst
  unfold imageSpans
  rw [hargv.stringSpans, henv.stringSpans, ← Mem.spans_append]
  have habove : ∀ q ∈ Mem.spans base (argv.map (·.chars) ++ env.map (·.chars)), base ≤ q.1 :=
    fun q hq => (Mem.mem_spans hq).1
  refine List.Pairwise.cons ?_ (List.Pairwise.cons ?_ (List.Pairwise.cons ?_
    (Mem.pairwise_spans _ _)))
  · simp only [List.mem_cons, forall_eq_or_imp]
    refine ⟨Nat.le_refl _, by omega, fun q hq => ?_⟩
    have := habove q hq
    omega
  · simp only [List.mem_cons, forall_eq_or_imp]
    refine ⟨by omega, fun q hq => ?_⟩
    have := habove q hq
    omega
  · intro q hq
    have := habove q hq
    dsimp only
    omega

/-- Only bytes between the new and the old stack pointer change. -/
theorem written {b : Nat} (hb : k'.mem b ≠ k.mem b) :
    ∃ v, USER_STACK_TOP - 4100 ≤ v ∧ v < USER_STACK_TOP ∧ b = taskTranslateUserPtr k s v := by
  obtain ⟨hused, hwords, htop⟩ := h.bounds
  have hlen := length_tables (argv.map (·.chars)).length base
    (base + (Mem.strings (argv.map (·.chars))).length) argv env
  have hrow := h.top
  unfold USER_STACK_TOP
  by_contra hno
  have hout : ∀ v, 0x8FFFEFFC ≤ v → v < 0x90000000 → b ≠ taskTranslateUserPtr k s v :=
    fun v hv hv' heq => hno ⟨v, by omega, hv', heq⟩
  refine hb ?_
  rw [h.tables.outside b fun i hi => ?_, h.strings.outside b fun i hi =>
    hout _ (by omega) (by omega)]
  rw [h.strings.translate hst (by omega) (by omega)]
  exact hout _ (by omega) (by omega)

/-- The pieces lie in the page of the budget. -/
theorem inside (p : Nat × Nat) (hp : p ∈ imageSpans (k'.userMem s) esp argv env) :
    USER_STACK_TOP - 4100 ≤ p.1 ∧ p.1 + p.2 ≤ USER_STACK_TOP := by
  obtain ⟨hused, hwords, htop⟩ := h.bounds
  obtain ⟨-, hargv, henv⟩ := h.tableOf hst
  unfold imageSpans at hp
  rw [hargv.stringSpans, henv.stringSpans, ← Mem.spans_append] at hp
  unfold USER_STACK_TOP
  simp only [List.mem_cons] at hp
  rcases hp with rfl | rfl | rfl | hp
  · dsimp only
    omega
  · dsimp only
    omega
  · dsimp only
    omega
  · have := Mem.mem_spans hp
    have := h.top
    omega

end Pushed

/-- **The initial stack.** When `push_argv` succeeds on a new task, `crt0` finds the arguments and
the environment at the stack pointer. -/
theorem pushArgv_image {k₁ k₂ : State} {priority esp : Nat}
    (h : Inv I X k) (hcreate : taskCreateUser I k priority = (some s, k₁)) {e : Env.Vars}
    (he : Env.Reached e) {argv : List CStr}
    (hret : pushArgv s ((Env.entries e).map (·.chars)) (argv.map (·.chars)) k₁ = (some esp, k₂)) :
    Decodes (k₂.userMem s) esp argv (Env.entries e) ∧
      ((List.range (Env.envCount e).toNat).map fun i : Nat => Env.envEntry e i) =
        (Env.entries e).map some ∧
      esp % 4 = 0 ∧
      k₂ = { k₁ with mem := k₂.mem } ∧
      (∀ b, k₂.mem b ≠ k₁.mem b →
        ∃ v, USER_STACK_TOP - 4100 ≤ v ∧ v < USER_STACK_TOP ∧ b = taskTranslateUserPtr k₁ s v) ∧
      (∀ p ∈ imageSpans (k₂.userMem s) esp argv (Env.entries e),
        USER_STACK_TOP - 4100 ≤ p.1 ∧ p.1 + p.2 ≤ USER_STACK_TOP) ∧
      (imageSpans (k₂.userMem s) esp argv (Env.entries e)).Pairwise fun p q => p.1 + p.2 ≤ q.1 := by
  have hst := h.ownStack priority (by rw [hcreate])
  rw [hcreate] at hst
  have hpush := hst.pushArgv ((Env.entries e).map (·.chars)) (argv.map (·.chars))
    (by rw [List.length_map]; exact he.length_entries)
  rw [hret] at hpush
  obtain ⟨base, mid, hp⟩ := hpush
  obtain ⟨-, hwords, -⟩ := hp.bounds
  refine ⟨hp.decodes hst, he.listed, by omega, ?_, fun b => hp.written hst, hp.inside hst,
    hp.apart hst⟩
  rw [hp.tables.eq, hp.strings.eq]

theorem pushArgv_image_ls : ∃ k₁ esp k₂, taskCreateUser smallImage booted 1 = (some 1, k₁) ∧
    pushArgv 1 ((Env.entries (Env.envInit Env.zeroed)).map (·.chars))
      ([Env.str ['l', 's'], Env.str ['/']].map (·.chars)) k₁ = (some esp, k₂) ∧
    Decodes (k₂.userMem 1) esp [Env.str ['l', 's'], Env.str ['/']]
      (Env.entries (Env.envInit Env.zeroed)) := by
  cases hcreate : taskCreateUser smallImage booted 1 with
  | mk ret k₁ =>
  obtain rfl : ret = some 1 := by
    rw [← created_booted.1, hcreate]
  have hst := inv_booted.ownStack 1 created_booted.1
  rw [hcreate] at hst
  have hpush := hst.pushArgv ((Env.entries (Env.envInit Env.zeroed)).map (·.chars))
    ([Env.str ['l', 's'], Env.str ['/']].map (·.chars)) (by decide +kernel)
  cases hret : pushArgv 1 ((Env.entries (Env.envInit Env.zeroed)).map (·.chars))
      ([Env.str ['l', 's'], Env.str ['/']].map (·.chars)) k₁ with
  | mk r k₂ =>
  cases r with
  | none =>
    change Kernel.pushArgv ((1 : Nat) : Int) _ _ k₁ = (none, k₂) at hret
    rw [hret] at hpush
    dsimp only at hpush
    exact absurd hpush (by decide +kernel)
  | some esp =>
    exact ⟨k₁, esp, k₂, rfl, hret, (pushArgv_image inv_booted hcreate (.init _) hret).1⟩

end Crusadia.Kernel
