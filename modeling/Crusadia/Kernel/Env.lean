import Crusadia.Lib.Buf

/-!
# Crusadia.Kernel.Env

The **environment** of the shell, `env.c`: sixteen slots with a text `key=value` each.

A slot is taken before the length of the new entry is checked. When the entry is too
long, `env_set` fails and leaves the slot in use, with the text of whatever variable was
there before. Without such a call the environment is a finite map (`isMap_of_run`).
-/

namespace Crusadia.Env

/-- `ENV_MAX_VARS` -/
abbrev ENV_MAX_VARS : Nat := 16
/-- `ENV_ENTRY_MAX` -/
abbrev ENV_ENTRY_MAX : Nat := 128

/-- The character `=`. -/
abbrev eqSign : Byte := 0x3D

/-! ### env.c -/

/-- `s_env_used[i]` and the string in `s_env[i]`. -/
structure Slot where
  used : Bool
  text : CStr

/-- The variables of `env.c`. -/
structure Vars where
  slots : List Slot
  /-- `s_env_count` -/
  count : Int
  len : slots.length = ENV_MAX_VARS

/-- `strncmp(a, b, strlen(b)) == 0` -/
def startsWith (a b : CStr) : Bool := (List.range b.length).all fun i => a.at' i == b.at' i

/-- The test of `find_index`. -/
def Slot.holds (s : Slot) (key : CStr) : Bool :=
  s.used && startsWith s.text key && s.text.at' key.length == eqSign

/-- `find_index`; `none` is `-1`. -/
def findIndex (e : Vars) (key : CStr) : Option Nat := e.slots.findIdx? fun s => s.holds key

/-- The text `key=value`. -/
def entry (key value : CStr) : CStr where
  chars := key.chars ++ eqSign :: value.chars
  nz := by
    intro b hb
    rcases List.mem_append.mp hb with hb | hb
    · exact key.nz b hb
    · rcases List.mem_cons.mp hb with rfl | hb
      · decide
      · exact value.nz b hb

section

variable (e : Vars)

/-- Slot `i`. -/
def Vars.slotAt (i : Nat) : Slot := e.slots.getD i ⟨false, ⟨[], CStr.nz_nil⟩⟩

/-- Slot `i` with other contents. -/
def Vars.setSlot (i : Nat) (s : Slot) : Vars :=
  { e with slots := e.slots.set i s, len := by rw [List.length_set]; exact e.len }

/-- The second half of `env_set`: the entry is stored in slot `i`, if it fits. -/
def storeEntry (i : Nat) (key value : CStr) : Bool × Vars :=
  if key.length + 1 + value.length + 1 > ENV_ENTRY_MAX then (false, e)
  else (true, e.setSlot i ⟨(e.slotAt i).used, entry key value⟩)

/-- The loop of `env_set` for a free slot. -/
def findFree : Option Nat := e.slots.findIdx? fun s => !s.used

/-- `env_set`; `false` is `-1`. -/
def envSet (key value : CStr) : Bool × Vars :=
  match findIndex e key with
  | some i => storeEntry e i key value
  | none =>
    match findFree e with
    | none => (false, e)
    | some i =>
      let s := e.slotAt i
      storeEntry { e.setSlot i { s with used := true } with count := e.count + 1 } i key value

/-- `env_unset`; `false` is `-1`. -/
def envUnset (key : CStr) : Bool × Vars :=
  match findIndex e key with
  | none => (false, e)
  | some i =>
    let s := e.slotAt i
    (true, { e.setSlot i { s with used := false } with count := e.count - 1 })

/-- The string that starts at character `n` of `s`. -/
def dropChars (s : CStr) (n : Nat) : CStr :=
  ⟨s.chars.drop n, fun b hb => s.nz b (List.mem_of_mem_drop hb)⟩

/-- `env_get`; `none` is `NULL`. -/
def envGet (key : CStr) : Option CStr :=
  match findIndex e key with
  | none => none
  | some i => some (dropChars (e.slotAt i).text (key.length + 1))

/-- `env_count` -/
def envCount : Int := e.count

/-- The loop of `env_entry`. -/
def entryFrom (index : Int) : List Slot → Int → Option CStr
  | [], _ => none
  | s :: ss, seen =>
    if !s.used then entryFrom index ss seen
    else if seen = index then some s.text
    else entryFrom index ss (seen + 1)

/-- `env_entry`; `none` is `NULL`. -/
def envEntry (index : Int) : Option CStr := entryFrom index e.slots 0

/-- The string with these characters. -/
def str (s : List Char) : CStr :=
  ⟨(s.map fun c => BitVec.ofNat 8 c.toNat).filter (· ≠ 0),
    fun b hb => by simpa using (List.mem_filter.mp hb).2⟩

/-- `env_init` -/
def envInit : Vars :=
  let e : Vars :=
    { slots := e.slots.map fun s => { s with used := false }
      count := 0
      len := by rw [List.length_map]; exact e.len }
  let e := (envSet e (str ['P', 'A', 'T', 'H']) (str ['/'])).2
  let e := (envSet e (str ['H', 'O', 'M', 'E']) (str ['/'])).2
  let e := (envSet e (str ['S', 'H', 'E', 'L', 'L']) (str ['/', 'k', 'e', 'r', 'n', 'e', 'l'])).2
  (envSet e (str ['T', 'E', 'R', 'M']) (str ['c', 'r', 'u', 's', 'a', 'd', 'i', 'a'])).2

end

/-! ### The live entries -/

/-- The texts of the slots in use. -/
def live (ss : List Slot) : List CStr := (ss.filter (·.used)).map (·.text)

/-- The texts a single slot contributes. -/
def Slot.live (s : Slot) : List CStr := if s.used then [s.text] else []

theorem live_cons (s : Slot) (ss : List Slot) : live (s :: ss) = s.live ++ live ss := by
  cases h : s.used <;> simp [live, Slot.live, h]

theorem live_perm {ss ts : List Slot} (h : ss.Perm ts) : (live ss).Perm (live ts) :=
  (h.filter _).map _

variable {i : Nat}

theorem Vars.live_slotAt (e : Vars) (hi : i < e.slots.length) :
    (live e.slots).Perm ((e.slotAt i).live ++ live (e.slots.eraseIdx i)) := by
  rw [← live_cons, Vars.slotAt, List.getD_eq_getElem _ _ hi]
  exact live_perm (List.getElem_cons_eraseIdx_perm hi).symm

theorem live_set {ss : List Slot} (hi : i < ss.length) (s : Slot) :
    (live (ss.set i s)).Perm (s.live ++ live (ss.eraseIdx i)) := by
  rw [← live_cons]
  exact live_perm (List.set_perm_cons_eraseIdx hi s)

/-- `env_entry` counts through the live entries. -/
theorem entryFrom_eq (ss : List Slot) (seen : Int) (i : Nat) :
    entryFrom (seen + i) ss seen = (live ss)[i]? := by
  induction ss generalizing seen i with
  | nil => rfl
  | cons s ss ih =>
    rw [live_cons, entryFrom, Slot.live]
    cases h : s.used with
    | false => simpa using ih seen i
    | true =>
      cases i with
      | zero => simp
      | succ i =>
        have hi := ih (seen + 1) i
        rw [show seen + 1 + (i : Int) = seen + ((i : Int) + 1) by ring] at hi
        simp [hi, show ¬ seen = seen + ((i : Int) + 1) by omega]

theorem envEntry_eq (e : Vars) (i : Nat) : envEntry e i = (live e.slots)[i]? := by
  have := entryFrom_eq e.slots 0 i
  rwa [zero_add] at this

theorem map_envEntry_range (e : Vars) :
    ((List.range (live e.slots).length).map fun i : Nat => envEntry e i) =
      (live e.slots).map some := by
  apply List.ext_getElem?
  intro i
  rcases Nat.lt_or_ge i (live e.slots).length with hi | hi
  · simp [envEntry_eq, hi]
  · simp [hi]

/-! ### Keys -/

/-- A key without `=`. -/
def IsKey (k : CStr) : Prop := eqSign ∉ k.chars

instance (k : CStr) : Decidable (IsKey k) := inferInstanceAs (Decidable (eqSign ∉ k.chars))

theorem startsWith_iff {t k : CStr} : startsWith t k = true ↔ k.chars <+: t.chars := by
  rw [startsWith, List.all_eq_true]
  constructor
  · intro h
    have hat : ∀ i, i < k.length → t.at' i = k.at' i := fun i hi =>
      eq_of_beq (h i (List.mem_range.mpr hi))
    have hlen : k.length ≤ t.length := by
      by_contra hlt
      have hz := hat t.length (by omega)
      rw [CStr.at_of_ge (Nat.le_refl _)] at hz
      exact CStr.at_ne_zero (by omega) hz.symm
    rw [List.prefix_iff_eq_take]
    apply List.ext_getElem (by simpa [CStr.length] using hlen)
    intro i h1 h2
    have hi := hat i h1
    rw [CStr.at', CStr.at', List.getD_eq_getElem _ _ (Nat.lt_of_lt_of_le h1 hlen),
      List.getD_eq_getElem _ _ h1] at hi
    rw [List.getElem_take, hi]
  · rintro ⟨r, hr⟩ i hi
    have hi : i < k.chars.length := List.mem_range.mp hi
    rw [beq_iff_eq, CStr.at', CStr.at', ← hr, List.getD_append _ _ _ _ hi]

/-- The test of `find_index` finds the entries of the key. -/
theorem matches_iff {t k : CStr} :
    (startsWith t k && t.at' k.length == eqSign) = true ↔ ∃ v, t = entry k v := by
  rw [Bool.and_eq_true, startsWith_iff, beq_iff_eq]
  constructor
  · rintro ⟨⟨r, hr⟩, heq⟩
    rw [CStr.at', ← hr, CStr.length, List.getD_append_right _ _ _ _ (Nat.le_refl _),
      Nat.sub_self] at heq
    cases r with
    | nil => exact absurd heq (by decide)
    | cons b v =>
      have hb : b = eqSign := heq
      subst hb
      refine ⟨⟨v, fun c hc => t.nz c (hr ▸ by simp [hc])⟩, ?_⟩
      exact CStr.ext_chars hr.symm
  · rintro ⟨v, rfl⟩
    refine ⟨List.prefix_append _ _, ?_⟩
    rw [CStr.at', entry, CStr.length, List.getD_append_right _ _ _ _ (Nat.le_refl _),
      Nat.sub_self]
    rfl

theorem takeWhile_ne {a : Byte} {k : List Byte} (hk : a ∉ k) (v : List Byte) :
    (k ++ a :: v).takeWhile (· ≠ a) = k := by
  have hne : ∀ b ∈ k, decide (b ≠ a) = true :=
    fun b hb => decide_eq_true (ne_of_mem_of_not_mem hb hk)
  rw [List.takeWhile_append_of_pos hne]
  simp

theorem entry_inj {k k' v v' : CStr} (hk : IsKey k) (hk' : IsKey k')
    (h : entry k v = entry k' v') : k = k' ∧ v = v' := by
  have hc : k.chars ++ eqSign :: v.chars = k'.chars ++ eqSign :: v'.chars := congrArg CStr.chars h
  have hkk : k.chars = k'.chars := by rw [← takeWhile_ne hk v.chars, hc, takeWhile_ne hk']
  rw [hkk] at hc
  exact ⟨CStr.ext_chars hkk, CStr.ext_chars (List.cons.inj (List.append_cancel_left hc)).2⟩

theorem dropChars_entry (k v : CStr) : dropChars (entry k v) (k.length + 1) = v := by
  apply CStr.ext_chars
  show (k.chars ++ eqSign :: v.chars).drop (k.chars.length + 1) = v.chars
  rw [← List.drop_drop, List.drop_left, List.drop_one, List.tail_cons]

variable {k : CStr}

theorem Slot.holds_iff {s : Slot} :
    s.holds k = true ↔ s.used = true ∧ ∃ v, s.text = entry k v := by
  rw [Slot.holds, Bool.and_assoc, Bool.and_eq_true, matches_iff]

/-! ### Slots in use -/

theorem findIndex_some {e : Vars} (h : findIndex e k = some i) :
    i < e.slots.length ∧ (e.slotAt i).used = true ∧ ∃ v, (e.slotAt i).text = entry k v := by
  obtain ⟨hi, hs, -⟩ := List.findIdx?_eq_some_iff_getElem.mp h
  rw [Vars.slotAt, List.getD_eq_getElem _ _ hi]
  exact ⟨hi, Slot.holds_iff.mp hs⟩

/-- A free slot holds no binding. -/
theorem findFree_some {e : Vars} (h : findFree e = some i) :
    i < e.slots.length ∧ (live e.slots).Perm (live (e.slots.eraseIdx i)) := by
  obtain ⟨hi, hs, -⟩ := List.findIdx?_eq_some_iff_getElem.mp h
  have hp := e.live_slotAt hi
  rw [Vars.slotAt, List.getD_eq_getElem _ _ hi, Slot.live, if_neg (by simpa using hs)] at hp
  exact ⟨hi, hp⟩

variable {e : Vars} {v : CStr}

/-- Taking the slot that `find_index` returns out of use frees one entry. -/
theorem length_live_found (hf : findIndex e k = some i) :
    (live e.slots).length = (live (e.slots.eraseIdx i)).length + 1 := by
  obtain ⟨hi, hu, -⟩ := findIndex_some hf
  have hlen := (e.live_slotAt hi).length_eq
  rwa [Slot.live, if_pos hu, List.singleton_append, List.length_cons] at hlen

/-- A call that changes the environment. -/
inductive Call where
  | set (k v : CStr)
  | unset (k : CStr)

/-- The key of the call. -/
def Call.key : Call → CStr
  | .set k _ => k
  | .unset k => k

/-- What the call returns, and the environment after it. -/
def Call.run : Call → Vars → Bool × Vars
  | .set k v, e => Env.envSet e k v
  | .unset k, e => Env.envUnset e k

/-- `s_env_count` is the number of slots in use. -/
def Counted (e : Vars) : Prop := e.count = (live e.slots).length

/-- Storing a text in a slot keeps the number of slots in use. -/
theorem Counted.storeEntry (h : Counted e) (hi : i < e.slots.length) :
    Counted (storeEntry e i k v).2 := by
  unfold Env.storeEntry
  split
  · exact h
  · have hset := (live_set hi ⟨(e.slotAt i).used, entry k v⟩).length_eq
    have hslot := (e.live_slotAt hi).length_eq
    rw [List.length_append] at hset hslot
    have hone : (Slot.live ⟨(e.slotAt i).used, entry k v⟩).length = (e.slotAt i).live.length := by
      cases hu : (e.slotAt i).used <;> simp [Slot.live, hu]
    show e.count = (live (e.slots.set i _)).length
    rw [hset, hone, ← hslot]
    exact h

/-- A free slot that is taken counts, whatever text it has. -/
theorem Counted.claim (h : Counted e) (hf : findFree e = some i) :
    Counted { e.setSlot i { e.slotAt i with used := true } with count := e.count + 1 } := by
  obtain ⟨hi, hrest⟩ := findFree_some hf
  have hset := (live_set hi { e.slotAt i with used := true }).length_eq
  show e.count + 1 = (live (e.slots.set i _)).length
  rw [hset, List.length_append, ← hrest.length_eq, h]
  simp [Slot.live, Int.add_comm]

theorem Counted.run (h : Counted e) (c : Call) : Counted (c.run e).2 := by
  cases c with
  | set k v =>
    rcases hf : findIndex e k with - | i
    · rcases hfree : findFree e with - | i
      · simpa [Call.run, Env.envSet, hf, hfree] using h
      · simp only [Call.run, Env.envSet, hf, hfree]
        refine (h.claim hfree).storeEntry ?_
        show i < (e.slots.set i _).length
        rw [List.length_set]
        exact (findFree_some hfree).1
    · simp only [Call.run, Env.envSet, hf]
      exact h.storeEntry (findIndex_some hf).1
  | unset k =>
    rcases hf : findIndex e k with - | i
    · simpa [Call.run, Env.envUnset, hf] using h
    · simp only [Call.run, Env.envUnset, hf]
      have hset := (live_set (findIndex_some hf).1 { e.slotAt i with used := false }).length_eq
      show e.count - 1 = (live (e.slots.set i _)).length
      rw [hset, h, length_live_found hf]
      simp [Slot.live]

/-! ### The bindings -/

/-- A finite map of keys to values. -/
abbrev Bindings := CStr → Option CStr

/-- The list has every binding of `m`, once. -/
structure Lists (l : List (CStr × CStr)) (m : Bindings) : Prop where
  nodup : (l.map Prod.fst).Nodup
  key : ∀ p ∈ l, IsKey p.1
  mem : ∀ k v, m k = some v ↔ (k, v) ∈ l

variable {m : Bindings}

theorem Lists.perm {l l' : List (CStr × CStr)} (h : Lists l m) (hp : l.Perm l') :
    Lists l' m where
  nodup := (hp.map _).nodup_iff.mp h.nodup
  key p hp' := h.key p (hp.mem_iff.mpr hp')
  mem k v := (h.mem k v).trans hp.mem_iff

variable {l : List (CStr × CStr)}

theorem Lists.eq_none (h : Lists l m) (hk : k ∉ l.map Prod.fst) : m k = none := by
  rcases hm : m k with - | v
  · rfl
  · exact absurd (List.mem_map.mpr ⟨_, (h.mem k v).mp hm, rfl⟩) hk

theorem Lists.bind (h : Lists l m) (hk : IsKey k) (hn : k ∉ l.map Prod.fst) (v : CStr) :
    Lists ((k, v) :: l) (Function.update m k (some v)) where
  nodup := List.nodup_cons.mpr ⟨hn, h.nodup⟩
  key p hp := by
    rcases List.mem_cons.mp hp with rfl | hp
    · exact hk
    · exact h.key p hp
  mem k' v' := by
    by_cases hkk : k' = k
    · subst hkk
      have hl : (k', v') ∉ l := fun hm => hn (List.mem_map.mpr ⟨_, hm, rfl⟩)
      simp [hl, eq_comm]
    · simp [h.mem, hkk]

theorem Lists.unbind (h : Lists ((k, v) :: l) m) :
    k ∉ l.map Prod.fst ∧ Lists l (Function.update m k none) := by
  have hn := List.nodup_cons.mp h.nodup
  refine ⟨hn.1, ⟨hn.2, fun p hp => h.key p (List.mem_cons_of_mem _ hp), fun k' v' => ?_⟩⟩
  by_cases hkk : k' = k
  · subst hkk
    have hl : (k', v') ∉ l := fun hm => hn.1 (List.mem_map.mpr ⟨_, hm, rfl⟩)
    simp [hl]
  · rw [Function.update_of_ne hkk, h.mem, List.mem_cons]
    simp [hkk]

/-- The slots in use hold the bindings of `m`, one slot each. -/
structure Inv (e : Vars) (m : Bindings) : Prop where
  count : e.count = (live e.slots).length
  lists : ∃ l, (live e.slots).Perm (l.map fun p => entry p.1 p.2) ∧ Lists l m

/-- The environment is the finite map `m`: `env_get` returns its values, and `env_count` and
`env_entry` enumerate its bindings, each once. -/
structure IsMap (e : Vars) (m : Bindings) : Prop where
  get : ∀ k, IsKey k → envGet e k = m k
  enum : ∃ (n : Nat) (l : List (CStr × CStr)), envCount e = n ∧ Lists l m ∧
    ((List.range n).map fun i : Nat => envEntry e i).Perm (l.map fun p => some (entry p.1 p.2)) ∧
    ∀ i : Nat, n ≤ i → envEntry e i = none

theorem findIndex_none (h : findIndex e k = none) (v : CStr) :
    entry k v ∉ live e.slots := by
  intro hm
  obtain ⟨s, hs, ht⟩ := List.mem_map.mp hm
  have hh := List.findIdx?_eq_none_iff.mp h s (List.mem_filter.mp hs).1
  rw [Slot.holds_iff.mpr ⟨(List.mem_filter.mp hs).2, v, ht⟩] at hh
  cases hh

variable {e : Vars} {m : Bindings} {k v : CStr}

/-- The slot `find_index` returns holds the binding of the key, the others the rest. -/
theorem Inv.found (h : Inv e m) (hk : IsKey k) (hf : findIndex e k = some i) :
    ∃ v l, (e.slotAt i).text = entry k v ∧
      (live (e.slots.eraseIdx i)).Perm (l.map fun p => entry p.1 p.2) ∧ Lists ((k, v) :: l) m := by
  obtain ⟨hi, hu, v, hv⟩ := findIndex_some hf
  obtain ⟨l, hp, hl⟩ := h.lists
  have hs : (live e.slots).Perm (entry k v :: live (e.slots.eraseIdx i)) := by
    have := e.live_slotAt hi
    rwa [Slot.live, if_pos hu, hv] at this
  obtain ⟨⟨k', v'⟩, hkv, heq⟩ := List.mem_map.mp (hp.mem_iff.mp (hs.mem_iff.mpr List.mem_cons_self))
  obtain ⟨rfl, rfl⟩ := entry_inj (hl.key _ hkv) hk heq
  have hc := List.perm_cons_erase hkv
  refine ⟨v', l.erase (k', v'), hv, ?_, hl.perm hc⟩
  exact (hs.symm.trans (hp.trans (hc.map _))).cons_inv

/-- A key `find_index` does not find is not bound. -/
theorem Inv.notFound (h : Inv e m) (hf : findIndex e k = none) :
    ∃ l, (live e.slots).Perm (l.map fun p => entry p.1 p.2) ∧ Lists l m ∧
      k ∉ l.map Prod.fst := by
  obtain ⟨l, hp, hl⟩ := h.lists
  refine ⟨l, hp, hl, fun hk => ?_⟩
  obtain ⟨⟨_, v⟩, hkv, rfl⟩ := List.mem_map.mp hk
  exact findIndex_none hf v (hp.mem_iff.mpr (List.mem_map.mpr ⟨_, hkv, rfl⟩))

theorem Inv.get (h : Inv e m) (hk : IsKey k) : envGet e k = m k := by
  unfold envGet
  rcases hf : findIndex e k with - | i
  · obtain ⟨l, -, hl, hn⟩ := h.notFound hf
    exact (hl.eq_none hn).symm
  · obtain ⟨v, l, ht, -, hl⟩ := h.found hk hf
    simp only [ht, dropChars_entry]
    exact ((hl.mem k v).mpr List.mem_cons_self).symm

theorem Inv.isMap (h : Inv e m) : IsMap e m := by
  obtain ⟨l, hp, hl⟩ := h.lists
  refine ⟨fun k hk => h.get hk, (live e.slots).length, l, h.count, hl, ?_, fun i hi => ?_⟩
  · rw [map_envEntry_range]
    simpa [Function.comp_def] using hp.map some
  · rw [envEntry_eq]
    exact List.getElem?_eq_none hi

/-- What a call records in the map: nothing when it fails. -/
def Bindings.set (m : Bindings) (ok : Bool) (k : CStr) (v : Option CStr) : Bindings :=
  if ok then Function.update m k v else m

@[simp] theorem Bindings.set_false (m : Bindings) (k : CStr) (v : Option CStr) :
    m.set false k v = m := rfl

@[simp] theorem Bindings.set_true (m : Bindings) (k : CStr) (v : Option CStr) :
    m.set true k v = Function.update m k v := rfl

/-- The call does not take a free slot for an entry that does not fit in it. -/
def Fits (e : Vars) (k v : CStr) : Prop :=
  (envGet e k).isSome ∨ envCount e = ENV_MAX_VARS ∨ k.length + 1 + v.length + 1 ≤ ENV_ENTRY_MAX

/-- Slot `i` gets the text of a binding. -/
theorem lists_store {e' : Vars} (hi : i < e.slots.length)
    (hs : e'.slots = e.slots.set i ⟨true, entry k v⟩)
    (hp : (live (e.slots.eraseIdx i)).Perm (l.map fun p => entry p.1 p.2))
    (hl : Lists ((k, v) :: l) m) :
    ∃ l, (live e'.slots).Perm (l.map fun p => entry p.1 p.2) ∧ Lists l m :=
  ⟨_, hs ▸ (live_set hi ⟨true, entry k v⟩).trans (hp.cons _), hl⟩

theorem length_live_le (ss : List Slot) : (live ss).length ≤ ss.length := by
  rw [live, List.length_map]
  exact List.length_filter_le _ _

theorem Inv.envSet (h : Inv e m) (hk : IsKey k) (hfit : Fits e k v) :
    Inv (envSet e k v).2 (m.set (envSet e k v).1 k (some v)) := by
  refine ⟨Counted.run h.count (.set k v), ?_⟩
  rcases hf : findIndex e k with - | i
  · obtain ⟨l, hp, hl, hn⟩ := h.notFound hf
    rcases hfree : findFree e with - | i
    · simpa [Env.envSet, hf, hfree] using h.lists
    · obtain ⟨hi, hrest⟩ := findFree_some hfree
      have hlen : k.length + 1 + v.length + 1 ≤ ENV_ENTRY_MAX := by
        rcases hfit with hg | hc | hlen
        · exact absurd hg (by simp [envGet, hf])
        · -- a free slot is left, so there are less than sixteen bindings
          have h1 := hrest.length_eq
          have h2 := length_live_le (e.slots.eraseIdx i)
          have h3 := List.length_eraseIdx_of_lt hi
          have h4 : e.count = ENV_MAX_VARS := hc
          have h5 := h.count
          have h6 := e.len
          omega
        · exact hlen
      simp only [Env.envSet, hf, hfree, storeEntry, if_neg (Nat.not_lt.mpr hlen)]
      refine lists_store hi ?_ (hrest.symm.trans hp) (hl.bind hk hn v)
      simp [Vars.setSlot, Vars.slotAt, hi]
  · obtain ⟨w, l, ht, hp, hl⟩ := h.found hk hf
    obtain ⟨hi, hu, -⟩ := findIndex_some hf
    simp only [Env.envSet, hf, storeEntry]
    split
    · exact h.lists
    · obtain ⟨hn, hl'⟩ := hl.unbind
      have hb := hl'.bind hk hn v
      rw [Function.update_idem] at hb
      exact lists_store hi (by simp [Vars.setSlot, hu]) hp hb

theorem Inv.envUnset (h : Inv e m) (hk : IsKey k) :
    Inv (envUnset e k).2 (m.set (envUnset e k).1 k none) := by
  refine ⟨Counted.run h.count (.unset k), ?_⟩
  rcases hf : findIndex e k with - | i
  · simpa [Env.envUnset, hf] using h.lists
  · obtain ⟨w, l, ht, hp, hl⟩ := h.found hk hf
    simp only [Env.envUnset, hf]
    have hp' := live_set (findIndex_some hf).1 { e.slotAt i with used := false }
    exact ⟨l, hp'.trans hp, hl.unbind.2⟩

/-! ### Runs -/

/-- `env_set` of a short entry succeeds while there is room. -/
theorem Inv.envSet_ok (h : Inv e m) (hc : e.count < ENV_MAX_VARS)
    (hlen : k.length + 1 + v.length + 1 ≤ ENV_ENTRY_MAX) :
    (Env.envSet e k v).1 = true ∧ (Env.envSet e k v).2.count ≤ e.count + 1 := by
  rcases hf : findIndex e k with - | i
  · rcases hfree : findFree e with - | i
    · have hall : live e.slots = e.slots.map (·.text) := by
        rw [live, List.filter_eq_self.mpr]
        intro s hs
        simpa using List.findIdx?_eq_none_iff.mp hfree s hs
      have hcount := h.count
      have hl := e.len
      rw [hall, List.length_map] at hcount
      omega
    · simp [Env.envSet, hf, hfree, storeEntry, Nat.not_lt.mpr hlen, Vars.setSlot]
  · simp [Env.envSet, hf, storeEntry, Nat.not_lt.mpr hlen, Vars.setSlot]

/-- The value a successful call leaves bound to its key. -/
def Call.value : Call → Option CStr
  | .set _ v => some v
  | .unset _ => none

/-- The condition on the call. -/
def Call.Safe (e : Vars) : Call → Prop
  | .set k v => Fits e k v
  | .unset _ => True

/-- The bindings that `env_init` makes. -/
def initBindings : Bindings :=
  Function.update (Function.update (Function.update (Function.update (fun _ => none)
    (str ['P', 'A', 'T', 'H']) (some (str ['/'])))
    (str ['H', 'O', 'M', 'E']) (some (str ['/'])))
    (str ['S', 'H', 'E', 'L', 'L']) (some (str ['/', 'k', 'e', 'r', 'n', 'e', 'l'])))
    (str ['T', 'E', 'R', 'M']) (some (str ['c', 'r', 'u', 's', 'a', 'd', 'i', 'a']))

/-- The environments that `env_init` and calls on keys without `=` produce, with the bindings the
successful calls made; every call meets `C`. -/
inductive Run (C : Vars → Call → Prop) : Vars → Bindings → Prop where
  | init (e : Vars) : Run C (envInit e) initBindings
  | call {e : Vars} {m : Bindings} (h : Run C e m) (c : Call) (hk : IsKey c.key) (hc : C e c) :
      Run C (c.run e).2 (m.set (c.run e).1 c.key c.value)

/-- One of the calls of `env_init`. -/
theorem Inv.init_step {n : Nat} (h : Inv e m ∧ e.count ≤ n) (hk : IsKey k) (hn : n < ENV_MAX_VARS)
    (hlen : k.length + 1 + v.length + 1 ≤ ENV_ENTRY_MAX) :
    Inv (Env.envSet e k v).2 (Function.update m k (some v)) ∧
      (Env.envSet e k v).2.count ≤ (n + 1 : Nat) := by
  obtain ⟨hok, hc⟩ := h.1.envSet_ok (by omega) hlen
  have hi := h.1.envSet hk (v := v) (.inr (.inr hlen))
  rw [hok] at hi
  exact ⟨hi, by push_cast; omega⟩

theorem inv_envInit (e : Vars) : Inv (envInit e) initBindings := by
  have hlive : live (e.slots.map fun s => { s with used := false }) = [] := by
    simp [live, List.filter_map, Function.comp_def]
  have h0 : Inv ⟨e.slots.map fun s => { s with used := false }, 0, by simp [e.len]⟩ fun _ => none :=
    ⟨by simp [hlive], [], by simp [hlive], by simp, by simp, by simp⟩
  have h1 := Inv.init_step (n := 0) ⟨h0, le_rfl⟩ (k := str ['P', 'A', 'T', 'H']) (v := str ['/'])
    (by decide) (by decide) (by decide)
  have h2 := Inv.init_step h1 (k := str ['H', 'O', 'M', 'E']) (v := str ['/'])
    (by decide) (by decide) (by decide)
  have h3 := Inv.init_step h2 (k := str ['S', 'H', 'E', 'L', 'L'])
    (v := str ['/', 'k', 'e', 'r', 'n', 'e', 'l']) (by decide) (by decide) (by decide)
  exact (Inv.init_step h3 (k := str ['T', 'E', 'R', 'M'])
    (v := str ['c', 'r', 'u', 's', 'a', 'd', 'i', 'a']) (by decide) (by decide) (by decide)).1

theorem Run.inv (h : Run Call.Safe e m) : Inv e m := by
  induction h with
  | init e => exact inv_envInit e
  | call _ c hk hc ih =>
    cases c with
    | set k v => exact ih.envSet hk hc
    | unset k => exact ih.envUnset hk

/-- As long as no call takes a free slot for an entry that does not fit, the environment is the
finite map that the successful calls made. -/
theorem isMap_of_run (h : Run Call.Safe e m) : IsMap e m := h.inv.isMap

/-- The variables before the first call of `env_init`. -/
def zeroed : Vars := ⟨List.replicate 16 ⟨false, ⟨[], CStr.nz_nil⟩⟩, 0, rfl⟩

theorem isMap_of_run_setUnset :
    IsMap (Call.run (.unset (str ['A'])) (Call.run (.set (str ['A']) (str ['1']))
      (envInit zeroed)).2).2 initBindings := by
  have h := isMap_of_run (((Run.init (C := Call.Safe) zeroed).call (.set (str ['A']) (str ['1']))
    (by decide) (.inr (.inr (by decide)))).call (.unset (str ['A'])) (by decide) trivial)
  have hm : ((initBindings.set true (str ['A']) (some (str ['1']))).set true (str ['A']) none) =
      initBindings := by
    rw [Bindings.set_true, Bindings.set_true, Function.update_idem]
    exact Function.update_eq_self_iff.mpr (by decide)
  rw [← hm]
  exact h

/-- `A` is set and unset, then `B` is given a value that does not fit: the call fails and `A` has
its old value again. -/
theorem exists_run_not_isMap :
    ∃ e m, Run (fun _ _ => True) e m ∧ ¬ IsMap e m ∧ m (str ['A']) = none ∧
      envGet e (str ['A']) = some (str ['1']) := by
  have h := (((Run.init (C := fun _ _ => True) zeroed).call (.set (str ['A']) (str ['1']))
    (by decide) trivial).call (.unset (str ['A'])) (by decide) trivial).call
    (.set (str ['B']) (str (List.replicate 126 'x'))) (by decide) trivial
  refine ⟨_, _, h, fun hm => ?_, by decide +kernel, by decide +kernel⟩
  have hget := hm.get (str ['A']) (by decide)
  revert hget
  decide +kernel

/-! ### The entries that `env_entry` lists -/

/-- The environments of the kernel: the one of the zeroed variables, and what `env_init` and any
calls make of them. -/
inductive Reached : Vars → Prop where
  | zeroed : Reached zeroed
  | init (e : Vars) : Reached (envInit e)
  | call {e : Vars} (h : Reached e) (c : Call) : Reached (c.run e).2

theorem Reached.counted (h : Reached e) : Counted e := by
  induction h with
  | zeroed => rfl
  | init e => exact (inv_envInit e).count
  | call _ c ih => exact ih.run c

/-- The entries `env_entry(0)`, `env_entry(1)`, … up to `env_count()`. -/
def entries (e : Vars) : List CStr :=
  (List.range (envCount e).toNat).filterMap fun i : Nat => envEntry e i

theorem Reached.range_envEntry (h : Reached e) :
    ((List.range (envCount e).toNat).map fun i : Nat => envEntry e i) =
      (live e.slots).map some := by
  rw [envCount, h.counted, Int.toNat_natCast, map_envEntry_range]

theorem Reached.entries_eq (h : Reached e) : entries e = live e.slots := by
  have hmap := congrArg (List.filterMap id) h.range_envEntry
  simpa [List.filterMap_map, Function.comp_def, entries] using hmap

/-- `env_entry` returns no `NULL` below `env_count()`. -/
theorem Reached.listed (h : Reached e) :
    ((List.range (envCount e).toNat).map fun i : Nat => envEntry e i) = (entries e).map some := by
  rw [h.entries_eq, h.range_envEntry]

theorem Reached.length_entries (h : Reached e) : (entries e).length ≤ ENV_MAX_VARS := by
  rw [h.entries_eq, ← e.len]
  exact length_live_le _

end Crusadia.Env
