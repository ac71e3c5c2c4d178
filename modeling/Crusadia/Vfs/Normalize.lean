import Crusadia.Vfs.Model

/-!
# Crusadia.Vfs.Normalize

`normalize` **on its buffer**. The rest of the development uses `normalize` of
`Crusadia.Vfs.Model`, which keeps a list of components. The code has no such list: it has the
text written so far and its length, and for `..` it looks backwards for a slash. `normalizeBuf`
is that code, and `normalizeBuf_eq` says that the two agree for every input.

What the list of components is for is `resolve`, which knows no limits: one component after
the other is pushed, dropped or makes the last one go. `normalize` computes it unless one of
its three limits is in the way (`normalizeBuf_spec`).
-/

namespace Crusadia

/-! ### Components -/

/-- The parts of a path between slashes, the empty ones left out. -/
def comps (l : List Byte) : List (List Byte) := (l.splitOnP (· == slash)).filter (· ≠ [])

/-- What may stand between two slashes. -/
def IsComp (c : List Byte) : Prop := c ≠ [] ∧ slash ∉ c

@[simp] theorem comps_nil : comps [] = [] := by
  rw [comps, List.splitOnP_nil]
  rfl

theorem comps_append_slash (xs ys : List Byte) :
    comps (xs ++ slash :: ys) = comps xs ++ comps ys := by
  rw [comps, List.splitOnP_append_cons _ _ (by simp), List.filter_append, comps, comps]

@[simp] theorem comps_slash_cons (ys : List Byte) : comps (slash :: ys) = comps ys := by
  simpa using comps_append_slash [] ys

variable {c : List Byte}

theorem comps_single (h : IsComp c) : comps c = [c] := by
  have hsplit : c.splitOnP (· == slash) = [c] :=
    List.splitOnP_eq_singleton fun b hb => by
      simp only [beq_eq_false_iff_ne, ne_eq]
      exact fun heq => h.2 (heq ▸ hb)
  rw [comps, hsplit, List.filter_cons_of_pos (by simpa using h.1), List.filter_nil]

/-- A component and what follows it. -/
theorem comps_append {r : List Byte} (h : IsComp c) (hr : r = [] ∨ r.head? = some slash) :
    comps (c ++ r) = c :: comps r := by
  rcases hr with rfl | hr
  · simp [comps_single h]
  · obtain ⟨r', rfl⟩ := List.head?_eq_some_iff.mp hr
    rw [comps_append_slash, comps_single h, comps_slash_cons, List.singleton_append]

/-- A path is a text without a slash, or one up to its first slash and the rest. -/
theorem first_slash (l : List Byte) :
    ∃ c r, l = c ++ r ∧ slash ∉ c ∧ (r = [] ∨ r.head? = some slash) := by
  by_cases h : slash ∈ l
  · obtain ⟨c, r, rfl, hc⟩ := List.eq_append_cons_of_mem h
    exact ⟨c, slash :: r, rfl, hc, Or.inr rfl⟩
  · exact ⟨l, [], (List.append_nil l).symm, h, Or.inl rfl⟩

theorem isComp_of_mem_comps {l : List Byte} (h : c ∈ comps l) : IsComp c ∧ c ⊆ l := by
  -- by the length of the path, from its first slash on
  induction hn : l.length using Nat.strong_induction_on generalizing l with
  | _ n ih =>
    obtain ⟨d, r, rfl, hd, hr⟩ := first_slash l
    have hrest : c ∈ comps r → IsComp c ∧ c ⊆ d ++ r := by
      rcases hr with rfl | hr
      · simp
      · obtain ⟨r', rfl⟩ := List.head?_eq_some_iff.mp hr
        rw [comps_slash_cons]
        intro h
        obtain ⟨hc, hsub⟩ := ih r'.length (by simp [← hn]; omega) h rfl
        exact ⟨hc, fun b hb => by simp [hsub hb]⟩
    by_cases hd0 : d = []
    · exact hrest (by simpa [hd0] using h)
    · rw [comps_append ⟨hd0, hd⟩ hr, List.mem_cons] at h
      rcases h with rfl | h
      · exact ⟨⟨hd0, hd⟩, List.subset_append_left c r⟩
      · exact hrest h

/-! ### `absPath` -/

/-- What stands before the slash of a component that is pushed on the others. -/
def basePath (kept : List (List Byte)) : List Byte := kept.flatMap fun c => slash :: c

theorem absPath_eq (kept : List (List Byte)) :
    absPath kept = if kept = [] then [slash] else basePath kept := rfl

theorem head?_absPath (kept : List (List Byte)) : (absPath kept).head? = some slash := by
  rw [absPath_eq]
  split
  · rfl
  · rename_i h0
    obtain ⟨c, cs, rfl⟩ := List.exists_cons_of_ne_nil h0
    simp [basePath]

theorem basePath_append (ks : List (List Byte)) (c : List Byte) :
    basePath (ks ++ [c]) = basePath ks ++ slash :: c := by
  simp [basePath]

theorem absPath_append (ks : List (List Byte)) (c : List Byte) :
    absPath (ks ++ [c]) = basePath ks ++ slash :: c := by
  rw [absPath_eq, if_neg (by simp), basePath_append]

variable {kept ks cs : List (List Byte)}

theorem comps_basePath (h : ∀ c ∈ kept, IsComp c) :
    comps (basePath kept) = kept := by
  induction kept with
  | nil => simp [basePath]
  | cons c ks ih =>
    have hks : ∀ d ∈ ks, IsComp d := fun d hd => h d (List.mem_cons_of_mem c hd)
    have hhead : basePath ks = [] ∨ (basePath ks).head? = some slash := by
      cases ks <;> simp [basePath]
    have hcons : basePath (c :: ks) = slash :: (c ++ basePath ks) := by simp [basePath]
    rw [hcons, comps_slash_cons, comps_append (h c List.mem_cons_self) hhead, ih hks]

/-- The components of the path are the ones that were put in. -/
theorem comps_absPath (h : ∀ c ∈ kept, IsComp c) :
    comps (absPath kept) = kept := by
  rw [absPath_eq]
  split
  · rename_i h0
    simp [h0]
  · exact comps_basePath h

theorem absPath_ne_zero (h : ∀ c ∈ kept, (0 : Byte) ∉ c) :
    ∀ b ∈ absPath kept, b ≠ 0 := by
  intro b hb
  rw [absPath_eq] at hb
  split at hb
  · rw [List.mem_singleton.mp hb]
    decide
  · obtain ⟨c, hc, hb⟩ := List.mem_flatMap.mp hb
    rcases List.mem_cons.mp hb with rfl | hb
    · decide
    · exact fun h0 => h c hc (h0 ▸ hb)

/-! ### The code -/

namespace Normalize

/-- `while (*p == '/') p++` -/
def skipSlashes : List Byte → List Byte
  | [] => []
  | b :: p => if b = slash then skipSlashes p else b :: p

/-- `while (*p && *p != '/')`: the characters go to `comp`; `none` is `VFS_E_PATH`. -/
def readComp : List Byte → List Byte → Option (List Byte × List Byte)
  | [], comp => some (comp, [])
  | b :: p, comp =>
    if b = slash then some (comp, b :: p)
    else if comp.length ≥ vfsPathMax - 1 then none
    else readComp p (comp ++ [b])

/-- `while (len > 1 && out[len - 1] != '/') len--` -/
def backToSlash (out : Buf vfsPathMax) : Nat → Nat
  | 0 => 0
  | 1 => 1
  | len + 2 => if out.get (len + 1) = slash then len + 2 else backToSlash out (len + 1)

/-- What the loop does with a component. -/
def putComp (out : Buf vfsPathMax) (len : Nat) (comp : List Byte) :
    Option (Buf vfsPathMax × Nat) :=
  if comp = [dot] then some (out, len) else
  if comp = [dot, dot] then
    if len > 1 then
      let len := backToSlash out len
      let len := if len > 1 then len - 1 else len
      some (out.put8 len 0, len)
    else some (out, len)
  else
  let n := comp.length
  if len + n + 2 ≥ vfsPathMax then none else
  let (out, len) := if len > 1 then (out.put8 len slash, len + 1) else (out, len)
  let out := out.splice len n fun i => comp.getD i 0
  some (out.put8 (len + n) 0, len + n)

/-- `while (*p)`; every round takes a character at least. -/
def loop : Nat → List Byte → Buf vfsPathMax → Nat → Option (Buf vfsPathMax)
  | 0, _, out, _ => some out
  | rounds + 1, p, out, len =>
    if p = [] then some out else
    let p := skipSlashes p
    if p = [] then some out else do
      let (comp, p) ← readComp p []
      let (out, len) ← putComp out len comp
      loop rounds p out len

end Normalize

/-- `normalize(in, out)` with the current directory `cwd`; `none` is `VFS_E_PATH`. -/
def normalizeBuf (cwd input : CStr) (out : Buf vfsPathMax) : Option (Buf vfsPathMax) :=
  let inp := if input.chars = [] then [dot] else input.chars
  let run (full : List Byte) : Option (Buf vfsPathMax) :=
    Normalize.loop full.length full ((out.put8 0 slash).put8 1 0) 1
  if inp.head? = some slash then
    if inp.length ≥ 2 * vfsPathMax then none else run inp
  else
    if cwd.length + inp.length + 2 ≥ 2 * vfsPathMax then none
    else run (cwd.chars ++ slash :: inp)

/-- The path in the buffer. -/
def pathIn (out : Buf vfsPathMax) : CStr := CStr.ofField vfsPathMax out.get

namespace Normalize

/-! ### The buffer holds the components -/

theorem comps_skipSlashes (p : List Byte) : comps (skipSlashes p) = comps p := by
  induction p with
  | nil => rfl
  | cons b p ih =>
    rw [skipSlashes]
    split
    · rename_i h
      rw [h, ih, comps_slash_cons]
    · rfl

theorem head_skipSlashes (p : List Byte) : (skipSlashes p).head? ≠ some slash := by
  induction p with
  | nil => simp [skipSlashes]
  | cons b p ih =>
    rw [skipSlashes]
    split
    · exact ih
    · rename_i h
      simpa using h

theorem skipSlashes_suffix (p : List Byte) : skipSlashes p <:+ p := by
  induction p with
  | nil => exact List.suffix_rfl
  | cons b p ih =>
    rw [skipSlashes]
    split
    · exact ih.trans (List.suffix_cons b p)
    · exact List.suffix_rfl

theorem readComp_eq {r : List Byte} (hc : slash ∉ c) (hr : r = [] ∨ r.head? = some slash)
    {acc : List Byte} (hacc : acc.length < vfsPathMax) :
    readComp (c ++ r) acc =
      if (acc ++ c).length ≥ vfsPathMax then none else some (acc ++ c, r) := by
  have hmax : vfsPathMax = 128 := rfl
  induction c generalizing acc with
  | nil =>
    rw [List.nil_append, List.append_nil, if_neg (by omega)]
    rcases hr with rfl | hr
    · rfl
    · obtain ⟨r', rfl⟩ := List.head?_eq_some_iff.mp hr
      rw [readComp, if_pos rfl]
  | cons b c ih =>
    simp only [List.mem_cons, not_or] at hc
    rw [List.cons_append, readComp, if_neg (Ne.symm hc.1)]
    split
    · rw [if_pos (by simp; omega)]
    · rw [ih hc.2 (by simp; omega), List.append_assoc, List.singleton_append]

/-- The text of the components is in the buffer, with a NUL behind it. -/
structure Holds (out : Buf vfsPathMax) (len : Nat) (kept : List (List Byte)) : Prop where
  len_eq : len = (absPath kept).length
  lt : len < vfsPathMax
  text : ∀ i, i < len → out.get i = (absPath kept).getD i 0
  nul : out.get len = 0
  comps : ∀ c ∈ kept, IsComp c ∧ (0 : Byte) ∉ c

variable {out : Buf vfsPathMax} {len : Nat} {kept : List (List Byte)} {comp : List Byte}

theorem Holds.pathIn (h : Holds out len kept) : pathIn out = CStr.ofBytes (absPath kept) := by
  have hchars : (CStr.ofBytes (absPath kept)).chars = absPath kept :=
    CStr.ofBytes_chars (absPath_ne_zero fun c hc => (h.comps c hc).2)
  have hlen : (CStr.ofBytes (absPath kept)).length = len := by
    rw [CStr.length, hchars, h.len_eq]
  rw [Crusadia.pathIn, CStr.ofField_eq_iff (by rw [hlen]; exact Nat.le_of_lt h.lt), hlen]
  refine ⟨fun j hj => ?_, fun _ => h.nul⟩
  rw [CStr.at', hchars, h.text j hj]

theorem Holds.start (out : Buf vfsPathMax) : Holds ((out.put8 0 slash).put8 1 0) 1 [] where
  len_eq := rfl
  lt := by decide
  text i hi := by
    obtain rfl : i = 0 := by omega
    rw [Buf.get_put8_out (by decide), Buf.get_put8_same _ (by decide)]
    rfl
  nul := Buf.get_put8_same _ (by decide)
  comps := by simp

/-- The scan stops behind the last slash. -/
theorem backToSlash_eq {b : Nat} (hslash : out.get b = slash)
    (hother : ∀ i, b < i → i < len → out.get i ≠ slash) (hlt : b < len) :
    backToSlash out len = b + 1 := by
  induction len using backToSlash.induct out with
  | case1 => omega
  | case2 =>
    obtain rfl : b = 0 := by omega
    rfl
  | case3 len h =>
    rw [backToSlash, if_pos h]
    by_contra hne
    exact hother (len + 1) (by omega) (by omega) h
  | case4 len h ih =>
    rw [backToSlash, if_neg h]
    have hne : b ≠ len + 1 := fun heq => h (heq ▸ hslash)
    exact ih (fun i hi hl => hother i hi (by omega)) (by omega)

/-- The text is cut: the components in front of it stay. -/
theorem Holds.cut {len' : Nat} (h : Holds out len kept)
    (hks : ∀ c ∈ ks, c ∈ kept) (hlen : len' = (absPath ks).length)
    (hpre : absPath ks <+: absPath kept) : Holds (out.put8 len' 0) len' ks where
  len_eq := hlen
  lt := by
    rw [hlen]
    exact Nat.lt_of_le_of_lt (hpre.length_le.trans_eq h.len_eq.symm) h.lt
  text i hi := by
    have hle := hpre.length_le
    have hi' : i < (absPath ks).length := hlen ▸ hi
    rw [Buf.get_put8_out (by omega), h.text i (by rw [h.len_eq]; omega),
      List.getD_eq_getElem _ _ hi', List.getD_eq_getElem _ _ (by omega), hpre.getElem hi']
  nul := Buf.get_put8_same _ (by
    rw [hlen]
    exact Nat.lt_of_le_of_lt (hpre.length_le.trans_eq h.len_eq.symm) h.lt)
  comps c hc := h.comps c (hks c hc)

/-- `..` on a text with components. -/
theorem Holds.pop (h : Holds out len (ks ++ [c])) :
    ∃ r, putComp out len [dot, dot] = some r ∧ Holds r.1 r.2 ks := by
  obtain ⟨⟨hc0, hcs⟩, -⟩ := h.comps c (by simp)
  have hpath := absPath_append ks c
  have hlen : len = (basePath ks).length + 1 + c.length := by
    rw [h.len_eq, hpath, List.length_append, List.length_cons]
    omega
  have hcpos : 0 < c.length := List.length_pos_iff.mpr hc0
  -- the last slash is the one before `c`
  have hback : backToSlash out len = (basePath ks).length + 1 := by
    refine backToSlash_eq ?_ (fun i hi hl => ?_) (by omega)
    · rw [h.text _ (by omega), hpath, List.getD_append_right _ _ _ _ (Nat.le_refl _), Nat.sub_self]
      rfl
    · obtain ⟨j, rfl⟩ : ∃ j, i = (basePath ks).length + (j + 1) :=
        ⟨i - (basePath ks).length - 1, by omega⟩
      rw [h.text _ hl, hpath, List.getD_append_right _ _ _ _ (by omega), Nat.add_sub_cancel_left,
        List.getD_cons_succ, List.getD_eq_getElem _ _ (by omega)]
      exact fun heq => hcs (heq ▸ List.getElem_mem _)
  have hks : ∀ d ∈ ks, d ∈ ks ++ [c] := fun d hd => List.mem_append_left _ hd
  rw [putComp, if_neg (by decide), if_pos rfl, if_pos (by omega)]
  dsimp only
  rw [hback]
  refine ⟨_, rfl, ?_⟩
  by_cases h0 : ks = []
  · subst h0
    exact h.cut hks rfl ⟨c, by rw [hpath]; rfl⟩
  · have habs : absPath ks = basePath ks := by rw [absPath_eq, if_neg h0]
    have hpos : 0 < (basePath ks).length := by
      cases ks with
      | nil => exact absurd rfl h0
      | cons d ds => simp [basePath]
    dsimp only
    rw [if_pos (by omega), Nat.add_sub_cancel]
    exact h.cut hks (by rw [habs]) ⟨slash :: c, by rw [habs, hpath]⟩

section

variable (h : Holds out len kept)
include h

/-- The slash that goes in front of a component, which the root has already. -/
theorem Holds.slashed (hlen : len + 1 < vfsPathMax) : let r :=
  if len > 1 then (out.put8 len slash, len + 1) else (out, len)
    r.2 = (basePath kept).length + 1 ∧ r.2 ≤ len + 1 ∧
      ∀ i, i < r.2 → r.1.get i = (basePath kept ++ [slash]).getD i 0 := by
  by_cases hk : kept = []
  · subst hk
    have hone : len = 1 := h.len_eq
    dsimp only
    rw [if_neg (by omega)]
    exact ⟨hone, Nat.le_succ _, fun i hi => h.text i hi⟩
  · have habs : absPath kept = basePath kept := by rw [absPath_eq, if_neg hk]
    have hbase : len = (basePath kept).length := habs ▸ h.len_eq
    have hpos : 1 < len := by
      cases kept with
      | nil => exact absurd rfl hk
      | cons d ds =>
        have := List.length_pos_iff.mpr (h.comps d List.mem_cons_self).1.1
        rw [hbase]
        simp [basePath]
        omega
    dsimp only
    rw [if_pos hpos]
    refine ⟨by rw [hbase], Nat.le_refl _, fun i hi => ?_⟩
    dsimp only at hi ⊢
    by_cases hi' : i = len
    · rw [hi', Buf.get_put8_same _ (by omega), hbase,
        List.getD_append_right _ _ _ _ (Nat.le_refl _), Nat.sub_self]
      rfl
    · rw [Buf.get_put8_out hi', h.text i (by omega), habs, List.getD_append _ _ _ _ (by omega)]

/-- Another component fits. -/
theorem Holds.push (hc : IsComp comp) (h0 : (0 : Byte) ∉ comp)
    (hfit : len + comp.length + 2 < vfsPathMax) :
      let r := if len > 1 then (out.put8 len slash, len + 1) else (out, len)
    Holds ((r.1.splice r.2 comp.length fun i => comp.getD i 0).put8 (r.2 + comp.length) 0)
      (r.2 + comp.length) (kept ++ [comp]) := by
  intro r
  obtain ⟨hbase, hle, htext⟩ : r.2 = (basePath kept).length + 1 ∧ r.2 ≤ len + 1 ∧
      ∀ i, i < r.2 → r.1.get i = (basePath kept ++ [slash]).getD i 0 := h.slashed (by omega)
  have hpath : absPath (kept ++ [comp]) = (basePath kept ++ [slash]) ++ comp := by
    simp [absPath_append]
  have hfront : (basePath kept ++ [slash]).length = r.2 := by simp [hbase]
  refine ⟨by rw [hpath, List.length_append, hfront], by omega, fun i hi => ?_,
    Buf.get_put8_same _ (by omega), fun c hcm => ?_⟩
  · rw [Buf.get_put8_out (by omega), hpath]
    by_cases hi' : i < r.2
    · rw [Buf.get_splice_out (Or.inl hi'), htext i hi',
        List.getD_append (basePath kept ++ [slash]) comp _ _ (by omega)]
    · rw [Buf.get_splice_in (by omega) (by omega) hi, List.getD_append_right _ _ _ _ (by omega),
        hfront]
  · rcases List.mem_append.mp hcm with hcm | hcm
    · exact h.comps c hcm
    · rw [List.mem_singleton.mp hcm]
      exact ⟨hc, h0⟩

/-- One component: the buffer does what `normalizeComp` does with the list. -/
theorem Holds.putComp (hc : IsComp comp) (h0 : (0 : Byte) ∉ comp)
    (hlen : comp.length < vfsPathMax) :
    (Normalize.putComp out len comp = none ∧ normalizeComp kept comp = none) ∨
      ∃ r kept', Normalize.putComp out len comp = some r ∧ normalizeComp kept comp = some kept' ∧
        Holds r.1 r.2 kept' := by
  rw [normalizeComp, if_neg (by omega), ← h.len_eq]
  by_cases hd : comp = [dot]
  · rw [if_pos hd, Normalize.putComp, if_pos hd]
    exact Or.inr ⟨_, _, rfl, rfl, h⟩
  rw [if_neg hd]
  by_cases hdd : comp = [dot, dot]
  · subst hdd
    rw [if_pos rfl]
    right
    rcases List.eq_nil_or_concat' kept with rfl | ⟨ks, c, rfl⟩
    · -- at the root there is nothing to drop
      have hone : ¬ len > 1 := by
        rw [show len = 1 from h.len_eq]
        decide
      rw [Normalize.putComp, if_neg hd, if_pos rfl, if_neg hone]
      exact ⟨_, _, rfl, rfl, h⟩
    · obtain ⟨r, hr, hks⟩ := h.pop
      exact ⟨r, _, hr, rfl, by simpa using hks⟩
  rw [if_neg hdd, Normalize.putComp, if_neg hd, if_neg hdd]
  dsimp only
  by_cases hfit : len + comp.length + 2 ≥ vfsPathMax
  · rw [if_pos hfit, if_pos hfit]
    exact Or.inl ⟨rfl, rfl⟩
  · rw [if_neg hfit, if_neg hfit]
    exact Or.inr ⟨_, _, rfl, rfl, h.push hc h0 (by omega)⟩

/-- The rest of the loop, from any text. -/
theorem loop_eq {rounds : Nat} {p : List Byte} (hp : ∀ b ∈ p, b ≠ 0) (hrounds : p.length ≤ rounds) :
    (loop rounds p out len).map pathIn =
      ((comps p).foldlM normalizeComp kept).map fun kept => CStr.ofBytes (absPath kept) := by
  induction rounds generalizing p out len kept with
  | zero =>
    obtain rfl : p = [] := List.length_eq_zero_iff.mp (by omega)
    simp [loop, h.pathIn]
  | succ rounds ih =>
    have hsuf := skipSlashes_suffix p
    have hhead := head_skipSlashes p
    rw [← comps_skipSlashes p, loop]
    generalize skipSlashes p = q at hsuf hhead
    by_cases hq : q = []
    · subst hq
      split
      · simp [h.pathIn]
      · simp [h.pathIn]
    · have hp0 : p ≠ [] := fun h0 => hq (List.eq_nil_of_suffix_nil (h0 ▸ hsuf))
      rw [if_neg hp0]
      dsimp only
      rw [if_neg hq]
      obtain ⟨c, r, rfl, hc, hr⟩ := first_slash q
      have hcomp : IsComp c := by
        refine ⟨fun h0 => ?_, hc⟩
        subst h0
        rcases hr with rfl | hr
        · exact hq rfl
        · exact hhead hr
      have hmem : ∀ b ∈ c ++ r, b ≠ 0 := fun b hb => hp b (hsuf.subset hb)
      have hshort : r.length ≤ rounds := by
        have h1 := hsuf.length_le
        have h2 := List.length_pos_iff.mpr hcomp.1
        rw [List.length_append] at h1
        omega
      rw [comps_append hcomp hr, List.foldlM_cons, readComp_eq hc hr (by decide), List.nil_append]
      by_cases hlen : c.length ≥ vfsPathMax
      · rw [if_pos hlen, normalizeComp, if_pos hlen]
        rfl
      rw [if_neg hlen]
      have h0 : (0 : Byte) ∉ c := fun h0 => hmem 0 (List.mem_append_left r h0) rfl
      rcases h.putComp hcomp h0 (by omega) with ⟨hbuf, hlist⟩ | ⟨s, kept', hbuf, hlist, hs⟩
      · rw [hlist]
        simp [hbuf]
      · rw [hlist]
        simp only [Option.bind_eq_bind, Option.bind_some, hbuf]
        exact ih hs (fun b hb => hmem b (List.mem_append_right c hb)) hshort

end

end Normalize

section

variable (cwd input : CStr)

/-- The path that is resolved: the input, or the current directory and the input. -/
def combined : List Byte :=
  let inp := if input.chars = [] then [dot] else input.chars
  if inp.head? = some slash then inp else cwd.chars ++ slash :: inp

theorem combined_ne_zero : ∀ b ∈ combined cwd input, b ≠ 0 := by
  have hin : ∀ b ∈ (if input.chars = [] then [dot] else input.chars), b ≠ 0 := by
    split
    · decide
    · exact input.nz
  unfold combined
  dsimp only
  generalize (if input.chars = [] then [dot] else input.chars) = inp at hin
  split
  · exact hin
  · intro b hb
    rcases List.mem_append.mp hb with hb | hb
    · exact cwd.nz b hb
    · rcases List.mem_cons.mp hb with rfl | hb
      · decide
      · exact hin b hb

/-- The model without buffers, over the combined path. -/
theorem normalize_eq :
    normalize cwd input =
      if 2 * vfsPathMax ≤ (combined cwd input).length +
          (if input.chars.head? = some slash then 0 else 1) then none
      else ((comps (combined cwd input)).foldlM normalizeComp []).map fun kept =>
        CStr.ofBytes (absPath kept) := by
  rw [normalize, combined]
  by_cases h0 : input.chars = []
  · simp [h0, comps, dot, slash]
  · simp only [h0, if_false, comps, ge_iff_le]

theorem normalizeBuf_combined (out : Buf vfsPathMax) :
    normalizeBuf cwd input out =
      if 2 * vfsPathMax ≤ (combined cwd input).length +
          (if input.chars.head? = some slash then 0 else 1) then none
      else Normalize.loop (combined cwd input).length (combined cwd input)
        ((out.put8 0 slash).put8 1 0) 1 := by
  rw [normalizeBuf, combined]
  by_cases habs : input.chars.head? = some slash
  · have h0 : input.chars ≠ [] := fun h => by simp [h] at habs
    simp [h0, habs]
  · have hinp : (if input.chars = [] then [dot] else input.chars).head? ≠ some slash := by
      split
      · decide
      · exact habs
    simp only [if_neg hinp, if_neg habs, List.length_append, List.length_cons, CStr.length,
      ge_iff_le, Nat.add_assoc]

/-- **The buffer and the list of components agree**, whatever the buffer held before. -/
theorem normalizeBuf_eq (out : Buf vfsPathMax) :
    (normalizeBuf cwd input out).map pathIn = normalize cwd input := by
  rw [normalizeBuf_combined, normalize_eq, apply_ite (Option.map pathIn), Option.map_none,
    Normalize.loop_eq (Normalize.Holds.start out) (combined_ne_zero cwd input) (Nat.le_refl _)]

end

/-! ### Resolution without limits -/

/-- A component that stands for a file or a directory. -/
def Proper (c : List Byte) : Prop := IsComp c ∧ c ≠ [dot] ∧ c ≠ [dot, dot]

/-- One component in the loop of `normalize`, without limits. -/
def resolveComp (stack : List (List Byte)) (c : List Byte) : List (List Byte) :=
  if c = [dot] then stack else if c = [dot, dot] then stack.dropLast else stack ++ [c]

/-- The components that are left when `.` stays, and `..` drops the last one. -/
def resolve (cs : List (List Byte)) : List (List Byte) := cs.foldl resolveComp []

/-- The component does not fit behind the stack. -/
def Overflows (stack : List (List Byte)) (c : List Byte) : Prop :=
  Proper c ∧ vfsPathMax ≤ (absPath stack).length + c.length + 2

/-- Every component of a stack was pushed on the ones in front of it. -/
def Fits (stack : List (List Byte)) : Prop :=
  ∀ ks c, ks ++ [c] <+: stack → Proper c ∧ (absPath ks).length + c.length + 2 < vfsPathMax

theorem Fits.shorter {stack : List (List Byte)} (h : Fits stack) (hk : ks <+: stack) : Fits ks :=
  fun js c hjs => h js c (hjs.trans hk)

variable {stack : List (List Byte)}

theorem Fits.push (h : Fits stack) (hc : Proper c)
    (hlen : (absPath stack).length + c.length + 2 < vfsPathMax) : Fits (stack ++ [c]) := by
  intro ks d hd
  rcases List.prefix_concat_iff.mp hd with heq | hd
  · obtain ⟨rfl, hcd⟩ := List.append_inj' heq rfl
    obtain rfl := List.singleton_injective hcd
    exact ⟨hc, hlen⟩
  · exact h ks d hd

theorem Fits.proper (h : Fits stack) : ∀ c ∈ stack, Proper c := by
  intro c hc
  obtain ⟨ks, rs, rfl⟩ := List.append_of_mem hc
  exact (h ks c ⟨rs, by simp⟩).1

theorem Fits.length (h : Fits stack) :
    (absPath stack).length < vfsPathMax := by
  rcases List.eq_nil_or_concat' stack with rfl | ⟨ks, c, rfl⟩
  · decide
  · have := (h ks c List.prefix_rfl).2
    have hle : (basePath ks).length ≤ (absPath ks).length := by
      rw [absPath_eq]
      split
      · rename_i h0
        simp [h0, basePath]
      · exact Nat.le_refl _
    rw [absPath_append, List.length_append, List.length_cons]
    omega

/-- One component within the limits. -/
theorem normalizeComp_eq_some {kept' : List (List Byte)} (hc : IsComp c) (h : Fits kept)
    (hrun : normalizeComp kept c = some kept') :
    kept' = resolveComp kept c ∧ Fits kept' := by
  unfold normalizeComp at hrun
  unfold resolveComp
  split at hrun
  · cases hrun
  split at hrun
  · rename_i hd
    cases hrun
    exact ⟨(if_pos hd).symm, h⟩
  rename_i hd
  rw [if_neg hd]
  split at hrun
  · rename_i hdd
    cases hrun
    exact ⟨(if_pos hdd).symm, h.shorter (List.dropLast_prefix kept)⟩
  rename_i hdd
  rw [if_neg hdd]
  split at hrun
  · cases hrun
  · rename_i hlen
    cases hrun
    exact ⟨rfl, h.push ⟨hc, hd, hdd⟩ (by omega)⟩

theorem normalizeComp_eq_none (hc : IsComp c) (hrun : normalizeComp kept c = none) :
    vfsPathMax ≤ c.length ∨ Overflows kept c := by
  unfold normalizeComp at hrun
  split at hrun
  · exact Or.inl ‹_›
  split at hrun
  · cases hrun
  split at hrun
  · cases hrun
  split at hrun
  · exact Or.inr ⟨⟨hc, ‹_›, ‹_›⟩, ‹_›⟩
  · cases hrun

theorem foldlM_normalizeComp_eq_some {kept' : List (List Byte)} (hcs : ∀ c ∈ cs, IsComp c)
    (h : Fits kept) (hrun : cs.foldlM normalizeComp kept = some kept') :
    kept' = cs.foldl resolveComp kept ∧ Fits kept' := by
  induction cs generalizing kept with
  | nil =>
    cases hrun
    exact ⟨rfl, h⟩
  | cons c cs ih =>
    rw [List.foldlM_cons] at hrun
    obtain ⟨kept1, h1, hrun⟩ := Option.bind_eq_some_iff.mp hrun
    obtain ⟨rfl, hfits⟩ := normalizeComp_eq_some (hcs c List.mem_cons_self) h h1
    exact ih (fun d hd => hcs d (List.mem_cons_of_mem c hd)) hfits hrun

theorem foldlM_normalizeComp_eq_none (hcs : ∀ c ∈ cs, IsComp c)
    (h : Fits kept) (hrun : cs.foldlM normalizeComp kept = none) :
    (∃ c ∈ cs, vfsPathMax ≤ c.length) ∨
      ∃ ds c, ds ++ [c] <+: cs ∧ Overflows (ds.foldl resolveComp kept) c := by
  induction cs generalizing kept with
  | nil => cases hrun
  | cons c cs ih =>
    have hc := hcs c List.mem_cons_self
    rw [List.foldlM_cons] at hrun
    cases h1 : normalizeComp kept c with
    | none =>
      rcases normalizeComp_eq_none hc h1 with hlong | hover
      · exact Or.inl ⟨c, List.mem_cons_self, hlong⟩
      · exact Or.inr ⟨[], c, ⟨cs, rfl⟩, hover⟩
    | some kept1 =>
      obtain ⟨rfl, hfits⟩ := normalizeComp_eq_some hc h h1
      rw [h1] at hrun
      rcases ih (fun d hd => hcs d (List.mem_cons_of_mem c hd)) hfits hrun with hlong | hover
      · obtain ⟨d, hd, hlong⟩ := hlong
        exact Or.inl ⟨d, List.mem_cons_of_mem c hd, hlong⟩
      · obtain ⟨ds, d, hpre, hover⟩ := hover
        exact Or.inr ⟨c :: ds, d, by simpa using hpre, hover⟩

/-- A stack that fits is resolved to itself. -/
theorem foldlM_normalizeComp_self (h : Fits stack) :
    stack.foldlM normalizeComp [] = some stack := by
  have hall : ∀ ks, ks <+: stack → ks.foldlM normalizeComp [] = some ks := by
    intro ks
    induction ks using List.reverseRecOn with
    | nil => exact fun _ => rfl
    | append_singleton ks c ih =>
      intro hk
      obtain ⟨⟨-, hd, hdd⟩, hlen⟩ := h ks c hk
      rw [List.foldlM_append, ih ((List.prefix_append ks [c]).trans hk)]
      simp only [List.foldlM_cons, List.foldlM_nil, Option.bind_eq_bind, Option.bind_some]
      rw [normalizeComp, if_neg (by omega), if_neg hd, if_neg hdd, if_neg (by omega)]
      rfl
  exact hall stack List.prefix_rfl

/-! ### What `normalize` returns -/

/-- What a successful call leaves in `out`: the resolved path, in which no component is empty
or stands for another directory. -/
structure Resolved (cwd input path : CStr) : Prop where
  stack : path.chars = absPath (resolve (comps (combined cwd input)))
  short : path.length < vfsPathMax
  comps : comps path.chars = resolve (comps (combined cwd input))
  proper : ∀ c ∈ resolve (Crusadia.comps (combined cwd input)), Proper c
  again : ∀ cwd' out, (normalizeBuf cwd' path out).map pathIn = some path

/-- Why a call can fail. The limits are the ones of the code: a relative path must leave a byte
of the buffer unused, and a component must leave one or two. -/
inductive Refused (cwd input : CStr) : Prop
  | long (h : 2 * vfsPathMax ≤ (combined cwd input).length)
  | relative (h : 2 * vfsPathMax ≤ (combined cwd input).length + 1)
      (hrel : input.chars.head? ≠ some slash)
  | comp {c : List Byte} (hc : c ∈ comps (combined cwd input)) (hlen : vfsPathMax ≤ c.length)
  | stack {cs : List (List Byte)} {c : List Byte} (hpre : cs ++ [c] <+: comps (combined cwd input))
      (h : Overflows (resolve cs) c)

theorem mem_foldl_resolveComp (h : c ∈ cs.foldl resolveComp kept) :
    c ∈ kept ∨ c ∈ cs := by
  induction cs generalizing kept with
  | nil => exact Or.inl h
  | cons d cs ih =>
    rcases ih h with hd | hc
    · unfold resolveComp at hd
      split at hd
      · exact Or.inl hd
      split at hd
      · exact Or.inl (List.mem_of_mem_dropLast hd)
      · rcases List.mem_append.mp hd with hd | hd
        · exact Or.inl hd
        · exact Or.inr (by simp [List.mem_singleton.mp hd])
    · exact Or.inr (List.mem_cons_of_mem d hc)

/-- The path of a stack that fits is normalised already. -/
theorem normalize_absPath {path : CStr} (h : Fits stack) (hpath : path.chars = absPath stack)
    (cwd : CStr) : normalize cwd path = some path := by
  have hlen : path.chars.length < vfsPathMax := hpath ▸ h.length
  have hhead : path.chars.head? = some slash := hpath ▸ head?_absPath stack
  have hne : path.chars ≠ [] := fun h0 => by simp [h0] at hhead
  have hcomb : combined cwd path = absPath stack := by
    rw [combined, if_neg hne, if_pos hhead, hpath]
  rw [normalize_eq, hcomb, if_pos hhead, if_neg (by rw [← hpath]; omega),
    comps_absPath fun c hc => (h.proper c hc).1, foldlM_normalizeComp_self h, Option.map_some,
    ← hpath]
  exact congrArg some (CStr.ext_chars (CStr.ofBytes_chars path.nz))

/-- **`normalize` resolves its input**, within its three limits. -/
theorem normalizeBuf_spec (cwd input : CStr) (out : Buf vfsPathMax) :
    (∀ out', normalizeBuf cwd input out = some out' → Resolved cwd input (pathIn out')) ∧
      (normalizeBuf cwd input out = none → Refused cwd input) := by
  have hbuf := normalizeBuf_eq cwd input out
  rw [normalize_eq] at hbuf
  have hcs : ∀ c ∈ comps (combined cwd input), IsComp c := fun c hc => (isComp_of_mem_comps hc).1
  have hnil : Fits [] := fun ks c h => by simp at h
  by_cases hlong : 2 * vfsPathMax ≤ (combined cwd input).length +
      (if input.chars.head? = some slash then 0 else 1)
  · rw [if_pos hlong] at hbuf
    have hnone := Option.map_eq_none_iff.mp hbuf
    refine ⟨fun out' hout => by simp [hnone] at hout, fun _ => ?_⟩
    by_cases hrel : input.chars.head? = some slash
    · exact Refused.long (by simpa [hrel] using hlong)
    · exact Refused.relative (by simpa [hrel] using hlong) hrel
  rw [if_neg hlong] at hbuf
  constructor
  · intro out' hout
    rw [hout, Option.map_some] at hbuf
    obtain ⟨kept, hrun, hpath⟩ := Option.map_eq_some_iff.mp hbuf.symm
    obtain ⟨rfl, hfits⟩ := foldlM_normalizeComp_eq_some hcs hnil hrun
    have hchars : (pathIn out').chars = absPath (resolve (comps (combined cwd input))) := by
      rw [← hpath]
      refine CStr.ofBytes_chars (absPath_ne_zero fun c hc h0 => ?_)
      rcases mem_foldl_resolveComp hc with hc | hc
      · cases hc
      · exact combined_ne_zero cwd input 0 ((isComp_of_mem_comps hc).2 h0) rfl
    refine ⟨hchars, ?_, ?_, hfits.proper, fun cwd' out => ?_⟩
    · rw [CStr.length, hchars]
      exact hfits.length
    · rw [hchars]
      exact comps_absPath fun c hc => (hfits.proper c hc).1
    · rw [normalizeBuf_eq]
      exact normalize_absPath hfits hchars cwd'
  · intro hout
    rw [hout, Option.map_none] at hbuf
    have hrun := Option.map_eq_none_iff.mp hbuf.symm
    rcases foldlM_normalizeComp_eq_none hcs hnil hrun with ⟨c, hc, hlen⟩ | ⟨cs, c, hpre, hover⟩
    · exact Refused.comp hc hlen
    · exact Refused.stack hpre hover

/-- `.` and 252 slashes, in the root directory. The 255 characters and their NUL would just fit
in the 256 bytes of `full`, and `.` leaves the stack empty. -/
theorem normalizeBuf_dot_slashes :
    let cwd : CStr := CStr.ofBytes [slash]
    let input : CStr := CStr.ofBytes (dot :: List.replicate 252 slash)
    normalizeBuf cwd input Buf.zero = none ∧ (combined cwd input).length + 1 = 2 * vfsPathMax ∧
      comps (combined cwd input) = [[dot]] ∧ resolve [] = [] ∧ resolve [[dot]] = [] := by
  intro cwd input
  have hcwd : cwd.chars = [slash] := CStr.ofBytes_chars (by decide)
  have hin : input.chars = dot :: List.replicate 252 slash := CStr.ofBytes_chars (by decide)
  have hcomb : combined cwd input = slash :: slash :: dot :: List.replicate 252 slash := by
    rw [combined, hcwd, hin]
    rfl
  have hslashes : ∀ n, comps (List.replicate n slash) = [] := fun n => by
    induction n with
    | zero => simp
    | succ n ih => rw [List.replicate_succ, comps_slash_cons, ih]
  refine ⟨?_, ?_, ?_, rfl, by decide⟩
  · rw [normalizeBuf, CStr.length, hcwd, hin, if_neg (List.cons_ne_nil _ _), List.head?_cons]
    dsimp only
    rw [if_neg (by decide), if_pos]
    simp only [List.length_cons, List.length_replicate, List.length_nil]
    decide
  · rw [hcomb]
    simp only [List.length_cons, List.length_replicate]
    rfl
  · rw [hcomb, comps_slash_cons, comps_slash_cons, ← List.singleton_append,
      comps_append ⟨by decide, by decide⟩ (Or.inr rfl), hslashes]

end Crusadia
