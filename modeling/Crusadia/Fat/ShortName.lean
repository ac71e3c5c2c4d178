import Crusadia.Fat.Entries
import Mathlib.Data.List.Perm.Subperm

/-!
# Crusadia.Fat.ShortName

**Short names**: eight characters and three, padded with blanks. `name_to_83` and `name_from_83` are
inverse on the names that `name_needs_lfn` lets pass (`nameFrom83_nameTo83`), and for every other
name `gen_short_name` numbers candidates. The candidates are valid (`valid83_candidate`) and no two
are equal (`candidate_inj`), so that one of them is left unless the directory has as many names.
-/

namespace Crusadia

/-! ### Characters -/

theorem ne_blank_of_valid {c : Byte} (h : isValid83Char c = true) : c ≠ blank := by
  intro hc
  rw [hc] at h
  exact absurd h (by decide)

theorem isValid83Char_shortChar (c : Byte) : isValid83Char (shortChar c) = true := by
  unfold shortChar
  split
  · next h => exact h
  · decide

/-- A character that `name_needs_lfn` lets pass is stored as it is. -/
theorem valid_of_not_lfnChar {c : Byte} (h : lfnChar c = false) :
    up c = c ∧ isValid83Char c = true := by
  rw [lfnChar, Bool.or_eq_false_iff, Bool.not_eq_false'] at h
  have hup : up c = c := if_neg fun hc => by
    rw [decide_eq_true hc.1, decide_eq_true hc.2] at h
    exact absurd h.1 (by decide)
  rw [hup] at h
  exact ⟨hup, h.2⟩

theorem map_up_of_not_lfnChar {t : List Byte} (h : t.any lfnChar = false) :
    t.map up = t ∧ ∀ c ∈ t, isValid83Char c = true := by
  have hall : ∀ c ∈ t, lfnChar c = false := by simpa using h
  refine ⟨?_, fun c hc => (valid_of_not_lfnChar (hall c hc)).2⟩
  exact (List.map_congr_left fun c hc => (valid_of_not_lfnChar (hall c hc)).1).trans (List.map_id _)

/-! ### The two parts -/

/-- Characters that pass, padded with blanks. -/
def Padded (part t : List Byte) : Prop :=
  (∃ n, part = t ++ List.replicate n blank) ∧ ∀ c ∈ t, isValid83Char c = true

/-- A valid short name. The characters that pass are no blanks, so there is none between them. -/
structure Valid83 (raw : Buf 11) : Prop where
  base : ∃ t, t ≠ [] ∧ Padded ((List.range 8).map raw.get) t
  ext : ∃ t, Padded ((List.range 3).map fun i => raw.get (8 + i)) t

theorem Padded.takeWhile {part t : List Byte} (h : Padded part t) :
    part.takeWhile (· ≠ blank) = t := by
  obtain ⟨⟨n, rfl⟩, ht⟩ := h
  have hall : ∀ c ∈ t, decide (c ≠ blank) = true := fun c hc =>
    decide_eq_true (ne_blank_of_valid (ht c hc))
  rw [List.takeWhile_append_of_pos hall, List.takeWhile_replicate, if_neg (by simp),
    List.append_nil]

theorem Padded.any {part t : List Byte} (h : Padded part t) :
    part.any (· ≠ blank) = !t.isEmpty := by
  obtain ⟨⟨n, rfl⟩, ht⟩ := h
  cases t with
  | nil => simp
  | cons c t => simp [ne_blank_of_valid (ht c List.mem_cons_self)]

variable {base ext : List Byte}

theorem padded_base (hlen : base.length ≤ 8) (hb : ∀ c ∈ base, isValid83Char c = true) :
    Padded ((List.range 8).map (pad83 base ext).get) base := by
  refine ⟨⟨8 - base.length, List.ext_getElem (by simp; omega) fun i hi _ => ?_⟩, hb⟩
  have hi : i < 8 := by simpa using hi
  rw [List.getElem_map, List.getElem_range, pad83, Buf.get_ofFn_lt _ (by omega), if_pos hi]
  rcases Nat.lt_or_ge i base.length with hlt | hge
  · rw [List.getElem_append_left hlt, List.getD_eq_getElem _ _ hlt]
  · rw [List.getElem_append_right hge, List.getElem_replicate, List.getD_eq_default _ _ hge]

theorem padded_ext (hlen : ext.length ≤ 3) (he : ∀ c ∈ ext, isValid83Char c = true) :
    Padded ((List.range 3).map fun i => (pad83 base ext).get (8 + i)) ext := by
  refine ⟨⟨3 - ext.length, List.ext_getElem (by simp; omega) fun i hi _ => ?_⟩, he⟩
  have hi : i < 3 := by simpa using hi
  rw [List.getElem_map, List.getElem_range, pad83, Buf.get_ofFn_lt _ (by omega),
    if_neg (by omega), Nat.add_sub_cancel_left]
  rcases Nat.lt_or_ge i ext.length with hlt | hge
  · rw [List.getElem_append_left hlt, List.getD_eq_getElem _ _ hlt]
  · rw [List.getElem_append_right hge, List.getElem_replicate, List.getD_eq_default _ _ hge]

theorem nameFrom83_of_padded {raw : Buf 11} (hb : Padded ((List.range 8).map raw.get) base)
    (he : Padded ((List.range 3).map fun i => raw.get (8 + i)) ext) :
    nameFrom83 raw = CStr.ofBytes (base ++ if ext = [] then [] else dot :: ext) := by
  unfold nameFrom83
  dsimp only
  rw [hb.takeWhile, he.any, he.takeWhile]
  cases ext <;> rfl

/-- **The round trip of a name that needs no long name.** -/
theorem nameFrom83_nameTo83 {name : CStr} (h : nameNeedsLfn name = false) :
    nameFrom83 (nameTo83 name) = name := by
  simp only [nameNeedsLfn, Bool.or_eq_false_iff, Bool.and_eq_false_iff, Bool.not_eq_false',
    decide_eq_false_iff_not, beq_eq_false_iff_ne] at h
  obtain ⟨⟨⟨hbase, hpos⟩, hlen⟩, hrest⟩ := h
  obtain ⟨hup, hvalid⟩ := map_up_of_not_lfnChar hbase
  have hsplit : baseOf name ++ restOf name = name.chars := List.takeWhile_append_dropWhile
  -- what follows the first dot
  have hext : ∃ ext, (restOf name).drop 1 = ext ∧ ext.length ≤ 3 ∧ ext.map up = ext ∧
      (∀ c ∈ ext, isValid83Char c = true) ∧
      restOf name = if ext = [] then [] else dot :: ext := by
    refine ⟨_, rfl, ?_⟩
    cases hr : restOf name with
    | nil => simp
    | cons c rest =>
      rw [hr] at hrest
      have hdot : c = dot := by
        have hhead := List.head?_dropWhile_not (fun c => decide (c ≠ dot)) name.chars
        rw [show name.chars.dropWhile (fun c => decide (c ≠ dot)) = c :: rest from hr] at hhead
        simpa using hhead
      simp only [List.isEmpty_cons, Bool.false_eq_true, false_or, List.drop_succ_cons,
        List.drop_zero] at hrest ⊢
      obtain ⟨⟨hany, hne⟩, hle⟩ := hrest
      have hany' : rest.any lfnChar = false := by
        simp only [List.any_eq_false, Bool.or_eq_true, not_or] at hany ⊢
        exact fun x hx => (hany x hx).2
      obtain ⟨hup', hvalid'⟩ := map_up_of_not_lfnChar hany'
      refine ⟨by omega, hup', hvalid', ?_⟩
      rw [if_neg fun h0 => hne (by rw [h0]; rfl), hdot]
  obtain ⟨ext, hext, hextlen, hextup, hextvalid, hrest'⟩ := hext
  have hto : nameTo83 name = pad83 (baseOf name) ext := by
    rw [nameTo83, hext, List.take_of_length_le (by omega), List.take_of_length_le hextlen, hup,
      hextup]
  rw [hto, nameFrom83_of_padded (padded_base (by omega) hvalid) (padded_ext hextlen hextvalid),
    ← hrest', hsplit]
  exact CStr.ext_chars (CStr.ofBytes_chars name.nz)

/-! ### The candidates -/

/-- The short names that `gen_short_name` tries. -/
def Fat.candidate (name : CStr) (n : Nat) : Buf 11 :=
  shortCandidate (baseExtFromName name).1 (baseExtFromName name).2 n

/-- The eight characters of a candidate. -/
def numbered (name : CStr) (n : Nat) : List Byte :=
  (baseExtFromName name).1.take (max 1 (8 - (digits n).length - 1)) ++ 0x7E :: digits n

theorem isDigit_toNat {n : Nat} {d : Char} (h : d ∈ Nat.toDigits 10 n) :
    48 ≤ d.toNat ∧ d.toNat ≤ 57 :=
  Char.isDigit_iff_toNat.mp (Nat.isDigit_of_mem_toDigits (by decide) (by decide) h)

theorem mem_digits {n : Nat} {c : Byte} (h : c ∈ digits n) : isValid83Char c = true ∧ c ≠ 0x7E := by
  obtain ⟨d, hd, rfl⟩ := List.mem_map.mp h
  obtain ⟨hlow, hhigh⟩ := isDigit_toNat hd
  generalize d.toNat = m at hlow hhigh
  interval_cases m <;> decide

theorem length_digits_le {n : Nat} (h : n ≤ 999999) : (digits n).length ≤ 6 := by
  rw [digits, List.length_map]
  exact (Nat.length_toDigits_le_iff (by decide) (by decide)).mpr (by omega)

theorem digits_inj {n m : Nat} (h : digits n = digits m) : n = m := by
  -- a digit is its byte again
  have hchars : ∀ k, (digits k).map (fun b => Char.ofNat b.toNat) = Nat.toDigits 10 k := fun k => by
    rw [digits, List.map_map]
    refine (List.map_congr_left fun d hd => ?_).trans (List.map_id _)
    have hd' := isDigit_toNat hd
    rw [Function.comp_apply, BitVec.toNat_ofNat, Nat.mod_eq_of_lt (by omega), Char.ofNat_toNat]
    rfl
  have hval := congrArg (fun ds => Nat.ofDigitChars 10 ds 0)
    ((hchars n).symm.trans ((congrArg _ h).trans (hchars m)))
  simpa using hval

theorem candidate_eq (name : CStr) (n : Nat) :
    Fat.candidate name n = pad83 (numbered name n) (baseExtFromName name).2 := by
  rw [Fat.candidate, shortCandidate, numbered, List.length_cons, Nat.sub_sub]

theorem baseExtFromName_base (name : CStr) : (baseExtFromName name).1 ≠ [] ∧
    ∀ c ∈ (baseExtFromName name).1, isValid83Char c = true := by
  unfold baseExtFromName
  dsimp only
  split
  · exact ⟨by simp, by simp [isValid83Char]⟩
  · next hne =>
      refine ⟨hne, fun c hc => ?_⟩
      obtain ⟨b, -, rfl⟩ := List.mem_map.mp hc
      exact isValid83Char_shortChar b

theorem baseExtFromName_ext (name : CStr) : (baseExtFromName name).2.length ≤ 3 ∧
    ∀ c ∈ (baseExtFromName name).2, isValid83Char c = true := by
  refine ⟨by simp [baseExtFromName], fun c hc => ?_⟩
  obtain ⟨b, -, rfl⟩ := List.mem_map.mp hc
  exact isValid83Char_shortChar b

section

variable {name : CStr} {n m : Nat}

theorem numbered_valid (hn : n ≤ 999999) : (numbered name n).length ≤ 8 ∧
    ∀ c ∈ numbered name n, isValid83Char c = true := by
  have hlen := length_digits_le hn
  refine ⟨?_, fun c hc => ?_⟩
  · rw [numbered, List.length_append, List.length_take, List.length_cons]
    omega
  · rcases List.mem_append.mp hc with hc | hc
    · exact (baseExtFromName_base name).2 c (List.mem_of_mem_take hc)
    · rcases List.mem_cons.mp hc with rfl | hc
      · decide
      · exact (mem_digits hc).1

theorem padded_candidate (hn : n ≤ 999999) :
    Padded ((List.range 8).map (Fat.candidate name n).get) (numbered name n) := by
  rw [candidate_eq]
  exact padded_base (numbered_valid hn).1 (numbered_valid hn).2

theorem valid83_candidate (hn : n ≤ 999999) : Valid83 (Fat.candidate name n) := by
  obtain ⟨hlen, hvalid⟩ := baseExtFromName_ext name
  refine ⟨⟨_, by simp [numbered], padded_candidate hn⟩, (baseExtFromName name).2, ?_⟩
  rw [candidate_eq]
  exact padded_ext hlen hvalid

/-- The number is what follows the last `~`. -/
theorem candidate_inj (hn : n ≤ 999999) (hm : m ≤ 999999)
    (h : Fat.candidate name n = Fat.candidate name m) : n = m := by
  have heq : numbered name n = numbered name m := by
    rw [← (padded_candidate hn).takeWhile, h, (padded_candidate hm).takeWhile]
  have htake : ∀ k u, ((digits k).reverse ++ 0x7E :: u).takeWhile (· ≠ (0x7E : Byte)) =
      (digits k).reverse := fun k u => by
    have hall : ∀ c ∈ (digits k).reverse, decide (c ≠ (0x7E : Byte)) = true := fun c hc =>
      decide_eq_true (mem_digits (List.mem_reverse.mp hc)).2
    rw [List.takeWhile_append_of_pos hall, List.takeWhile_cons, if_neg (by decide), List.append_nil]
  have hrev := congrArg List.reverse heq
  simp only [numbered, List.reverse_append, List.reverse_cons, List.append_assoc,
    List.singleton_append] at hrev
  have hdigits := congrArg (List.takeWhile (· ≠ (0x7E : Byte))) hrev
  rw [htake, htake] at hdigits
  exact digits_inj (List.reverse_injective hdigits)

/-- Fewer names than numbers leave a candidate. -/
theorem exists_candidate_notMem (name : CStr) {names : List (Buf 11)} (h : names.length < 999999) :
    ∃ n, 1 ≤ n ∧ n ≤ 999999 ∧ Fat.candidate name n ∉ names := by
  by_contra hno
  have hall : ∀ n, 1 ≤ n → n ≤ 999999 → Fat.candidate name n ∈ names := fun n h1 h2 => by
    by_contra hn
    exact hno ⟨n, h1, h2, hn⟩
  have hnodup : ((List.range' 1 999999).map (Fat.candidate name)).Nodup := by
    refine List.Nodup.map_on (fun n hn m hm => ?_) List.nodup_range'
    rw [List.mem_range'_1] at hn hm
    exact candidate_inj (by omega) (by omega)
  have hsub : (List.range' 1 999999).map (Fat.candidate name) ⊆ names := fun x hx => by
    obtain ⟨n, hn, rfl⟩ := List.mem_map.mp hx
    rw [List.mem_range'_1] at hn
    exact hall n hn.1 (by omega)
  have hlen := (List.subperm_of_subset hnodup hsub).length_le
  rw [List.length_map, List.length_range'] at hlen
  omega

/-- The loop of `gen_short_name` from round `n` on, where `T` says which names are taken. -/
theorem Fat.genShortNameLoop_eq {s : Fat} {dc : Nat} {T : Buf 11 → Prop}
    (hex : ∀ n11, ∃ b, s.shortNameExists dc n11 = some b ∧ (b = true ↔ T n11)) (name : CStr)
    (rounds n : Nat) (hn : 1 ≤ n) (hrounds : rounds + n = 1000000)
    (htried : ∀ m, 1 ≤ m → m < n → T (candidate name m)) :
    ∃ m, 1 ≤ m ∧ m ≤ 999999 ∧
      s.genShortNameLoop dc (baseExtFromName name).1 (baseExtFromName name).2 rounds n =
        some (candidate name m) ∧
      (T (candidate name m) → ∀ m, 1 ≤ m → m ≤ 999999 → T (candidate name m)) := by
  induction rounds generalizing n with
  | zero =>
    refine ⟨n - 1, by omega, by omega, rfl, fun _ m h1 h2 => htried m h1 (by omega)⟩
  | succ rounds ih =>
    obtain ⟨b, hb, hiff⟩ := hex (candidate name n)
    rw [Fat.genShortNameLoop]
    have hb' : s.shortNameExists dc
        (shortCandidate (baseExtFromName name).1 (baseExtFromName name).2 n) = some b := hb
    rw [hb']
    simp only [bind, Option.bind]
    cases b with
    | true =>
      rw [if_pos rfl]
      refine ih _ (by omega) (by omega) fun m h1 h2 => ?_
      by_cases hm : m = n
      · rw [hm]
        exact hiff.mp rfl
      · exact htried m h1 (by omega)
    | false =>
      rw [if_neg Bool.false_ne_true]
      exact ⟨n, hn, by omega, rfl, fun ht => absurd (hiff.mpr ht) Bool.false_ne_true⟩

end

end Crusadia
