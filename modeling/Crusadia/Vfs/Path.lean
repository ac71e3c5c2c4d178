import Crusadia.Lib.Field
import Mathlib.Data.List.TakeWhile

/-!
# Crusadia.Vfs.Path

Paths and names as the VFS layer handles them: `split_rel` cuts a path into a parent and a
last component, `cos_resolve` walks over the components, and `name_ok` says which names a
file system accepts. `splitRel_components` ties the first two together.
-/

namespace Crusadia

/-- `'/'`. -/
def slash : Byte := 0x2F

/-- `VFS_NAME_MAX`. -/
def vfsNameMax : Nat := 32

/-- `COS_NAME_MAX`. -/
def cosNameMax : Nat := 27

/-- `m->fs`. -/
inductive FsType
  /-- `VFS_FS_COSFS`. -/
  | cosfs
  /-- `VFS_FS_FAT32`. -/
  | fat32
  deriving DecidableEq

/-! ### Names -/

/-- The loop of `fat_name_ok` with its three counters. -/
def fatNameLoop : List Byte → Nat → Nat → Bool → Bool
  | [], base, ext, _ => decide (base ≤ 8) && decide (ext ≤ 3)
  | c :: cs, base, ext, dot =>
    if c = 0x2E then
      if dot || base == 0 then false else fatNameLoop cs base ext true
    else if c = 0x20 ∨ c = slash ∨ c = 0x3E then false
    else if dot then fatNameLoop cs base (ext + 1) dot
    else fatNameLoop cs (base + 1) ext dot

/-- `fat_name_ok`. -/
def fatNameOk (s : CStr) : Bool :=
  if s.chars = [] then false else fatNameLoop s.chars 0 0 false

/-- `name_ok`. -/
def nameOk (fs : FsType) (leaf : CStr) : Bool :=
  match fs with
  | .fat32 => fatNameOk leaf
  | .cosfs => decide (leaf.length > 0) && decide (leaf.length ≤ cosNameMax)

/-! ### Splitting -/

/-- `while (n > 1 && rel[n - 1] == '/') n--`. -/
def stripSlashes (rel : CStr) : Nat → Nat
  | 0 => 0
  | 1 => 1
  | n + 2 => if rel.at' (n + 1) = slash then stripSlashes rel (n + 1) else n + 2

/-- `while (i > 0 && rel[i - 1] != '/') i--`. -/
def leafStart (rel : CStr) : Nat → Nat
  | 0 => 0
  | i + 1 => if rel.at' i = slash then i + 1 else leafStart rel i

/-- `split_rel`: the parent and the last component. -/
def splitRel (rel : CStr) : Option (CStr × CStr) :=
  let n := stripSlashes rel rel.length
  if n ≤ 1 then none else
  let i := leafStart rel n
  let ll := n - i
  if ll = 0 ∨ ll ≥ vfsNameMax then none else
  let leaf := CStr.ofBytes ((rel.chars.drop i).take ll)
  if i ≤ 1 then some (CStr.ofBytes [slash], leaf)
  else some (CStr.ofBytes (rel.chars.take (i - 1)), leaf)

/-- The parts between slashes, cut to the size of the buffer that `cos_resolve` has. -/
def parts (l : List Byte) : List CStr :=
  ((l.splitOnP (· == slash)).filter (· ≠ [])).map fun c =>
    CStr.ofBytes (c.take (vfsNameMax - 1))

/-- The components that `cos_resolve` sees. -/
def components (rel : CStr) : List CStr := parts rel.chars

/-! ### The parent and the last component -/

theorem parts_append_slash (xs ys : List Byte) :
    parts (xs ++ slash :: ys) = parts xs ++ parts ys := by
  rw [parts, List.splitOnP_append_cons _ _ (by simp), List.filter_append, List.map_append, parts,
    parts]

theorem parts_nil : parts [] = [] := by
  rw [parts, List.splitOnP_nil]
  rfl

/-- Trailing slashes add nothing. -/
theorem parts_append_slashes (xs ys : List Byte) (h : ∀ b ∈ ys, b = slash) :
    parts (xs ++ ys) = parts xs := by
  induction ys generalizing xs with
  | nil => rw [List.append_nil]
  | cons y ys ih =>
    obtain rfl : y = slash := h y (List.mem_cons_self ..)
    have hys : parts ([] ++ ys) = parts [] := ih [] fun b hb => h b (List.mem_cons_of_mem _ hb)
    rw [List.nil_append, parts_nil] at hys
    rw [parts_append_slash, hys, List.append_nil]

/-- A last component is a component. -/
theorem parts_single {c : List Byte} (h0 : c ≠ []) (hs : ∀ b ∈ c, b ≠ slash)
    (hlen : c.length < vfsNameMax) : parts c = [CStr.ofBytes c] := by
  have hsplit : c.splitOnP (· == slash) = [c] :=
    List.splitOnP_eq_singleton fun b hb => by simpa using hs b hb
  have htake : c.take (vfsNameMax - 1) = c := List.take_of_length_le (by omega)
  rw [parts, hsplit, List.filter_cons_of_pos (by simpa using h0), List.filter_nil,
    List.map_singleton, htake]

theorem stripSlashes_spec (rel : CStr) (n : Nat) :
    stripSlashes rel n ≤ n ∧ (1 ≤ n → 1 ≤ stripSlashes rel n) ∧
      (∀ k, stripSlashes rel n ≤ k → k < n → rel.at' k = slash) ∧
      (2 ≤ stripSlashes rel n → rel.at' (stripSlashes rel n - 1) ≠ slash) := by
  induction n using stripSlashes.induct rel with
  | case1 => simp [stripSlashes]
  | case2 =>
    rw [stripSlashes]
    exact ⟨Nat.le_refl _, id, fun k hk hlt => by omega, fun h => by omega⟩
  | case3 n h ih =>
    obtain ⟨h1, h2, h3, h4⟩ := ih
    rw [stripSlashes, if_pos h]
    refine ⟨by omega, by omega, fun k hk hlt => ?_, h4⟩
    by_cases hkn : k = n + 1
    · rw [hkn, h]
    · exact h3 k hk (by omega)
  | case4 n h =>
    rw [stripSlashes, if_neg h]
    exact ⟨by omega, by omega, fun k hk hlt => by omega, fun _ => h⟩

theorem leafStart_spec (rel : CStr) (n : Nat) :
    leafStart rel n ≤ n ∧ (∀ k, leafStart rel n ≤ k → k < n → rel.at' k ≠ slash) ∧
      (leafStart rel n ≠ 0 → rel.at' (leafStart rel n - 1) = slash) := by
  induction n with
  | zero => simp [leafStart]
  | succ n ih =>
    rw [leafStart]
    split
    · rename_i h
      exact ⟨Nat.le_refl _, fun k hk hlt => by omega, fun _ => h⟩
    · rename_i h
      refine ⟨by omega, fun k hk hlt => ?_, ih.2.2⟩
      by_cases hkn : k = n
      · rw [hkn]
        exact h
      · exact ih.2.1 k hk (by omega)

theorem CStr.getElem_chars (rel : CStr) {k : Nat} (hk : k < rel.chars.length) :
    rel.chars[k] = rel.at' k := by
  rw [CStr.at', List.getD_eq_getElem _ _ hk]

/-- A path up to the slash before its last component, that component at `[i, n)`, and only
slashes after it. -/
theorem components_slice {rel : CStr} {i n : Nat} (hin : i < n) (hn : n ≤ rel.length)
    (hlen : n - i < vfsNameMax) (hbefore : i ≠ 0 → rel.at' (i - 1) = slash)
    (hmid : ∀ k, i ≤ k → k < n → rel.at' k ≠ slash)
    (htail : ∀ k, n ≤ k → k < rel.length → rel.at' k = slash) :
    components rel = parts (rel.chars.take (i - 1)) ++
      [CStr.ofBytes ((rel.chars.drop i).take (n - i))] := by
  have hn' : n ≤ rel.chars.length := hn
  have hsplit : rel.chars =
      rel.chars.take i ++ (rel.chars.drop i).take (n - i) ++ rel.chars.drop n := by
    have hdrop : rel.chars.drop n = (rel.chars.drop i).drop (n - i) := by
      rw [List.drop_drop, Nat.add_sub_cancel' (Nat.le_of_lt hin)]
    rw [hdrop, List.append_assoc, List.take_append_drop, List.take_append_drop]
  have hslashes : ∀ b ∈ rel.chars.drop n, b = slash := by
    intro b hb
    obtain ⟨k, hk, rfl⟩ := List.mem_iff_getElem.mp hb
    rw [List.length_drop] at hk
    rw [List.getElem_drop, CStr.getElem_chars]
    exact htail _ (by omega) (by rw [CStr.length]; omega)
  have hmidlen : ((rel.chars.drop i).take (n - i)).length = n - i := by
    rw [List.length_take, List.length_drop]
    omega
  have hsingle : parts ((rel.chars.drop i).take (n - i)) =
      [CStr.ofBytes ((rel.chars.drop i).take (n - i))] := by
    refine parts_single (fun h0 => ?_) (fun b hb => ?_) (by omega)
    · rw [h0, List.length_nil] at hmidlen
      omega
    · obtain ⟨k, hk, rfl⟩ := List.mem_iff_getElem.mp hb
      rw [List.getElem_take, List.getElem_drop, CStr.getElem_chars]
      exact hmid _ (by omega) (by omega)
  rw [components, congrArg parts hsplit, parts_append_slashes _ _ hslashes]
  rcases Nat.eq_zero_or_pos i with rfl | hpos
  · rw [List.take_zero, List.nil_append, hsingle, parts_nil, List.nil_append]
  · obtain ⟨j, rfl⟩ : ∃ j, i = j + 1 := ⟨i - 1, by omega⟩
    have hslash : rel.at' j = slash := hbefore (by omega)
    have htake : rel.chars.take (j + 1) = rel.chars.take j ++ [slash] := by
      rw [List.take_add_one, List.getElem?_eq_getElem (by omega), CStr.getElem_chars, hslash]
      rfl
    rw [htake, List.append_assoc, List.singleton_append, parts_append_slash, hsingle,
      Nat.add_sub_cancel]

/-- **Splitting and walking agree.** The components of a path are those of its parent and
then its last one. -/
theorem splitRel_components {rel parent leaf : CStr} (h : splitRel rel = some (parent, leaf)) :
    components rel = components parent ++ [leaf] ∧ 0 < leaf.length := by
  obtain ⟨hn₁, -, hn2, -⟩ := stripSlashes_spec rel rel.length
  rw [splitRel] at h
  dsimp only at h
  generalize stripSlashes rel rel.length = n at h hn₁ hn2
  obtain ⟨hi₁, hi2, hi3⟩ := leafStart_spec rel n
  generalize leafStart rel n = i at h hi₁ hi2 hi3
  split at h
  · cases h
  · split at h
    · cases h
    · rename_i hn1 hll
      have hcomp := components_slice (by omega) hn₁ (by omega) hi3 hi2 hn2
      have hn' : n ≤ rel.chars.length := hn₁
      have hleaf : (CStr.ofBytes ((rel.chars.drop i).take (n - i))).length = n - i := by
        rw [CStr.length, CStr.ofBytes_chars fun b hb =>
          rel.nz b (List.mem_of_mem_drop (List.mem_of_mem_take hb)), List.length_take,
          List.length_drop]
        omega
      split at h
      · rename_i hi1
        cases h
        have hroot : components (CStr.ofBytes [slash]) = [] := by
          rw [components, CStr.ofBytes_chars (by simp [slash]), ← List.nil_append [slash],
            parts_append_slash, parts_nil]
          rfl
        refine ⟨?_, by rw [hleaf]; omega⟩
        rw [hcomp, hroot, Nat.sub_eq_zero_of_le hi1, List.take_zero, parts_nil]
      · cases h
        refine ⟨?_, by rw [hleaf]; omega⟩
        have hnz : ∀ b ∈ rel.chars.take (i - 1), b ≠ 0 := fun b hb =>
          rel.nz b (List.mem_of_mem_take hb)
        rw [hcomp, components, CStr.ofBytes_chars hnz]

end Crusadia
