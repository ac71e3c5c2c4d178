import Crusadia.Lib.Mem

/-!
# Crusadia.Lib.Bytes

What lies **at an address**: a list of bytes, a table of 32-bit words, a row of strings with
their terminators. Two neighbours in memory are one list (`holds_append`), so a layout is
written down as one list of bytes and read back piece by piece.
-/

namespace Crusadia.Mem

variable {m : Mem} {a i : Nat}

/-- The bytes from `a` on are `data`. -/
def Holds (m : Mem) (a : Nat) (data : List Byte) : Prop :=
  ∀ i b, data[i]? = some b → m (a + i) = b

theorem Holds.byte {data : List Byte} (h : m.Holds a data) (hi : i < data.length) :
    m (a + i) = data[i] := h i _ (List.getElem?_eq_getElem hi)

theorem holds_append {xs ys : List Byte} :
    m.Holds a (xs ++ ys) ↔ m.Holds a xs ∧ m.Holds (a + xs.length) ys := by
  refine ⟨fun h => ⟨fun i b hb => ?_, fun i b hb => ?_⟩, fun ⟨hx, hy⟩ i b hb => ?_⟩
  · obtain ⟨hi, -⟩ := List.getElem?_eq_some_iff.mp hb
    exact h i b (by rwa [List.getElem?_append_left hi])
  · rw [Nat.add_assoc]
    exact h _ b (by rwa [List.getElem?_append_right (Nat.le_add_right _ _),
      Nat.add_sub_cancel_left])
  · rcases Nat.lt_or_ge i xs.length with hi | hi
    · exact hx i b (by rwa [List.getElem?_append_left hi] at hb)
    · rw [List.getElem?_append_right hi] at hb
      have := hy _ b hb
      rwa [Nat.add_assoc, Nat.add_sub_cancel' hi] at this

/-! ### Words -/

/-- The four bytes of a word. -/
def word (w : Nat) : List Byte := (List.range 4).map (Buf.leByte w)

@[simp] theorem length_word (w : Nat) : (word w).length = 4 := by simp [word]

/-- A table of words. -/
def words (ws : List Nat) : List Byte := ws.flatMap word

@[simp] theorem words_nil : words [] = [] := rfl

@[simp] theorem words_cons (w : Nat) (ws : List Nat) : words (w :: ws) = word w ++ words ws := rfl

theorem words_append (xs ys : List Nat) : words (xs ++ ys) = words xs ++ words ys :=
  List.flatMap_append

@[simp] theorem length_words (ws : List Nat) : (words ws).length = 4 * ws.length := by
  induction ws with
  | nil => rfl
  | cons w ws ih =>
    rw [words_cons, List.length_append, ih, length_word, List.length_cons]
    omega

theorem Holds.get32_word {w : Nat} (h : m.Holds a (word w)) : m.get32 a = w % 2 ^ 32 :=
  get32_of_leByte fun k hk => by
    rw [h.byte (by simpa using hk)]
    simp [word]

theorem Holds.get32_words {ws : List Nat} (h : m.Holds a (words ws)) (hi : i < ws.length) :
    m.get32 (a + 4 * i) = ws.getD i 0 % 2 ^ 32 := by
  induction ws generalizing a i with
  | nil => simp at hi
  | cons w ws ih =>
    obtain ⟨hw, hws⟩ := holds_append.mp (words_cons w ws ▸ h)
    cases i with
    | zero => exact hw.get32_word
    | succ i =>
      rw [List.length_cons] at hi
      rw [length_word] at hws
      rw [List.getD_cons_succ, ← ih hws (by omega)]
      congr 1
      omega

/-! ### Strings -/

/-- Strings with their terminators, one behind the other. -/
def strings (strs : List (List Byte)) : List Byte := strs.flatMap (· ++ [0])

@[simp] theorem strings_nil : strings [] = [] := rfl

@[simp] theorem strings_cons (t : List Byte) (strs : List (List Byte)) :
    strings (t :: strs) = (t ++ [0]) ++ strings strs := rfl

@[simp] theorem strings_append (xs ys : List (List Byte)) :
    strings (xs ++ ys) = strings xs ++ strings ys := List.flatMap_append

/-- The addresses of the strings of a row that starts at `a`. -/
def places : Nat → List (List Byte) → List Nat
  | _, [] => []
  | a, t :: strs => a :: places (a + (t.length + 1)) strs

@[simp] theorem length_places (a : Nat) (strs : List (List Byte)) :
    (places a strs).length = strs.length := by
  induction strs generalizing a with
  | nil => rfl
  | cons t strs ih => rw [places, List.length_cons, ih, List.length_cons]

theorem places_append (a : Nat) (xs ys : List (List Byte)) :
    places a (xs ++ ys) = places a xs ++ places (a + (strings xs).length) ys := by
  induction xs generalizing a with
  | nil => rfl
  | cons t xs ih =>
    rw [List.cons_append, places, ih, places, List.cons_append, strings_cons, List.length_append,
      List.length_append, List.length_singleton, Nat.add_assoc]

/-- Each string is where `places` says, with its terminator. -/
theorem Holds.string {strs : List (List Byte)} (h : m.Holds a (strings strs))
    (hi : i < strs.length) : m.Holds ((places a strs).getD i 0) (strs.getD i [] ++ [0]) := by
  induction strs generalizing a i with
  | nil => simp at hi
  | cons t strs ih =>
    obtain ⟨ht, hs⟩ := holds_append.mp (strings_cons t strs ▸ h)
    cases i with
    | zero => exact ht
    | succ i =>
      rw [List.length_append, List.length_singleton] at hs
      exact ih hs (Nat.lt_of_succ_lt_succ hi)

/-- The strings of the row: where they start and how many bytes they take. -/
def spans (a : Nat) (strs : List (List Byte)) : List (Nat × Nat) :=
  (places a strs).zip (strs.map fun t => t.length + 1)

@[simp] theorem spans_nil (a : Nat) : spans a [] = [] := rfl

theorem spans_cons (a : Nat) (t : List Byte) (strs : List (List Byte)) :
    spans a (t :: strs) = (a, t.length + 1) :: spans (a + (t.length + 1)) strs := rfl

theorem spans_append (a : Nat) (xs ys : List (List Byte)) :
    spans a (xs ++ ys) = spans a xs ++ spans (a + (strings xs).length) ys := by
  rw [spans, places_append, List.map_append, List.zip_append (by simp)]
  rfl

theorem mem_spans {strs : List (List Byte)} {p : Nat × Nat} (h : p ∈ spans a strs) :
    a ≤ p.1 ∧ p.1 + p.2 ≤ a + (strings strs).length := by
  induction strs generalizing a with
  | nil => simp at h
  | cons t strs ih =>
    rw [strings_cons, List.length_append, List.length_append, List.length_singleton]
    rcases List.mem_cons.mp (spans_cons a t strs ▸ h) with rfl | h
    · dsimp only
      omega
    · have := ih h
      omega

/-- Each string ends before the next one starts. -/
theorem pairwise_spans (a : Nat) (strs : List (List Byte)) :
    (spans a strs).Pairwise fun p q => p.1 + p.2 ≤ q.1 := by
  induction strs generalizing a with
  | nil => exact List.Pairwise.nil
  | cons t strs ih =>
    rw [spans_cons, List.pairwise_cons]
    exact ⟨fun q hq => (mem_spans hq).1, ih _⟩

end Crusadia.Mem
