import Mathlib.Data.Set.Card
import Mathlib.Data.Set.Finite.Range
import Mathlib.Data.Fintype.Card
import Mathlib.Logic.Function.Basic

/-!
# Crusadia.Lib.SlotMap

**A table of slots as a finite map.** Each slot is free or holds a key and a value, and no key is in
two slots. Filling a free slot inserts a key, freeing a slot erases one, and there are as many keys
as slots that are taken.
-/

namespace Crusadia

variable {ι K V : Type*}

/-- The table `T` holds the map `m`. -/
structure SlotMap (T : ι → Option (K × V)) (m : K → Option V) : Prop where
  mem : ∀ k v, m k = some v ↔ ∃ i, T i = some (k, v)
  unique : ∀ i j k v w, T i = some (k, v) → T j = some (k, w) → i = j

namespace SlotMap

variable {T : ι → Option (K × V)} {m : K → Option V}

theorem empty (h : ∀ i, T i = none) : SlotMap T fun _ => none where
  mem k v := by simp [h]
  unique i j k v w hi := by simp [h] at hi

theorem eq_none (h : SlotMap T m) {k : K} : m k = none ↔ ∀ i v, T i ≠ some (k, v) := by
  rw [Option.eq_none_iff_forall_ne_some]
  constructor
  · exact fun hk i v hi => hk v ((h.mem k v).mpr ⟨i, hi⟩)
  · rintro hT v hv
    obtain ⟨i, hi⟩ := (h.mem k v).mp hv
    exact hT i v hi

section update

variable [DecidableEq ι] [DecidableEq K]

/-- The other keys do not see a slot that has not been theirs and is not now. -/
theorem mem_of_ne (h : SlotMap T m) {i : ι} {k k' : K} {x : Option (K × V)} (o : Option V) {v' : V}
    (hkk : k' ≠ k) (hi : ∀ v, T i ≠ some (k', v)) (hx : ∀ v, x ≠ some (k', v)) :
    Function.update m k o k' = some v' ↔ ∃ j, Function.update T i x j = some (k', v') := by
  rw [Function.update_of_ne hkk, h.mem]
  refine exists_congr fun j => ?_
  by_cases hji : j = i
  · rw [hji, Function.update_self]
    exact iff_of_false (hi v') (hx v')
  · rw [Function.update_of_ne hji]

/-- A new key goes into a free slot. -/
theorem insert (h : SlotMap T m) {i : ι} {k : K} (v : V) (hi : T i = none) (hk : m k = none) :
    SlotMap (Function.update T i (some (k, v))) (Function.update m k (some v)) where
  mem k' v' := by
    by_cases hkk : k' = k
    · subst hkk
      rw [Function.update_self]
      constructor
      · rintro ⟨⟩
        exact ⟨i, by simp⟩
      · rintro ⟨j, hj⟩
        by_cases hji : j = i
        · subst hji
          simp at hj
          rw [hj]
        · rw [Function.update_of_ne hji] at hj
          exact absurd hj (h.eq_none.mp hk j v')
    · exact h.mem_of_ne _ hkk (by simp [hi]) (by simp [Ne.symm hkk])
  unique a b k' x y ha hb := by
    simp only [Function.update_apply] at ha hb
    split at ha <;> split at hb
    · simp_all
    · cases ha
      exact absurd hb (h.eq_none.mp hk b y)
    · cases hb
      exact absurd ha (h.eq_none.mp hk a x)
    · exact h.unique a b k' x y ha hb

/-- A slot is freed, and its key is gone. -/
theorem erase (h : SlotMap T m) {i : ι} {k : K} {v : V} (hi : T i = some (k, v)) :
    SlotMap (Function.update T i none) (Function.update m k none) where
  mem k' v' := by
    by_cases hkk : k' = k
    · subst hkk
      refine iff_of_false (by simp) ?_
      rintro ⟨j, hj⟩
      by_cases hji : j = i
      · simp [hji] at hj
      · rw [Function.update_of_ne hji] at hj
        exact hji (h.unique j i k' v' v hj hi)
    · exact h.mem_of_ne _ hkk (by simp [hi, Ne.symm hkk]) (by simp)
  unique a b k' x y ha hb := by
    simp only [Function.update_apply] at ha hb
    split at ha
    · cases ha
    · split at hb
      · cases hb
      · exact h.unique a b k' x y ha hb

end update

/-- There are as many keys as taken slots. -/
theorem ncard (h : SlotMap T m) : {k | m k ≠ none}.ncard = {i | T i ≠ none}.ncard := by
  symm
  refine Set.ncard_congr (fun i hi => ((T i).get (Option.isSome_iff_ne_none.mpr hi)).1) ?_ ?_ ?_
  · intro i hi
    obtain ⟨⟨k, v⟩, hkv⟩ := Option.ne_none_iff_exists'.mp hi
    simp only [hkv, Option.get_some]
    exact Option.ne_none_iff_exists'.mpr ⟨v, (h.mem k v).mpr ⟨i, hkv⟩⟩
  · intro i j hi hj hij
    obtain ⟨⟨k, v⟩, hi⟩ := Option.ne_none_iff_exists'.mp hi
    obtain ⟨⟨k', w⟩, hj⟩ := Option.ne_none_iff_exists'.mp hj
    simp only [hi, hj, Option.get_some] at hij
    subst hij
    exact h.unique i j k v w hi hj
  · intro k hk
    obtain ⟨v, hv⟩ := Option.ne_none_iff_exists'.mp hk
    obtain ⟨i, hi⟩ := (h.mem k v).mp hv
    exact ⟨i, fun h0 => absurd (h0.symm.trans hi) (by simp), by simp [hi]⟩

section card

variable [Finite ι]

theorem ncard_le (h : SlotMap T m) : {k | m k ≠ none}.ncard ≤ Nat.card ι :=
  h.ncard ▸ Set.ncard_le_card _

theorem finite (h : SlotMap T m) : {k | m k ≠ none}.Finite := by
  have hran : (Set.range fun i => (T i).map Prod.fst).Finite := Set.finite_range _
  refine (hran.preimage (Option.some_injective K).injOn).subset fun k hk => ?_
  obtain ⟨v, hv⟩ := Option.ne_none_iff_exists'.mp hk
  obtain ⟨i, hi⟩ := (h.mem k v).mp hv
  exact ⟨i, by simp [hi]⟩

end card

end SlotMap

end Crusadia
