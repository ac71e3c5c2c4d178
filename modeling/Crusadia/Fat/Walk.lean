import Crusadia.Fat.Entries
import Crusadia.Fat.Table
import Crusadia.Lib.Chain

/-!
# Crusadia.Fat.Walk

**Walks on a damaged volume.** `for_each_dirent` follows the links of the FAT until an end mark or
until its callback has what it wants; the tail searches of `alloc_dirent_slots` and
`fat32_append_file` follow them until an end mark. None of them counts its rounds. They end unless
the links come back to a cluster on the way (`walks_end_iff`): on a volume with a cycle the driver
never returns, and the VFS lock stays taken.
-/

namespace Crusadia

namespace Fat

variable {s : Fat} {c : Nat}

/-- The slots of the first `k` clusters from `c` on. -/
def slotsFrom (s : Fat) (c k : Nat) : List SlotPos :=
  (List.range k).flatMap fun i => s.clusterSlots (s.fatEntryGet^[i] c)

/-- The callback asks to stop at a slot of the first `k` clusters from `c` on. -/
def StopsBy {σ : Type} (s : Fat) (cb : Dirent → SlotPos → σ → Bool × σ) (c : Nat) (ctx : σ)
    (k : Nat) : Prop :=
  (runUntil (fun p => cb (s.dirent p) p) (s.slotsFrom c k) ctx).1 = true

theorem slotsFrom_succ (k : Nat) :
    s.slotsFrom c (k + 1) = s.clusterSlots c ++ s.slotsFrom (s.fatEntryGet c) k := by
  simp only [slotsFrom, List.range_succ_eq_map, List.flatMap_cons, List.flatMap_map,
    Function.iterate_zero_apply, Function.iterate_succ_apply]

section

variable {σ : Type} {cb : Dirent → SlotPos → σ → Bool × σ} {ctx : σ}

theorem stopsBy_succ (k : Nat) : s.StopsBy cb c ctx (k + 1) ↔
    (runUntil (fun p => cb (s.dirent p) p) (s.clusterSlots c) ctx).1 = true ∨
      s.StopsBy cb (s.fatEntryGet c)
        (runUntil (fun p => cb (s.dirent p) p) (s.clusterSlots c) ctx).2 k := by
  rw [StopsBy, slotsFrom_succ, runUntil_append]
  split
  · next h => simp only [h, true_or]
  · next h => simp only [h, Bool.false_eq_true, false_or]; rfl

/-- `for_each_dirent` ends when it comes to the end of the chain or when its callback stops it. -/
theorem forEachLoop_ends_iff : (∃ rounds, (s.forEachLoop cb rounds c ctx).isSome = true) ↔
    ∃ k, inChain (s.fatEntryGet^[k] c) = false ∨ s.StopsBy cb c ctx k := by
  constructor
  · rintro ⟨rounds, h⟩
    induction rounds generalizing c ctx with
    | zero => cases h
    | succ rounds ih =>
      rw [forEachLoop] at h
      cases hc : inChain c with
      | false => exact ⟨0, .inl hc⟩
      | true =>
        rw [hc, if_pos rfl] at h
        dsimp only at h
        split at h
        · next hstop => exact ⟨1, .inr ((stopsBy_succ 0).mpr (.inl hstop))⟩
        · obtain ⟨k, hend | hstop⟩ := ih h
          · exact ⟨k + 1, .inl hend⟩
          · exact ⟨k + 1, .inr ((stopsBy_succ k).mpr (.inr hstop))⟩
  · rintro ⟨k, h⟩
    induction k generalizing c ctx with
    | zero =>
      rcases h with hend | hstop
      · exact ⟨1, by rw [forEachLoop, show inChain c = false from hend]; rfl⟩
      · cases hstop
    | succ k ih =>
      rw [stopsBy_succ] at h
      cases hc : inChain c with
      | false => exact ⟨1, by rw [forEachLoop, hc]; rfl⟩
      | true =>
        by_cases hstop : (runUntil (fun p => cb (s.dirent p) p) (s.clusterSlots c) ctx).1 = true
        · exact ⟨1, by rw [forEachLoop, hc, if_pos rfl, if_pos hstop]; rfl⟩
        · obtain ⟨rounds, hrounds⟩ := ih (h.imp_right fun h => h.resolve_left hstop)
          exact ⟨rounds + 1, by rw [forEachLoop, hc, if_pos rfl, if_neg hstop]; exact hrounds⟩

end

/-- A tail search ends when it comes to an end mark. -/
theorem chainEnd_ends_iff : (∃ rounds, (s.chainEnd rounds c).isSome = true) ↔
    ∃ k, fatIsEoc (s.fatEntryGet^[k] (s.fatEntryGet c)) = true := by
  constructor
  · rintro ⟨rounds, h⟩
    induction rounds generalizing c with
    | zero => cases h
    | succ rounds ih =>
      rw [chainEnd] at h
      split at h
      · next heoc => exact ⟨0, heoc⟩
      · obtain ⟨k, hk⟩ := ih h
        exact ⟨k + 1, hk⟩
  · rintro ⟨k, h⟩
    induction k generalizing c with
    | zero =>
      exact ⟨1, by rw [chainEnd, if_pos (show fatIsEoc (s.fatEntryGet c) = true from h)]; rfl⟩
    | succ k ih =>
      obtain ⟨rounds, hrounds⟩ := ih h
      by_cases heoc : fatIsEoc (s.fatEntryGet c) = true
      · exact ⟨1, by rw [chainEnd, if_pos heoc]; rfl⟩
      · exact ⟨rounds + 1, by rw [chainEnd, if_neg heoc]; exact hrounds⟩

/-! ### Cycles -/

theorem finite_inChain : {c | inChain c = true}.Finite :=
  (Set.finite_lt_nat fat32ClusterEoc).subset fun _ h => inChain_lt h

theorem finite_not_eoc : {c | fatIsEoc c = false}.Finite := by
  refine (Set.finite_lt_nat fat32ClusterEoc).subset fun c (h : fatIsEoc c = false) => ?_
  simp only [fatIsEoc, Bool.or_eq_false_iff, decide_eq_false_iff_not, Nat.not_le] at h
  exact h.1

/-- **Walks end unless the links come back**: `for_each_dirent` from any directory with any
callback, and the tail search from any cluster. -/
theorem walks_end_iff (s : Fat) :
    (∀ (σ : Type) (cb : Dirent → SlotPos → σ → Bool × σ) (dirCluster : Nat) (ctx : σ),
      (∃ rounds, (s.forEachLoop cb rounds (s.dirHead dirCluster) ctx).isSome = true) ↔
        ¬ Cyclic s.fatEntryGet (fun c => inChain c = true) (s.dirHead dirCluster) ∨
          ∃ k, s.StopsBy cb (s.dirHead dirCluster) ctx k) ∧
    ∀ cluster, (∃ rounds, (s.chainEnd rounds cluster).isSome = true) ↔
      ¬ Cyclic s.fatEntryGet (fun c => fatIsEoc c = false) (s.fatEntryGet cluster) := by
  constructor
  · intro σ cb dirCluster ctx
    rw [forEachLoop_ends_iff, ← exists_not_iterate_iff finite_inChain, exists_or]
    simp only [Bool.not_eq_true]
  · intro cluster
    rw [chainEnd_ends_iff, ← exists_not_iterate_iff finite_not_eoc]
    simp only [Bool.not_eq_false]

/-- A volume whose root directory has only deleted records and continues with itself. -/
def cyclicVolume : Fat where
  disk := ⟨fun a => if a = 32 then Buf.zero.put32 8 2 else Buf.ofFn fun _ => deletedMark, []⟩
  gFat32 := ⟨512, 1, 32, 1, 1, 37, 2, 1, 0, 32, 33, 4, 2, true⟩

theorem fatEntryGet_cyclicVolume : cyclicVolume.fatEntryGet 2 = 2 := by
  have hread : cyclicVolume.blockRead (cyclicVolume.fatSector 0 2) = Buf.zero.put32 8 2 := rfl
  rw [fatEntryGet, hread, show 2 * 4 % 512 = 8 from rfl, Buf.get32_put32_same 2 (by decide)]
  rfl

theorem runUntil_never {α σ : Type} {cb : α → σ → Bool × σ} {as : List α}
    (h : ∀ a ∈ as, ∀ ctx, (cb a ctx).1 = false) (ctx : σ) : (runUntil cb as ctx).1 = false := by
  induction as generalizing ctx with
  | nil => rfl
  | cons a as ih =>
    rw [runUntil]
    simp only [h a List.mem_cons_self, Bool.false_eq_true, if_false]
    exact ih (fun b hb => h b (List.mem_cons_of_mem _ hb)) _

theorem runUntil_cyclicVolume (name : CStr) (ctx : FindCtx) :
    (runUntil (fun p => findCb name (cyclicVolume.dirent p) p) (cyclicVolume.clusterSlots 2)
      ctx).1 = false := by
  refine runUntil_never (fun p hp ctx => ?_) ctx
  simp only [clusterSlots, List.mem_flatMap, List.mem_map, List.mem_range] at hp
  obtain ⟨k, hk, i, hi, rfl⟩ := hp
  obtain rfl : k = 0 := Nat.lt_one_iff.mp hk
  have hread : cyclicVolume.blockRead (cyclicVolume.clusterToLba 2 + 0) =
      Buf.ofFn fun _ => deletedMark :=
    rfl
  have hmark : (cyclicVolume.dirent (cyclicVolume.clusterToLba 2 + 0, i)).get 0 = deletedMark := by
    rw [direntsPerSector] at hi
    rw [dirent, hread, direntAt, Buf.get_slice_lt _ (by decide), Buf.get_ofFn_lt _ (by omega)]
  rw [findCb, hmark, if_neg (by decide), if_pos rfl]

/-- Finding a name in that directory and looking for its last cluster go on for ever. -/
theorem walks_hang :
    (∀ rounds, cyclicVolume.forEachLoop (findCb (CStr.ofBytes [0x41])) rounds
      (cyclicVolume.dirHead 0) ⟨none, LfnState.zero⟩ = none) ∧
    ∀ rounds, cyclicVolume.chainEnd rounds (cyclicVolume.dirHead 0) = none := by
  have hloop : ∀ rounds ctx,
      cyclicVolume.forEachLoop (findCb (CStr.ofBytes [0x41])) rounds 2 ctx = none := by
    intro rounds
    induction rounds with
    | zero => exact fun _ => rfl
    | succ rounds ih =>
      intro ctx
      rw [forEachLoop, if_pos (by decide)]
      dsimp only
      rw [runUntil_cyclicVolume, if_neg Bool.false_ne_true, fatEntryGet_cyclicVolume]
      exact ih _
  refine ⟨fun rounds => hloop rounds _, fun rounds => ?_⟩
  induction rounds with
  | zero => rfl
  | succ rounds ih =>
    have hhead : cyclicVolume.dirHead 0 = 2 := rfl
    rw [hhead] at ih ⊢
    rw [chainEnd, fatEntryGet_cyclicVolume, if_neg (by decide)]
    exact ih

end Fat

end Crusadia
