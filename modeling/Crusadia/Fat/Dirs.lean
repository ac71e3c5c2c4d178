import Crusadia.Fat.ShortName
import Crusadia.Fat.Table
import Crusadia.Lib.Chain

/-!
# Crusadia.Fat.Dirs

**Directories of any volume.** Nothing is assumed of the FAT: a directory is what `for_each_dirent`
visits until it comes to an end mark in a cluster or to the end of the links (`DirClusters`). A
walk that ends visits no cluster twice, so the bound on its rounds is never used up, and every
callback that stops at an end mark is run along the slots (`forEachDirent_eq`).
-/

namespace Crusadia

namespace Fat

variable {s : Fat} {a dc : Nat} {l : List Nat}

/-- A cluster with an end mark in it. -/
def hasMark (s : Fat) (c : Nat) : Bool := (s.clusterSlots c).any fun p => (s.dirent p).get 0 == 0

/-- The cluster at which the walk of a directory goes on; 0 when it is over. -/
def dirNext (s : Fat) (c : Nat) : Nat := if s.hasMark c then 0 else s.fatEntryGet c

/-- `l` are the clusters that the walk of the directory at `a` comes to. -/
abbrev DirClusters (s : Fat) (a : Nat) (l : List Nat) : Prop :=
  Chain s.dirNext (fun c => inChain c = true) (fun c => inChain c = false) a l

/-- The slots of the clusters. -/
def dirSlots (s : Fat) (l : List Nat) : List SlotPos := l.flatMap s.clusterSlots

/-- The live records of the directory, with their names. -/
def dirEntries (s : Fat) (l : List Nat) : List (SlotPos × CStr) :=
  entries s.dirent LfnState.zero (s.dirSlots l)

theorem DirClusters.length_lt (h : s.DirClusters a l) : l.length < walkBound := by
  have hnodup := h.nodup fun c hc hc' => by rw [hc] at hc'; cases hc'
  have hsub : l ⊆ List.range fat32ClusterEoc :=
    fun c hc => List.mem_range.mpr (inChain_lt (h.ok c hc))
  have hlen := (List.subperm_of_subset hnodup hsub).length_le
  rw [List.length_range] at hlen
  exact Nat.lt_of_le_of_lt hlen (by decide)

/-- A callback that stops at a slot stops a run that comes to it. -/
theorem runUntil_stops {α σ : Type} (cb : α → σ → Bool × σ) {x : α} {as : List α} (hx : x ∈ as)
    (hstop : ∀ ctx, (cb x ctx).1 = true) (ctx : σ) : (runUntil cb as ctx).1 = true := by
  induction as generalizing ctx with
  | nil => cases hx
  | cons b as ih =>
    rw [runUntil]
    split
    · next h => exact h
    · next h =>
        rcases List.mem_cons.mp hx with rfl | hx
        · exact absurd (hstop ctx) h
        · exact ih hx _

variable {σ : Type} {cb : Dirent → SlotPos → σ → Bool × σ}

theorem forEachLoop_eq (hcb : ∀ e p ctx, e.get 0 = 0 → (cb e p ctx).1 = true)
    (h : s.DirClusters a l) {n : Nat} (hn : l.length < n) (ctx : σ) :
    s.forEachLoop cb n a ctx =
      some (runUntil (fun p => cb (s.dirent p) p) (s.dirSlots l) ctx).2 := by
  induction l generalizing a n ctx with
  | nil =>
    obtain ⟨n, rfl⟩ : ∃ m, n = m + 1 := ⟨n - 1, by omega⟩
    rw [forEachLoop, Chain.nil_iff.mp h]
    rfl
  | cons x l ih =>
    obtain ⟨n, rfl⟩ : ∃ m, n = m + 1 := ⟨n - 1, by omega⟩
    obtain ⟨rfl, hin, hrest⟩ := Chain.cons_iff.mp h
    have hslots : s.dirSlots (x :: l) = s.clusterSlots x ++ s.dirSlots l := rfl
    rw [forEachLoop, hin, if_pos rfl, hslots, runUntil_append]
    dsimp only
    split
    · rfl
    · next hgo =>
        -- the callback has not stopped, so there is no end mark in the cluster
        have hmark : s.hasMark x = false := by
          rw [← Bool.not_eq_true, hasMark, List.any_eq_true]
          rintro ⟨p, hp, hzero⟩
          have hstop : ∀ ctx, (cb (s.dirent p) p ctx).1 = true := fun ctx =>
            hcb _ p ctx (eq_of_beq hzero)
          exact hgo (runUntil_stops (fun p => cb (s.dirent p) p) hp hstop ctx)
        rw [dirNext, hmark, if_neg Bool.false_ne_true] at hrest
        exact ih hrest (by rw [List.length_cons] at hn; omega) _

theorem forEachDirent_eq (hcb : ∀ e p ctx, e.get 0 = 0 → (cb e p ctx).1 = true)
    (h : s.DirClusters (s.dirHead dc) l) (ctx : σ) :
    s.forEachDirent dc cb ctx = some (runUntil (fun p => cb (s.dirent p) p) (s.dirSlots l) ctx).2 :=
  forEachLoop_eq hcb h h.length_lt ctx

theorem findInDir_eq (h : s.DirClusters (s.dirHead dc) l) (name : CStr) :
    s.findInDir dc name =
      some (((s.dirEntries l).find? fun x => ciEq x.2 name).map fun x => (s.dirent x.1, x.1)) := by
  rw [Fat.findInDir, forEachDirent_eq (fun e p ctx h0 => by rw [findCb, if_pos h0]) h,
    Option.map_some, runUntil_findCb, dirEntries]

theorem shortNameExists_eq (h : s.DirClusters (s.dirHead dc) l) (n11 : Buf 11) :
    ∃ b, s.shortNameExists dc n11 = some b ∧
      (b = true ↔ n11 ∈ (s.dirEntries l).map fun x => (s.dirent x.1).name) := by
  refine ⟨_, forEachDirent_eq (fun e p ctx h0 => by rw [shortExistsCb, if_pos h0]) h false, ?_⟩
  rw [runUntil_shortExistsCb n11 LfnState.zero, List.any_eq_true, List.mem_map]
  exact exists_congr fun x => and_congr_right fun _ => decide_eq_true_iff

/-! ### Live records by position -/

/-- The slots before the end mark. -/
def beforeMark (s : Fat) (l : List Nat) : List SlotPos :=
  (s.dirSlots l).takeWhile fun p => (s.dirent p).get 0 ≠ 0

theorem map_fst_entries (rec : SlotPos → Dirent) (lfn : LfnState) (ps : List SlotPos) :
    (entries rec lfn ps).map Prod.fst =
      (ps.takeWhile fun p => (rec p).get 0 ≠ 0).filter fun p => (rec p).Live := by
  induction ps generalizing lfn with
  | nil => rfl
  | cons p ps ih =>
    by_cases h0 : (rec p).get 0 = 0
    · rw [entries_zero h0, List.takeWhile_cons_of_neg (by simpa using h0)]
      rfl
    · rw [List.takeWhile_cons_of_pos (by simpa using h0)]
      by_cases hl : (rec p).Live
      · rw [entries_live hl, List.filter_cons_of_pos (by simpa using hl), List.map_cons, ih]
      · rw [entries_skip h0 hl, List.filter_cons_of_neg (by simpa using hl), ih]

theorem map_fst_dirEntries (s : Fat) (l : List Nat) :
    (s.dirEntries l).map Prod.fst = (s.beforeMark l).filter fun p => (s.dirent p).Live :=
  map_fst_entries _ _ _

/-- **The short name of a new record.** A name that needs no long name is stored as it is; for any
other name `gen_short_name` returns a valid name that no live record of the directory has. -/
theorem shortName_valid (s : Fat) (h : s.DirClusters (s.dirHead dc) l)
    (hfew : ((s.beforeMark l).filter fun p => (s.dirent p).Live).length < 999999) (name : CStr) :
    (nameNeedsLfn name = false → nameFrom83 (nameTo83 name) = name) ∧
      (nameNeedsLfn name = true → ∃ n11, s.genShortName dc name = some n11 ∧ Valid83 n11 ∧
        ∀ p ∈ s.beforeMark l, (s.dirent p).get 0 ≠ deletedMark → (s.dirent p).attr ≠ fat32AttrLfn →
          (s.dirent p).name ≠ n11) := by
  refine ⟨nameFrom83_nameTo83, fun hneed => ?_⟩
  obtain ⟨n, h₁, h₂, heq, htaken⟩ := genShortNameLoop_eq (shortNameExists_eq h) name 999999 1
    (by omega) rfl fun m _ _ => by omega
  refine ⟨_, heq, valid83_candidate h₂, fun p hp hdel hlfn hsame => ?_⟩
  have hlen : ((s.dirEntries l).map fun x => (s.dirent x.1).name).length < 999999 := by
    rw [List.length_map, ← List.length_map (f := Prod.fst), map_fst_dirEntries]
    exact hfew
  obtain ⟨m, hm₁, hm₂, hfree⟩ := exists_candidate_notMem name hlen
  refine hfree (htaken ?_ m hm₁ hm₂)
  -- the record at `p` is among the live ones
  have hne : (s.dirent p).get 0 ≠ 0 := by simpa using List.mem_takeWhile_imp hp
  have hmem : p ∈ (s.dirEntries l).map Prod.fst := by
    rw [map_fst_dirEntries, List.mem_filter]
    exact ⟨hp, decide_eq_true ⟨hne, hdel, hlfn⟩⟩
  obtain ⟨x, hx, rfl⟩ := List.mem_map.mp hmem
  exact List.mem_map.mpr ⟨x, hx, hsame⟩

/-- The name `"a.b"`. -/
def abName : CStr := CStr.ofBytes [0x61, 0x2E, 0x62]

/-- A volume whose root directory, at cluster 2, has one record: of the name `"A~1.B"`. -/
def oneRecord : Fat where
  disk := ⟨fun a => if a = 33 then Buf.ofFn fun i =>
    [0x41, 0x7E, 0x31, 0x20, 0x20, 0x20, 0x20, 0x20, 0x42, 0x20, 0x20].getD i 0 else Buf.zero, []⟩
  gFat32 := ⟨512, 1, 32, 1, 1, 37, 2, 1, 0, 32, 33, 4, 2, true⟩

/-- The first candidate for `"a.b"` is taken. -/
theorem shortName_valid_oneRecord : nameNeedsLfn abName = true ∧
    (oneRecord.dirent (33, 0)).name = candidate abName 1 ∧
    ∃ n11, oneRecord.genShortName 0 abName = some n11 ∧ Valid83 n11 ∧
      n11 ≠ candidate abName 1 := by
  have hclusters : oneRecord.DirClusters (oneRecord.dirHead 0) [2] :=
    Chain.cons_iff.mpr ⟨rfl, by decide, Chain.nil_iff.mpr (by decide +kernel)⟩
  have hmark : oneRecord.beforeMark [2] = [(33, 0)] := by decide +kernel
  have hneed : nameNeedsLfn abName = true := by decide
  have hname : (oneRecord.dirent (33, 0)).name = candidate abName 1 := by decide +kernel
  obtain ⟨n11, hgen, hvalid, hfree⟩ := (shortName_valid oneRecord hclusters
    (by rw [hmark]; decide +kernel) abName).2 hneed
  refine ⟨hneed, hname, n11, hgen, hvalid, fun heq => ?_⟩
  exact hfree (33, 0) (by rw [hmark]; exact List.mem_cons_self) (by decide +kernel)
    (by decide +kernel) (hname.trans heq.symm)

end Fat

end Crusadia
