import Crusadia.Fat.Table

/-!
# Crusadia.Fat.Alloc

**Which cluster `alloc_cluster` takes.** It searches from the hint to the end of the FAT and then
from cluster 2 to the hint. The hint comes from the FSInfo sector, and `fat32_mount` takes any
number from there: beyond the end of the volume the first pass is empty and the second one goes past
the end. `allocCluster_exact_iff` says for which volumes and hints the cluster is right; `Exact`
says what that means. A second way to miss is a volume of more than `2 ^ 30` entries, where the
32-bit offset of an entry wraps around.
-/

namespace Crusadia

namespace Fat

variable {s : Fat} {c : Nat}

/-! ### The search -/

theorem freeCluster_eq_none (h32 : s.gFat32.dataClusters + 2 < 2 ^ 32) : s.freeCluster = none ↔
    ∀ c, 2 ≤ c → c < max s.gFat32.freeClusterHint (s.gFat32.dataClusters + 2) →
      s.fatEntryGet c ≠ 0 := by
  simp only [freeCluster, Nat.mod_eq_of_lt h32, Option.orElse_eq_none,
    List.find?_range'_eq_none, Bool.not_eq_true', beq_eq_false_iff_ne]
  constructor
  · rintro ⟨hfirst, hsecond⟩ c hc hlt
    by_cases hstart : max 2 s.gFat32.freeClusterHint ≤ c
    · exact hfirst c hstart (by omega)
    · exact hsecond c hc (by omega)
  · intro h
    exact ⟨fun c hc hlt => h c (by omega) (by omega), fun c hc hlt => h c hc (by omega)⟩

/-- The search gets to cluster `c`: in its first pass, or in the second when the first finds
nothing. -/
def Reaches (s : Fat) (c : Nat) : Prop :=
  s.gFat32.freeClusterHint ≤ c ∨ ∀ x, s.gFat32.freeClusterHint ≤ x → 2 ≤ x →
    x < s.gFat32.dataClusters + 2 → s.fatEntryGet x ≠ 0

/-- What the search finds: a cluster that looks free, before any other in the order of the
passes. -/
theorem freeCluster_eq_some (h32 : s.gFat32.dataClusters + 2 < 2 ^ 32)
    (h : s.freeCluster = some c) :
    2 ≤ c ∧ c < max s.gFat32.freeClusterHint (s.gFat32.dataClusters + 2) ∧ s.fatEntryGet c = 0 ∧
      s.Reaches c ∧ ∀ x, 2 ≤ x → x < s.gFat32.dataClusters + 2 → s.fatEntryGet x = 0 →
        s.Reaches x → c ≤ x := by
  simp only [freeCluster, Nat.mod_eq_of_lt h32, Option.orElse_eq_some,
    List.find?_range'_eq_none, List.find?_range'_eq_some, Bool.not_eq_true', beq_eq_false_iff_ne,
    beq_iff_eq, List.mem_range'_1] at h
  rcases h with ⟨hfree, ⟨hge, hlt⟩, hmin⟩ | ⟨hnone, hfree, ⟨hge, hlt⟩, hmin⟩
  · refine ⟨by omega, by omega, hfree, .inl (by omega), fun x hx hxlt hx0 hpass => ?_⟩
    -- cluster `c` is free and after the hint: the candidate is one of the first pass, too
    have hhint : s.gFat32.freeClusterHint ≤ x :=
      hpass.resolve_right fun hall => hall c (by omega) (by omega) (by omega) hfree
    by_contra hlt'
    exact hmin x (by omega) (by omega) hx0
  · have hfirst : ∀ x, s.gFat32.freeClusterHint ≤ x → 2 ≤ x → x < s.gFat32.dataClusters + 2 →
        s.fatEntryGet x ≠ 0 := fun x hx hx2 hxlt => hnone x (by omega) (by omega)
    refine ⟨hge, by omega, hfree, .inr hfirst, fun x hx hxlt hx0 _ => ?_⟩
    by_contra hlt'
    exact hmin x hx (by omega) hx0

/-! ### A cluster that is taken -/

/-- A volume whose FAT copies and clusters have their own sectors, with an entry for each
cluster. -/
structure Laid (g : Fat32Fs) : Prop where
  fats : 0 < g.numFats
  entries : g.dataClusters + 2 ≤ 128 * g.fatSizeSectors
  fat : g.fatBeginLba + g.numFats * g.fatSizeSectors ≤ g.clusterBeginLba
  data : g.clusterBeginLba + g.dataClusters * g.sectorsPerCluster ≤ 2 ^ 32
  spc : 0 < g.sectorsPerCluster

/-- Sector `a` is in a FAT copy. -/
def InTable (s : Fat) (a : Nat) : Prop :=
  s.gFat32.fatBeginLba ≤ a ∧ a < s.gFat32.fatBeginLba + s.gFat32.numFats * s.gFat32.fatSizeSectors

/-- Sector `a` is in cluster `c`. -/
def InCluster (s : Fat) (c a : Nat) : Prop :=
  s.clusterToLba c ≤ a ∧ a < s.clusterToLba c + s.gFat32.sectorsPerCluster

instance (s : Fat) (c a : Nat) : Decidable (s.InCluster c a) := inferInstanceAs (Decidable (_ ∧ _))

/-- `t` is `s` with cluster `r` taken: its entry is an end mark in every copy, its sectors are zero
and no other entry or sector has changed. -/
def Taken (s t : Fat) (r : Nat) : Prop :=
  (∀ f, f < s.gFat32.numFats → ∀ c, c < 128 * s.gFat32.fatSizeSectors →
    t.fatWord f c = if c = r then withEntry (s.fatWord f c) fat32ClusterEoc else s.fatWord f c) ∧
  ∀ a, a < 2 ^ 32 → ¬ s.InTable a → t.disk.read a = if s.InCluster r a then Buf.zero
    else s.disk.read a

/-- `alloc_cluster` does what it is for. -/
def Exact (s : Fat) : Prop :=
  (s.allocCluster.1 ≠ 0 → 2 ≤ s.allocCluster.1 ∧ s.allocCluster.1 < s.gFat32.dataClusters + 2 ∧
    s.entry s.allocCluster.1 = 0 ∧ s.Taken s.allocCluster.2 s.allocCluster.1) ∧
  (s.allocCluster.1 = 0 ↔ ∀ c, 2 ≤ c → c < s.gFat32.dataClusters + 2 → s.entry c ≠ 0) ∧
  (s.allocCluster.1 = 0 → s.allocCluster.2 = s)

theorem Laid.clusters_lt (h : Laid s.gFat32) : s.gFat32.dataClusters + 2 < 2 ^ 32 := by
  have hfat : s.gFat32.fatSizeSectors ≤ s.gFat32.numFats * s.gFat32.fatSizeSectors :=
    Nat.le_mul_of_pos_left _ h.fats
  have hdata : s.gFat32.dataClusters ≤ s.gFat32.dataClusters * s.gFat32.sectorsPerCluster :=
    Nat.le_mul_of_pos_right _ h.spc
  have := h.entries
  have := h.fat
  have := h.data
  omega

theorem Laid.inCluster (h : Laid s.gFat32) {a : Nat} (hc : 2 ≤ c)
    (hlt : c < s.gFat32.dataClusters + 2)
    (ha : s.InCluster c a) : s.gFat32.clusterBeginLba ≤ a ∧ a < 2 ^ 32 := by
  obtain ⟨hge, hlt'⟩ := ha
  have hmul : (c - 2 + 1) * s.gFat32.sectorsPerCluster ≤
      s.gFat32.dataClusters * s.gFat32.sectorsPerCluster := Nat.mul_le_mul_right _ (by omega)
  rw [Nat.succ_mul] at hmul
  have := h.data
  rw [clusterToLba] at hge hlt'
  exact ⟨by omega, by omega⟩

theorem allocCluster_of_some (hfind : s.freeCluster = some c) : s.allocCluster = (c,
    { s.fatEntrySet c fat32ClusterEoc with
      gFat32 := { s.gFat32 with freeClusterHint := c + 1 } }.zeroCluster c) := by
  rw [allocCluster, hfind]
  simp only [gFat32_fatEntrySet]

section

variable (hfind : s.freeCluster = some c) (h : Laid s.gFat32) (hc : 2 ≤ c)
  (hlt : c < s.gFat32.dataClusters + 2)
include hfind h hc hlt

/-- The sectors of a cluster that has just been taken, and the others. -/
theorem blockRead_allocCluster {a : Nat} (ha : a < 2 ^ 32) : s.allocCluster.2.blockRead a =
      if s.InCluster c a then Buf.zero else (s.fatEntrySet c fat32ClusterEoc).blockRead a := by
  rw [allocCluster_of_some hfind]
  split
  · rename_i hin
    obtain ⟨k, rfl⟩ := Nat.exists_eq_add_of_le hin.1
    have hk : k < s.gFat32.sectorsPerCluster := Nat.lt_of_add_lt_add_left hin.2
    exact blockRead_fillSectors_mem hk
  · rename_i hout
    refine blockRead_fillSectors fun k hk heq => hout ?_
    have hin : s.InCluster c (s.clusterToLba c + k) := ⟨Nat.le_add_right _ _, by simpa using hk⟩
    have hsmall := (h.inCluster hc hlt hin).2
    have heq' : a = s.clusterToLba c + k := by
      rw [← Nat.mod_eq_of_lt ha, ← Nat.mod_eq_of_lt hsmall]
      exact heq
    rw [heq']
    exact hin

theorem fatWord_allocCluster {f x : Nat} (hf : f < s.gFat32.numFats)
    (hx : x < 128 * s.gFat32.fatSizeSectors) :
    s.allocCluster.2.fatWord f x = (s.fatEntrySet c fat32ClusterEoc).fatWord f x := by
  have hfs : s.allocCluster.2.gFat32 = { s.gFat32 with freeClusterHint := c + 1 } := by
    rw [allocCluster_of_some hfind]
    exact gFat32_fillSectors _ _ _ _
  have hk := copy_sector_lt hf (show x / 128 < s.gFat32.fatSizeSectors by omega)
  have hfat := h.fat
  have hdata := h.data
  rw [fatWord, hfs, blockRead_allocCluster hfind h hc hlt (by dsimp only; omega), if_neg, fatWord,
    gFat32_fatEntrySet]
  intro hin
  have := (h.inCluster hc hlt hin).1
  dsimp only at this
  omega

theorem taken_allocCluster (h30 : c < 2 ^ 30) : s.Taken s.allocCluster.2 c := by
  have hfat := h.fat
  have hdata := h.data
  constructor
  · intro f hf x hx
    rw [fatWord_allocCluster hfind h hc hlt hf hx]
    exact fatWord_fatEntrySet (by omega) (hlt.trans_le h.entries) h30 _ hf hx
  · intro a ha hout
    have hread : ∀ t : Fat, t.blockRead a = t.disk.read a := fun t => by
      rw [blockRead, Nat.mod_eq_of_lt ha]
    rw [← hread, blockRead_allocCluster hfind h hc hlt ha, blockRead_fatEntrySet_of_ne, hread]
    intro f hf heq
    have hk := copy_sector_lt hf
      (show c / 128 < s.gFat32.fatSizeSectors by have := h.entries; omega)
    rw [fatSector_of_lt h30, Nat.mod_eq_of_lt ha, Nat.mod_eq_of_lt (by omega)] at heq
    exact hout ⟨by omega, by omega⟩

/-- A cluster whose number has more than 30 bits has its entry put somewhere else. -/
theorem not_taken_of_le (h30 : 2 ^ 30 ≤ c) (hfree : s.fatEntryGet c = 0) :
    ¬ s.Taken s.allocCluster.2 c := by
  rintro ⟨hwords, -⟩
  have hfat := h.fat
  have hdata := h.data
  have hmod : c % 2 ^ 30 < 2 ^ 30 := Nat.mod_lt _ (by decide)
  have hin : c % 2 ^ 30 < 128 * s.gFat32.fatSizeSectors := by
    have := h.entries
    omega
  have hword := hwords 0 h.fats (c % 2 ^ 30) hin
  rw [if_neg (by omega), fatWord_allocCluster hfind h hc hlt h.fats hin, ← fatEntrySet_mod,
    fatWord_fatEntrySet (by omega) hin hmod _ h.fats hin, if_pos rfl] at hword
  rw [← fatEntryGet_mod, fatEntryGet_of_lt hmod, entry, ← hword, withEntry_mod] at hfree
  exact absurd hfree (by decide)

end

/-- The cluster that the search finds is the right one if its number is in range and has 30 bits. -/
theorem exact_iff_of_some (hfind : s.freeCluster = some c) (h : Laid s.gFat32) :
    s.Exact ↔ c < s.gFat32.dataClusters + 2 ∧ c < 2 ^ 30 := by
  obtain ⟨hc, -, hfree, -⟩ := freeCluster_eq_some h.clusters_lt hfind
  have hfst : s.allocCluster.1 = c := by rw [allocCluster_of_some hfind]
  have hne : c ≠ 0 := by omega
  rw [Exact, hfst]
  constructor
  · rintro ⟨htaken, -, -⟩
    obtain ⟨-, hlt, -, htaken⟩ := htaken hne
    refine ⟨hlt, Nat.lt_of_not_le fun h30 => ?_⟩
    exact not_taken_of_le hfind h hc hlt h30 hfree htaken
  · rintro ⟨hlt, h30⟩
    rw [fatEntryGet_of_lt h30] at hfree
    refine ⟨fun _ => ⟨hc, hlt, hfree, taken_allocCluster hfind h hc hlt h30⟩, ?_,
      fun h0 => absurd h0 hne⟩
    exact iff_of_false hne fun hall => hall c hc hlt hfree

/-- **The cluster that `alloc_cluster` takes is the right one** exactly when the search gets to a
free cluster of the volume, or when there is none and nothing beyond the end of the volume looks
free. -/
theorem allocCluster_exact_iff (s : Fat) (h : Laid s.gFat32) : s.Exact ↔
    (∃ c, 2 ≤ c ∧ c < s.gFat32.dataClusters + 2 ∧ c < 2 ^ 30 ∧ s.entry c = 0 ∧ s.Reaches c) ∨
      (∀ c, 2 ≤ c → c < s.gFat32.dataClusters + 2 → s.entry c ≠ 0) ∧
        ∀ c, 2 ≤ c → c < max s.gFat32.freeClusterHint (s.gFat32.dataClusters + 2) →
          s.fatEntryGet c ≠ 0 := by
  cases hfind : s.freeCluster with
  | none =>
    have hnone := (freeCluster_eq_none h.clusters_lt).mp hfind
    have halloc : s.allocCluster = (0, s) := by rw [allocCluster, hfind]
    rw [Exact, halloc]
    constructor
    · rintro ⟨-, hfull, -⟩
      exact .inr ⟨hfull.mp rfl, hnone⟩
    · rintro (⟨c, hc, hlt, h30, hfree, -⟩ | ⟨hfull, -⟩)
      · rw [← fatEntryGet_of_lt h30] at hfree
        exact absurd hfree (hnone c hc (lt_max_of_lt_right hlt))
      · exact ⟨fun hne => absurd rfl hne, iff_of_true rfl hfull, fun _ => rfl⟩
  | some c =>
    obtain ⟨hc, hmax, hfree, hreach, hfirst⟩ := freeCluster_eq_some h.clusters_lt hfind
    rw [exact_iff_of_some hfind h]
    constructor
    · rintro ⟨hlt, h30⟩
      exact .inl ⟨c, hc, hlt, h30, by rw [← fatEntryGet_of_lt h30]; exact hfree, hreach⟩
    · rintro (⟨x, hx, hlt, h30, hxfree, hxreach⟩ | ⟨-, hnone⟩)
      · rw [← fatEntryGet_of_lt h30] at hxfree
        have hle := hfirst x hx hlt hxfree hxreach
        exact ⟨by omega, by omega⟩
      · exact absurd hfree (hnone c hc hmax)

theorem fatEntryGet_smallVolume (m hint : Nat) (hc : c < 128) :
    (smallVolume (marksUpTo m) hint).fatEntryGet c = if c < m then 0x0FFFFFFF else 0 := by
  have hread : (smallVolume (marksUpTo m) hint).blockRead (32 + 0 * 1 + c / 128) = marksUpTo m := by
    rw [Nat.div_eq_of_lt hc]
    rfl
  rw [fatEntryGet_of_lt (by omega), entry, fatWord]
  refine (congrArg (fun sec => Buf.get32 sec (c % 128 * 4) % 2 ^ 28) hread).trans ?_
  rw [get32_marksUpTo (Nat.mod_lt _ (by decide)), Nat.mod_eq_of_lt hc]
  split <;> rfl

theorem laid_smallVolume (fat : Sector) (hint : Nat) : Laid (smallVolume fat hint).gFat32 where
  fats := Nat.zero_lt_two
  entries := show 4 + 2 ≤ 128 * 1 by decide
  fat := show 32 + 2 * 1 ≤ 34 by decide
  data := show 34 + 4 * 1 ≤ 2 ^ 32 by decide
  spc := Nat.one_pos

/-- With a hint beyond the end and a free cluster before it. -/
theorem allocCluster_exact_beyond : Laid (smallVolume (marksUpTo 5) 100).gFat32 ∧
    (smallVolume (marksUpTo 5) 100).Exact := by
  refine ⟨laid_smallVolume _ _, (allocCluster_exact_iff _ (laid_smallVolume _ _)).mpr ?_⟩
  have hfree := fatEntryGet_smallVolume (c := 5) 5 100 (by decide)
  rw [fatEntryGet_of_lt (by decide), if_neg (by decide)] at hfree
  refine .inl ⟨5, by decide, by decide, by decide, hfree, .inr fun x hx _ hlt => ?_⟩
  exact absurd (hx.trans_lt hlt) (by decide)

/-- The four clusters are in use and the hint is 100: cluster 6 of 2 to 5 is taken. -/
theorem allocCluster_beyond_end : (smallVolume (marksUpTo 6) 100).allocCluster.1 = 6 ∧
    ¬ (smallVolume (marksUpTo 6) 100).Exact := by
  have hfind : (smallVolume (marksUpTo 6) 100).freeCluster = some 6 := by
    rw [freeCluster, Option.orElse_eq_some]
    -- the first pass is empty
    refine .inr ⟨rfl, List.find?_range'_eq_some.mpr ⟨?_, ?_, fun c _ hlt => ?_⟩⟩
    · rw [fatEntryGet_smallVolume 6 100 (by decide)]
      rfl
    · exact List.mem_range'_1.mpr ⟨by decide, by decide⟩
    · rw [fatEntryGet_smallVolume 6 100 (by omega), if_pos hlt]
      rfl
  refine ⟨by rw [allocCluster_of_some hfind], ?_⟩
  rw [exact_iff_of_some hfind (laid_smallVolume _ _)]
  rintro ⟨hlt, -⟩
  exact absurd hlt (by decide)

end Fat

end Crusadia
