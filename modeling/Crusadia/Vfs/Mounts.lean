import Crusadia.Vfs.Normalize
import Crusadia.Vfs.Calls

/-!
# Crusadia.Vfs.Mounts

**Mount lookup** (`find_mount`). The code compares texts: a mountpoint of `n` characters must
agree with the first `n` of the path, the next one must be a slash or the end, and the longest
mountpoint wins. On canonical paths that is a statement about components (`pathWithin_iff`),
and since the mountpoints that lie on one path are prefixes of each other, the longest text is
the one with the most components (`length_lt_iff`).
-/

namespace Crusadia

/-- A path as `normalize` returns it. -/
def Canonical (s : CStr) : Prop := ∃ cs, (∀ c ∈ cs, Proper c) ∧ s.chars = absPath cs

/-- The components of a path, in lower case. -/
def lcComps (s : CStr) : List (List Byte) := (comps s.chars).map (·.map lc)

/-- `base` is a component-wise prefix of `path`, ignoring case. -/
def Below (path base : CStr) : Prop := lcComps base <+: lcComps path

@[simp] theorem lc_eq_slash {b : Byte} : lc b = slash ↔ b = slash := by
  revert b
  decide

theorem lc_slash : lc slash = slash := rfl

theorem IsComp.map_lc {c : List Byte} (h : IsComp c) : IsComp (c.map lc) := by
  refine ⟨by simpa using h.1, fun hs => ?_⟩
  obtain ⟨b, hb, heq⟩ := List.mem_map.mp hs
  exact h.2 (lc_eq_slash.mp heq ▸ hb)

theorem map_lc_basePath (cs : List (List Byte)) :
    (basePath cs).map lc = basePath (cs.map (·.map lc)) := by
  simp [basePath, List.map_flatMap, List.flatMap_map, lc_slash]

theorem basePath_append' (xs ys : List (List Byte)) :
    basePath (xs ++ ys) = basePath xs ++ basePath ys := List.flatMap_append

theorem two_le_length_basePath {cs : List (List Byte)} (h : ∀ c ∈ cs, IsComp c) (h0 : cs ≠ []) :
    2 ≤ (basePath cs).length := by
  obtain ⟨c, cs, rfl⟩ := List.exists_cons_of_ne_nil h0
  have := List.length_pos_iff.mpr (h c List.mem_cons_self).1
  simp [basePath]
  omega

/-- More components make a longer text. -/
theorem length_absPath_lt {xs ys : List (List Byte)} (h : ∀ c ∈ xs ++ ys, IsComp c)
    (hys : ys ≠ []) : (absPath xs).length < (absPath (xs ++ ys)).length := by
  have htwo := two_le_length_basePath (fun c hc => h c (List.mem_append_right xs hc)) hys
  have hne : xs ++ ys ≠ [] := by simp [hys]
  rw [absPath_eq (xs ++ ys), if_neg hne, basePath_append', List.length_append, absPath_eq]
  split
  · change 1 < _
    omega
  · omega

variable {path base other : CStr}

theorem isComp_of_mem_lcComps {c : List Byte} (h : c ∈ lcComps path) : IsComp c := by
  obtain ⟨d, hd, rfl⟩ := List.mem_map.mp h
  exact (isComp_of_mem_comps hd).1.map_lc

/-- The text of a canonical path in lower case. -/
theorem Canonical.map_lc (h : Canonical path) : path.chars.map lc = absPath (lcComps path) := by
  obtain ⟨cs, hcs, hpath⟩ := h
  have hcomps : lcComps path = cs.map (·.map lc) := by
    rw [lcComps, hpath, comps_absPath fun c hc => (hcs c hc).1]
  rw [hcomps, hpath, absPath_eq, absPath_eq]
  by_cases h0 : cs = []
  · simp [h0, lc_slash]
  · rw [if_neg h0, if_neg (by simpa using h0), map_lc_basePath]

theorem Canonical.length (h : Canonical path) : path.length = (absPath (lcComps path)).length := by
  rw [← h.map_lc, List.length_map, CStr.length]

theorem Canonical.length_eq_one (h : Canonical path) : path.length = 1 ↔ lcComps path = [] := by
  rw [h.length]
  constructor
  · intro hlen
    by_contra h0
    have hall : ∀ c ∈ [] ++ lcComps path, IsComp c := fun c hc => isComp_of_mem_lcComps hc
    have hlt := length_absPath_lt hall h0
    rw [List.nil_append, hlen] at hlt
    exact absurd hlt (by decide)
  · intro h0
    rw [h0]
    rfl

/-- **`path_within` compares components.** -/
theorem pathWithin_iff (hp : Canonical path) (hb : Canonical base) :
    pathWithin path base = true ↔ Below path base := by
  unfold pathWithin Below
  by_cases hone : base.length = 1
  · simp [hone, hb.length_eq_one.mp hone]
  have hb0 : lcComps base ≠ [] := fun h0 => hone (hb.length_eq_one.mpr h0)
  have hbase : base.chars.map lc = basePath (lcComps base) := by
    rw [hb.map_lc, absPath_eq, if_neg hb0]
  have hlen : (basePath (lcComps base)).length = base.length := by
    rw [← hbase, List.length_map, CStr.length]
  have hcomps : comps (path.chars.map lc) = lcComps path := by
    rw [hp.map_lc, comps_absPath fun c hc => isComp_of_mem_lcComps hc]
  simp only [hone, beq_iff_eq, Bool.or_eq_true, Bool.and_eq_true, false_or, List.map_take]
  constructor
  · rintro ⟨htake, hend⟩
    -- the rest of the path starts a component or is empty
    have hsplit := List.take_append_drop base.length (path.chars.map lc)
    rw [htake, hbase, ← List.map_drop] at hsplit
    rcases hend with hend | hend
    · have hge : path.chars.length ≤ base.length := by
        by_contra hlt
        exact CStr.at_ne_zero (Nat.lt_of_not_le hlt) hend
      rw [List.drop_eq_nil_of_le hge, List.map_nil, List.append_nil] at hsplit
      rw [← hcomps, ← hsplit, comps_basePath fun c hc => isComp_of_mem_lcComps hc]
    · have hlt : base.length < path.chars.length := by
        by_contra hge
        rw [CStr.at_of_ge (Nat.le_of_not_lt hge)] at hend
        exact absurd hend (by decide)
      rw [List.drop_eq_getElem_cons hlt, List.map_cons, CStr.getElem_chars, hend,
        lc_slash] at hsplit
      rw [← hcomps, ← hsplit, comps_append_slash,
        comps_basePath fun c hc => isComp_of_mem_lcComps hc]
      exact List.prefix_append _ _
  · rintro ⟨ts, hts⟩
    have hpath : path.chars.map lc = basePath (lcComps base) ++ basePath ts := by
      rw [hp.map_lc, ← hts, absPath_eq, if_neg (by simp [hb0]), basePath_append']
    refine ⟨by rw [hpath, hbase, List.take_left' hlen], ?_⟩
    have hplen : path.length = base.length + (basePath ts).length := by
      rw [CStr.length, ← List.length_map (f := lc), hpath, List.length_append, hlen]
    cases ts with
    | nil => exact Or.inl (CStr.at_of_ge (by rw [hplen]; simp [basePath]))
    | cons t ts =>
      right
      have hlt : base.length < path.chars.length := by
        change _ < path.length
        rw [hplen]
        simp [basePath]
      have hget : (path.chars.map lc)[base.length]? = some slash := by
        rw [hpath, List.getElem?_append_right (by rw [hlen]), hlen, Nat.sub_self]
        simp [basePath]
      rw [List.getElem?_map, List.getElem?_eq_getElem hlt, CStr.getElem_chars, Option.map_some,
        Option.some_inj, lc_eq_slash] at hget
      exact hget

section

variable (hb : Canonical base) (ho : Canonical other) (h1 : Below path base) (h2 : Below path other)
include hb ho h1 h2

/-- Of two mountpoints on one path, the longer text has more components. -/
theorem length_lt_iff :
    base.length < other.length ↔ (lcComps base).length < (lcComps other).length := by
  rw [hb.length, ho.length]
  rcases List.prefix_or_prefix_of_prefix h1 h2 with ⟨ts, hts⟩ | ⟨ts, hts⟩
  all_goals
    have hall : ∀ c ∈ lcComps base, IsComp c := fun c hc => isComp_of_mem_lcComps hc
    have hall' : ∀ c ∈ lcComps other, IsComp c := fun c hc => isComp_of_mem_lcComps hc
    by_cases h0 : ts = []
    · rw [← hts, h0, List.append_nil]
      simp
  · rw [← hts] at hall' ⊢
    have := List.length_pos_iff.mpr h0
    exact iff_of_true (length_absPath_lt hall' h0) (by rw [List.length_append]; omega)
  · rw [← hts] at hall ⊢
    have := length_absPath_lt hall h0
    exact iff_of_false (by omega) (by rw [List.length_append]; omega)

/-- As many components on one path are the same ones. -/
theorem strcaseEq_of_length_eq (hlen : (lcComps base).length = (lcComps other).length) :
    strcaseEq base other = true := by
  have heq : lcComps base = lcComps other := by
    rw [List.prefix_iff_eq_take.mp h1, List.prefix_iff_eq_take.mp h2, hlen]
  rw [strcaseEq, hb.map_lc, ho.map_lc, heq, beq_self_eq_true]

end

namespace Vfs

/-- Mountpoints are canonical, no two are the same, and the root is the one at `/`. -/
structure Table (v : Vfs) : Prop where
  canonical : ∀ i, v.Mounted i → Canonical (v.mounts i).mountpoint
  distinct : ∀ i j, v.Mounted i → v.Mounted j → i ≠ j →
    strcaseEq (v.mounts i).mountpoint (v.mounts j).mountpoint = false
  root : ∀ i, v.Mounted i → ((v.mounts i).isRoot = true ↔ (v.mounts i).mountpoint = rootPath)

/-- The mount in slot `i` lies on the path. -/
def On (v : Vfs) (abs : CStr) (i : Nat) : Prop := v.Mounted i ∧ Below abs (v.mounts i).mountpoint

/-- The number of components of a mountpoint. -/
def depth (v : Vfs) (i : Nat) : Nat := (comps (v.mounts i).mountpoint.chars).length

/-- Slot `i` is the deepest mount on the path. -/
def Deepest (v : Vfs) (abs : CStr) (i : Nat) : Prop :=
  v.On abs i ∧ ∀ j, v.On abs j → j ≠ i → v.depth j < v.depth i

variable {v : Vfs} {abs : CStr} {i j : Nat} {l : List Nat}

theorem Deepest.unique (h : v.Deepest abs i) (h' : v.Deepest abs j) : i = j := by
  by_contra hne
  have h1 := h.2 j h'.1 (Ne.symm hne)
  have h2 := h'.2 i h.1 hne
  omega

theorem depth_eq (v : Vfs) (i : Nat) : v.depth i = (lcComps (v.mounts i).mountpoint).length := by
  rw [depth, lcComps, List.length_map]

theorem rootPath_chars : rootPath.chars = [slash] := CStr.ofBytes_chars (by decide)

namespace Table

theorem mountLen (h : v.Table) (hi : v.Mounted i) :
    mountLen (v.mounts i) = (v.mounts i).mountpoint.length := by
  rw [Vfs.mountLen]
  split
  · rename_i hroot
    rw [(h.root i hi).mp hroot, CStr.length, rootPath_chars]
    rfl
  · rfl

/-- Longer is deeper, and there are no two of one depth. -/
theorem depth_lt (h : v.Table) (hi : v.On abs i) (hj : v.On abs j) (hne : i ≠ j)
    (hle : (v.mounts i).mountpoint.length ≤ (v.mounts j).mountpoint.length) :
    v.depth i < v.depth j := by
  have hci := h.canonical i hi.1
  have hcj := h.canonical j hj.1
  rw [depth_eq, depth_eq]
  have hge := length_lt_iff hcj hci hj.2 hi.2
  have hne' : (lcComps (v.mounts i).mountpoint).length ≠ (lcComps (v.mounts j).mountpoint).length :=
    fun heq => by
      have := strcaseEq_of_length_eq hci hcj hi.2 hj.2 heq
      rw [h.distinct i j hi.1 hj.1 hne] at this
      cases this
  omega

theorem pathWithin (h : v.Table) (habs : Canonical abs) (hi : i < vfsMaxMounts) :
    ((v.mounts i).used && pathWithin abs (v.mounts i).mountpoint) = true ↔ v.On abs i := by
  rw [Bool.and_eq_true, On, Mounted]
  constructor
  · rintro ⟨hu, hw⟩
    exact ⟨⟨hi, hu⟩, (pathWithin_iff habs (h.canonical i ⟨hi, hu⟩)).mp hw⟩
  · rintro ⟨⟨_, hu⟩, hb⟩
    exact ⟨hu, (pathWithin_iff habs (h.canonical i ⟨hi, hu⟩)).mpr hb⟩

/-- What `find_mount` has found after the slots `l`. -/
structure Best (v : Vfs) (abs : CStr) (l : List Nat) (best : Option Nat) : Prop where
  nothing : best = none → ∀ j ∈ l, ¬ v.On abs j
  found : ∀ b, best = some b → v.On abs b ∧ b ∈ l ∧ ∀ j ∈ l, v.On abs j →
    (v.mounts j).mountpoint.length ≤ (v.mounts b).mountpoint.length

theorem Best.skip {best : Option Nat} (h : Best v abs l best) (hi : ¬ v.On abs i) :
    Best v abs (l ++ [i]) best := by
  refine ⟨fun hb j hj => ?_, fun b hb => ?_⟩
  · rcases List.mem_append.mp hj with hj | hj
    · exact h.nothing hb j hj
    · rwa [List.mem_singleton.mp hj]
  · obtain ⟨hon, hmem, hmax⟩ := h.found b hb
    refine ⟨hon, List.mem_append_left _ hmem, fun j hj hjon => ?_⟩
    rcases List.mem_append.mp hj with hj | hj
    · exact hmax j hj hjon
    · exact absurd (List.mem_singleton.mp hj ▸ hjon) hi

theorem Best.keep {b : Nat} (h : Best v abs l (some b))
    (hle : (v.mounts i).mountpoint.length ≤ (v.mounts b).mountpoint.length) :
    Best v abs (l ++ [i]) (some b) := by
  refine ⟨nofun, fun c hc => ?_⟩
  cases hc
  obtain ⟨hon, hmem, hmax⟩ := h.found b rfl
  refine ⟨hon, List.mem_append_left _ hmem, fun j hj hjon => ?_⟩
  rcases List.mem_append.mp hj with hj | hj
  · exact hmax j hj hjon
  · rwa [List.mem_singleton.mp hj]

theorem Best.take {best : Option Nat} (h : Best v abs l best) (hi : v.On abs i)
    (hlt : ∀ b, best = some b → (v.mounts b).mountpoint.length < (v.mounts i).mountpoint.length) :
    Best v abs (l ++ [i]) (some i) := by
  refine ⟨nofun, fun c hc => ?_⟩
  cases hc
  refine ⟨hi, List.mem_append_right _ (List.mem_singleton_self _), fun j hj hjon => ?_⟩
  rcases List.mem_append.mp hj with hj | hj
  · cases best with
    | none => exact absurd hjon (h.nothing rfl j hj)
    | some b => exact ((h.found b rfl).2.2 j hj hjon).trans (Nat.le_of_lt (hlt b rfl))
  · rw [List.mem_singleton.mp hj]

theorem best_round (h : v.Table) (habs : Canonical abs) {best : Option Nat}
    (hbest : Best v abs l best) (hi : i < vfsMaxMounts) :
    Best v abs (l ++ [i]) (v.betterMount abs best i) := by
  have hon := h.pathWithin habs hi
  rw [betterMount.eq_def]
  dsimp only
  by_cases hin : v.On abs i
  · have htrue := hon.mpr hin
    rw [Bool.and_eq_true] at htrue
    rw [if_neg (by simp [htrue.1, htrue.2])]
    cases best with
    | none =>
      have hpos : Vfs.mountLen (v.mounts i) > 0 := by
        rw [h.mountLen hin.1, (h.canonical i hin.1).length]
        exact List.length_pos_iff.mpr fun h0 => by
          simpa [h0] using head?_absPath (lcComps (v.mounts i).mountpoint)
      dsimp only
      rw [if_pos hpos]
      exact hbest.take hin fun b hb => by cases hb
    | some b =>
      dsimp only
      rw [h.mountLen hin.1, h.mountLen (hbest.found b rfl).1.1]
      split
      · rename_i hgt
        exact hbest.take hin fun c hc => by
          cases hc
          exact hgt
      · rename_i hle
        exact hbest.keep (Nat.le_of_not_lt hle)
  · have hfalse : ((v.mounts i).used && Crusadia.pathWithin abs (v.mounts i).mountpoint) =
        false := by
      rw [Bool.eq_false_iff]
      exact fun ht => hin (hon.mp ht)
    rw [if_pos (by rw [← Bool.not_and, hfalse]; rfl)]
    exact hbest.skip hin

/-- The search ends at the deepest mount, if there is one. -/
theorem best (h : v.Table) (habs : Canonical abs) :
    ((List.range vfsMaxMounts).foldl (v.betterMount abs) none = none ∧ ∀ i, ¬ v.On abs i) ∨
      ∃ i, (List.range vfsMaxMounts).foldl (v.betterMount abs) none = some i ∧ v.Deepest abs i := by
  have hall : ∀ n, n ≤ vfsMaxMounts →
      Best v abs (List.range n) ((List.range n).foldl (v.betterMount abs) none) := by
    intro n
    induction n with
    | zero => exact fun _ => ⟨by simp, by simp⟩
    | succ n ih =>
      intro hn
      rw [List.range_succ, List.foldl_append]
      exact h.best_round habs (ih (by omega)) hn
  have hbest := hall vfsMaxMounts (Nat.le_refl _)
  generalize (List.range vfsMaxMounts).foldl (v.betterMount abs) none = best at hbest
  cases best with
  | none => exact Or.inl ⟨rfl, fun i hi => hbest.nothing rfl i (List.mem_range.mpr hi.1.1) hi⟩
  | some b =>
    obtain ⟨hon, -, hmax⟩ := hbest.found b rfl
    refine Or.inr ⟨b, rfl, hon, fun j hj hne => ?_⟩
    exact h.depth_lt hj hon hne (hmax j (List.mem_range.mpr hj.1.1) hj)

end Table

/-- The path relative to a mount, as `find_mount` cuts it. -/
def relOf (m : VfsMount) (abs : CStr) : CStr :=
  let r := if m.isRoot then abs.chars else abs.chars.drop m.mountpoint.length
  if r = [] then rootPath else CStr.ofBytes r

/-- The relative path is `/` or starts with a slash, and behind the mountpoint (which for the
root is no text at all) it makes up the path again. -/
structure Relative (m : VfsMount) (abs rel : CStr) : Prop where
  slash : rel.chars.head? = some slash
  join : (rel = rootPath ∧ strcaseEq m.mountpoint abs = true) ∨
    ((if m.isRoot then [] else m.mountpoint.chars) ++ rel.chars).map lc = abs.chars.map lc

theorem findMount_eq (v : Vfs) (abs : CStr) :
    v.findMount abs = ((List.range vfsMaxMounts).foldl (v.betterMount abs) none).map fun i =>
      (i, relOf (v.mounts i) abs) := rfl

theorem Canonical.head (h : Canonical abs) : abs.chars.head? = some slash := by
  obtain ⟨cs, -, hpath⟩ := h
  rw [hpath, head?_absPath]

theorem Table.relative (h : v.Table) (habs : Canonical abs) (hi : v.On abs i) :
    Relative (v.mounts i) abs (relOf (v.mounts i) abs) := by
  have hhead := Canonical.head habs
  have hwithin := (pathWithin_iff habs (h.canonical i hi.1)).mpr hi.2
  have hnz : ∀ n, ∀ b ∈ abs.chars.drop n, b ≠ 0 := fun n b hb => abs.nz b (List.mem_of_mem_drop hb)
  unfold relOf
  by_cases hroot : (v.mounts i).isRoot = true
  · have hne : abs.chars ≠ [] := fun h0 => by simp [h0] at hhead
    simp only [hroot, if_true, if_neg hne]
    have hself : CStr.ofBytes abs.chars = abs := CStr.ext_chars (CStr.ofBytes_chars abs.nz)
    exact ⟨by rw [hself, hhead], Or.inr (by simp [hroot, hself])⟩
  · have hlen : (v.mounts i).mountpoint.length ≠ 1 := fun hone => by
      refine hroot ((h.root i hi.1).mpr (CStr.ext_chars ?_))
      obtain ⟨b, hb⟩ := List.length_eq_one_iff.mp hone
      have := Canonical.head (h.canonical i hi.1)
      rw [hb, List.head?_cons] at this
      rw [hb, rootPath_chars, Option.some.inj this]
    simp only [hroot, if_false, Bool.false_eq_true]
    obtain ⟨mp, hmp⟩ : ∃ mp, (v.mounts i).mountpoint = mp := ⟨_, rfl⟩
    rw [hmp] at hwithin hlen ⊢
    rw [Crusadia.pathWithin] at hwithin
    simp only [hlen, beq_iff_eq, Bool.or_eq_true, Bool.and_eq_true, false_or] at hwithin
    obtain ⟨htake, hend⟩ := hwithin
    by_cases hdrop : abs.chars.drop mp.length = []
    · rw [if_pos hdrop]
      refine ⟨by rw [rootPath_chars]; rfl, Or.inl ⟨rfl, ?_⟩⟩
      rw [List.take_of_length_le (List.drop_eq_nil_iff.mp hdrop)] at htake
      rw [hmp, strcaseEq, htake, beq_self_eq_true]
    · rw [if_neg hdrop]
      have hlt : mp.length < abs.chars.length := by
        by_contra hge
        exact hdrop (List.drop_eq_nil_of_le (Nat.le_of_not_lt hge))
      have hslash : abs.at' mp.length = slash := hend.resolve_left (CStr.at_ne_zero hlt)
      have hchars := CStr.ofBytes_chars (hnz mp.length)
      refine ⟨?_, Or.inr ?_⟩
      · rw [hchars, List.drop_eq_getElem_cons hlt, List.head?_cons, CStr.getElem_chars, hslash]
      · rw [hchars, if_neg hroot, hmp, List.map_append, ← htake, ← List.map_append,
          List.take_append_drop]

/-- The table of `v'` is that of `v` with its slots in another order. -/
structure Reordered (v' v : Vfs) (σ : Equiv.Perm Nat) : Prop where
  slots : ∀ i, σ i < vfsMaxMounts ↔ i < vfsMaxMounts
  mounts : ∀ i, i < vfsMaxMounts → v'.mounts i = v.mounts (σ i)

namespace Reordered

variable {v' : Vfs} {σ : Equiv.Perm Nat}

section

variable (h : Reordered v' v σ)
include h

theorem mounted : v'.Mounted i ↔ v.Mounted (σ i) := by
  rw [Mounted, Mounted, h.slots]
  exact and_congr_right fun hi => by rw [h.mounts i hi]

theorem on : v'.On abs i ↔ v.On abs (σ i) := by
  rw [On, On, h.mounted]
  exact and_congr_right fun hi => by rw [h.mounts i ((h.slots i).mp hi.1)]

theorem table (ht : v.Table) : v'.Table where
  canonical i hi := by
    rw [h.mounts i hi.1]
    exact ht.canonical _ (h.mounted.mp hi)
  distinct i j hi hj hne := by
    rw [h.mounts i hi.1, h.mounts j hj.1]
    exact ht.distinct _ _ (h.mounted.mp hi) (h.mounted.mp hj) (σ.injective.ne hne)
  root i hi := by
    rw [h.mounts i hi.1]
    exact ht.root _ (h.mounted.mp hi)

theorem deepest (hi : v'.Deepest abs i) : v.Deepest abs (σ i) := by
  refine ⟨h.on.mp hi.1, fun j hj hne => ?_⟩
  obtain ⟨k, rfl⟩ := σ.surjective j
  have hk : v'.On abs k := h.on.mpr hj
  have hlt := hi.2 k hk fun heq => hne (heq ▸ rfl)
  rwa [depth, depth, h.mounts k hk.1.1, h.mounts i hi.1.1.1] at hlt

end

end Reordered

/-- **The lookup finds the deepest mount**, whatever the order of the slots. -/
theorem findMount_deepest (h : v.Table) (habs : Canonical abs) :
    (v.findMount abs = none ↔ ∀ i, ¬ v.On abs i) ∧
    (∀ i rel, v.findMount abs = some (i, rel) →
      v.Deepest abs i ∧ Relative (v.mounts i) abs rel) ∧
    ∀ (v' : Vfs) (σ : Equiv.Perm Nat), Reordered v' v σ →
      (v'.findMount abs).map (fun r => (v'.mounts r.1, r.2)) =
        (v.findMount abs).map (fun r => (v.mounts r.1, r.2)) := by
  simp only [findMount_eq, Option.map_map]
  refine ⟨?_, fun i rel hfind => ?_, fun v' σ hσ => ?_⟩
  · rcases h.best habs with ⟨hnone, hon⟩ | ⟨i, hsome, hdeep⟩
    · simpa [hnone] using hon
    · rw [hsome]
      exact iff_of_false (by simp) fun hall => hall i hdeep.1
  · rcases h.best habs with ⟨hnone, -⟩ | ⟨j, hsome, hdeep⟩
    · simp [hnone] at hfind
    · rw [hsome, Option.map_some, Option.some_inj, Prod.mk.injEq] at hfind
      obtain ⟨rfl, rfl⟩ := hfind
      exact ⟨hdeep, h.relative habs hdeep.1⟩
  · rcases h.best habs with ⟨hnone, hon⟩ | ⟨i, hsome, hdeep⟩
    · rcases (hσ.table h).best habs with ⟨hnone', -⟩ | ⟨j, -, hdeep'⟩
      · rw [hnone, hnone']
        rfl
      · exact absurd (hσ.deepest hdeep').1 (hon _)
    · rcases (hσ.table h).best habs with ⟨-, hon'⟩ | ⟨j, hsome', hdeep'⟩
      · obtain ⟨k, rfl⟩ := σ.surjective i
        exact absurd (hσ.on.mpr hdeep.1) (hon' k)
      · -- the two slots hold the same mount
        obtain rfl := hdeep.unique (hσ.deepest hdeep')
        rw [hsome, hsome', Option.map_some, Option.map_some, Function.comp_apply,
          Function.comp_apply, hσ.mounts j hdeep'.1.1.1]

/-- One drive at `/` and one at `/mount`. -/
def twoMounts : Vfs where
  activeDrives := 2
  drives := fun i => ⟨0x1F0, i, 0, ⟨fun _ => Buf.zero, []⟩⟩
  cos := ⟨Buf.zero, ⟨0, 0, 0, 0, 0, 0, 0⟩, 0, 0, 0⟩
  gFat32 := zeroFat32
  mounts
    | 0 => { zeroMount with used := true, isRoot := true, mountpoint := rootPath }
    | 1 => { zeroMount with used := true, drive := 1, mountpoint := mountDir }
    | _ => zeroMount
  root := some 0
  files := fun _ => zeroFile
  cwd := rootPath
  cosLoaded := none
  seq := 2

theorem canonical_rootPath : Canonical rootPath := ⟨[], by simp, rootPath_chars⟩

theorem canonical_mountDir : Canonical mountDir :=
  ⟨[[0x6D, 0x6F, 0x75, 0x6E, 0x74]], by simp [Proper, IsComp, slash, dot],
    CStr.ofBytes_chars (by decide)⟩

theorem mounted_twoMounts (h : twoMounts.Mounted i) : i = 0 ∨ i = 1 := by
  match i, h with
  | 0, _ => exact Or.inl rfl
  | 1, _ => exact Or.inr rfl
  | _ + 2, h => exact absurd h.2 (by simp [twoMounts, zeroMount])

theorem table_twoMounts : twoMounts.Table where
  canonical i hi := by
    rcases mounted_twoMounts hi with rfl | rfl
    · exact canonical_rootPath
    · exact canonical_mountDir
  distinct i j hi hj hne := by
    rcases mounted_twoMounts hi with rfl | rfl <;> rcases mounted_twoMounts hj with rfl | rfl
    · exact absurd rfl hne
    · decide
    · decide
    · exact absurd rfl hne
  root i hi := by
    rcases mounted_twoMounts hi with rfl | rfl
    · exact iff_of_true rfl rfl
    · refine iff_of_false (by simp [twoMounts, zeroMount]) fun h => ?_
      exact absurd (congrArg CStr.length h) (by decide)

theorem findMount_deepest_twoMounts :
    twoMounts.Table ∧ Canonical mountDir ∧ (twoMounts.findMount mountDir).isSome = true ∧
      ∀ i rel, twoMounts.findMount mountDir = some (i, rel) →
        twoMounts.Deepest mountDir i ∧ Relative (twoMounts.mounts i) mountDir rel :=
  ⟨table_twoMounts, canonical_mountDir, by decide,
    (findMount_deepest table_twoMounts canonical_mountDir).2.1⟩

end Vfs

end Crusadia
