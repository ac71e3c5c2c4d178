import Crusadia.Lib.Search
import Crusadia.Vfs.Kept

/-!
# Crusadia.Vfs.Tables

**The mount table and the descriptor table.** `Vfs.Tables` is the invariant that the two
tables, `s_root` and the open counts satisfy between calls. A mount slot is published, taken
back or released, a descriptor is opened or closed, and everything else that a call does is
`Kept`; each of the five changes has a lemma. `Crusadia.Vfs.Calls` puts them together for all
sequences of calls after `vfs_init`.
-/

namespace Crusadia

namespace Vfs

/-- The number of descriptors on mount `i`. -/
def openFds (v : Vfs) (i : Nat) : Nat :=
  (List.range vfsMaxFds).countP fun fd => (v.files fd).used && (v.files fd).mount == i

/-- What holds of the tables between calls. -/
structure Tables (v : Vfs) : Prop where
  root : ∀ r, v.root = some r ↔
    r < vfsMaxMounts ∧ (v.mounts r).used = true ∧ (v.mounts r).isRoot = true
  noRoot : v.root = none → ∀ i, i < vfsMaxMounts → (v.mounts i).used = false
  distinct : ∀ i j, i < vfsMaxMounts → j < vfsMaxMounts → (v.mounts i).used = true →
    (v.mounts j).used = true → i ≠ j →
    strcaseEq (v.mounts i).mountpoint (v.mounts j).mountpoint = false
  attached : ∀ fd, fd < vfsMaxFds → (v.files fd).used = true →
    (v.files fd).mount < vfsMaxMounts ∧ (v.mounts (v.files fd).mount).used = true
  counts : ∀ i, i < vfsMaxMounts → (v.mounts i).used = true → (v.mounts i).openCount = v.openFds i

namespace Tables

variable {v v' : Vfs} {i : Nat} {m : VfsMount}

section

variable (h : Tables v)
include h

/-- Of a descriptor, the invariant reads whether it is in use and its mount. -/
theorem keep (hentry : ∀ i, (v'.mounts i).entry = (v.mounts i).entry)
    (hroot : v'.root = v.root) (hfiles : ∀ fd, (v'.files fd).used = (v.files fd).used ∧
      (v'.files fd).mount = (v.files fd).mount) : Tables v' := by
  -- the mount table is the one of `v` with the descriptors of `v`
  have hk : SameTables v { v' with files := v.files } := ⟨hentry, hroot, rfl⟩
  have hfds : ∀ i, v'.openFds i = v.openFds i := by
    intro i
    refine List.countP_congr fun fd _ => ?_
    rw [(hfiles fd).1, (hfiles fd).2]
  have hused : ∀ i, (v'.mounts i).used = (v.mounts i).used := hk.used
  refine ⟨fun r => ?_, fun hr i hi => ?_, fun i j hi hj hui huj hne => ?_, fun fd hfd hu => ?_,
    fun i hi hu => ?_⟩
  · rw [hroot, hused, show (v'.mounts r).isRoot = (v.mounts r).isRoot from hk.isRoot r]
    exact h.root r
  · rw [hused]
    exact h.noRoot (hroot ▸ hr) i hi
  · rw [hused] at hui huj
    rw [show (v'.mounts i).mountpoint = (v.mounts i).mountpoint from hk.mountpoint i,
      show (v'.mounts j).mountpoint = (v.mounts j).mountpoint from hk.mountpoint j]
    exact h.distinct i j hi hj hui huj hne
  · rw [(hfiles fd).1] at hu
    rw [(hfiles fd).2, hused]
    exact h.attached fd hfd hu
  · rw [hused] at hu
    rw [show (v'.mounts i).openCount = (v.mounts i).openCount from hk.openCount i, hfds]
    exact h.counts i hi hu

/-- The invariant reads nothing but the two tables and `s_root`. -/
theorem same (hk : SameTables v v') : Tables v' :=
  h.keep hk.entry hk.root fun fd => by rw [hk.files]; exact ⟨rfl, rfl⟩

/-- No descriptor is on a slot that is not in use. -/
theorem openFds_eq_zero (hu : (v.mounts i).used = false) : v.openFds i = 0 := by
  rw [openFds, List.countP_eq_zero]
  intro fd hfd hon
  rw [Bool.and_eq_true, beq_iff_eq] at hon
  have := (h.attached fd (List.mem_range.mp hfd) hon.1).2
  rw [hon.2, hu] at this
  cases this

/-- A slot that no descriptor is on is not in use afterwards, and not the root. -/
theorem vacate {root : Option Nat} (hfds : v.openFds i = 0) (hm : m.used = false)
    (hroot : ∀ r, root = some r ↔ v.root = some r ∧ r ≠ i)
    (hnone : root = none → ∀ j, j < vfsMaxMounts → j ≠ i → (v.mounts j).used = false) :
    Tables { v.setMount i m with root := root } := by
  have hkeep : ∀ j, j ≠ i → (v.setMount i m).mounts j = v.mounts j := fun j hne => by
    rw [mounts_setMount, if_neg hne]
  have hused : ∀ j, ((v.setMount i m).mounts j).used = true →
      j ≠ i ∧ (v.mounts j).used = true ∧ (v.setMount i m).mounts j = v.mounts j := by
    intro j hj
    have hne : j ≠ i := by
      rintro rfl
      rw [mounts_setMount, if_pos rfl, hm] at hj
      cases hj
    exact ⟨hne, hkeep j hne ▸ hj, hkeep j hne⟩
  refine ⟨fun r => (hroot r).trans ⟨fun hh => ?_, fun hh => ?_⟩, fun hr j hj => ?_,
    fun j k hj hk huj huk hne => ?_, fun fd hfd hfu => ?_, fun j hj huj => ?_⟩
  · rw [hkeep r hh.2]
    exact (h.root r).mp hh.1
  · obtain ⟨hne, hur, heq⟩ := hused r hh.2.1
    exact ⟨(h.root r).mpr ⟨hh.1, hur, heq ▸ hh.2.2⟩, hne⟩
  · by_contra hne
    obtain ⟨hne', huj, -⟩ := hused j (Bool.not_eq_false _ ▸ hne)
    rw [hnone hr j hj hne'] at huj
    cases huj
  · obtain ⟨-, huj, hj'⟩ := hused j huj
    obtain ⟨-, huk, hk'⟩ := hused k huk
    simp only [hj', hk']
    exact h.distinct j k hj hk huj huk hne
  · obtain ⟨hlt, hum⟩ := h.attached fd hfd hfu
    have hne : (v.files fd).mount ≠ i := by
      intro he
      refine List.countP_eq_zero.mp hfds fd (List.mem_range.mpr hfd) ?_
      rw [he, beq_self_eq_true, Bool.and_true]
      exact hfu
    refine ⟨hlt, ?_⟩
    rw [← hkeep _ hne] at hum
    exact hum
  · obtain ⟨-, huj, hj'⟩ := hused j huj
    simp only [hj']
    exact h.counts j hj huj

/-- A slot that is not in use may hold anything. -/
theorem setUnused (hu : (v.mounts i).used = false) (hm : m.used = false) :
    Tables (v.setMount i m) := by
  show Tables { v.setMount i m with root := v.root }
  refine h.vacate (h.openFds_eq_zero hu) hm (fun r => ?_) fun hr j hj _ => h.noRoot hr j hj
  refine (and_iff_left_of_imp fun hr => ?_).symm
  rintro rfl
  have hur := ((h.root _).mp hr).2.1
  rw [hu] at hur
  cases hur

/-- A slot is put to use at a target that no other mount has. -/
theorem publish (hu : (v.mounts i).used = false) (hroot : v.root ≠ none)
    (hmr : m.isRoot = false) (hmo : m.openCount = 0)
    (hmt : ∀ j, j < vfsMaxMounts → (v.mounts j).used = true →
      strcaseEq (v.mounts j).mountpoint m.mountpoint = false) :
    Tables (v.setMount i m) := by
  have hcomm : ∀ a b : CStr, strcaseEq a b = false → strcaseEq b a = false := by
    intro a b hab
    rw [strcaseEq, beq_eq_false_iff_ne] at *
    exact hab.symm
  refine ⟨fun r => ?_, fun hr => absurd hr hroot, fun j k hj hk huj huk hne => ?_,
    fun fd hfd hfu => ?_, fun j hj huj => ?_⟩
  · refine (h.root r).trans (and_congr_right fun _ => ?_)
    rw [mounts_setMount]
    split
    · rename_i hr
      rw [hr, hu, hmr]
      simp
    · rfl
  · rw [mounts_setMount] at huj huk ⊢
    rw [mounts_setMount]
    split at huj <;> split at huk
    · exact absurd (by omega) hne
    · rw [if_pos ‹_›, if_neg ‹_›]
      exact hcomm _ _ (hmt k hk huk)
    · rw [if_neg ‹_›, if_pos ‹_›]
      exact hmt j hj huj
    · rw [if_neg ‹_›, if_neg ‹_›]
      exact h.distinct j k hj hk huj huk hne
  · obtain ⟨hlt, hum⟩ := h.attached fd hfd hfu
    refine ⟨hlt, ?_⟩
    rw [show (v.setMount i m).files = v.files from rfl, mounts_setMount, if_neg]
    · exact hum
    · intro he
      rw [he, hu] at hum
      cases hum
  · have hfds : (v.setMount i m).openFds j = v.openFds j := rfl
    rw [mounts_setMount] at huj ⊢
    rw [hfds]
    split at huj
    · rename_i he
      rw [if_pos he, hmo, he, h.openFds_eq_zero hu]
      rfl
    · rename_i hne
      rw [if_neg hne]
      exact h.counts j hj huj

/-- A tree of mounts begins with its root. -/
theorem publishRoot (hi : i < vfsMaxMounts) (hroot : v.root = none)
    (hmu : m.used = true) (hmr : m.isRoot = true) (hmo : m.openCount = 0) :
    Tables { v.setMount i m with root := some i } := by
  have hnone := h.noRoot hroot
  have hused : ∀ j, j < vfsMaxMounts → ((v.setMount i m).mounts j).used = true → j = i := by
    intro j hj huj
    rw [mounts_setMount] at huj
    split at huj
    · assumption
    · rw [hnone j hj] at huj
      cases huj
  have hfile : ∀ fd, fd < vfsMaxFds → (v.files fd).used = true → False := by
    intro fd hfd hu
    obtain ⟨hlt, hum⟩ := h.attached fd hfd hu
    rw [hnone _ hlt] at hum
    cases hum
  have hself : (v.setMount i m).mounts i = m := by rw [mounts_setMount, if_pos rfl]
  refine ⟨fun r => ?_, fun hr => (by cases hr), fun j k hj hk huj huk hne => ?_,
    fun fd hfd hfu => (hfile fd hfd hfu).elim, fun j hj huj => ?_⟩
  · constructor
    · intro hr
      obtain rfl : i = r := Option.some.inj hr
      exact ⟨hi, by rw [hself]; exact ⟨hmu, hmr⟩⟩
    · rintro ⟨hr, hur, -⟩
      exact congrArg some (hused r hr hur).symm
  · exact absurd ((hused j hj huj).trans (hused k hk huk).symm) hne
  · obtain rfl := hused j hj huj
    have hzero : v.openFds j = 0 := h.openFds_eq_zero (hnone j hj)
    rw [show ({ v.setMount j m with root := some j } : Vfs).openFds j = v.openFds j from rfl, hzero,
      hself, hmo]
    rfl

/-- A slot is given up that no descriptor is on; the root goes last. -/
theorem release (hfds : v.openFds i = 0)
    (hlast : (v.mounts i).isRoot = true → ∀ j, j < vfsMaxMounts → j ≠ i → (v.mounts j).used = false)
    (hm : m.used = false) :
    Tables { v.setMount i m with root := if (v.mounts i).isRoot then none else v.root } := by
  by_cases hir : (v.mounts i).isRoot = true
  · rw [if_pos hir]
    refine h.vacate hfds hm (fun r => iff_of_false (by simp) fun ⟨hr, hne⟩ => ?_) fun _ => hlast hir
    obtain ⟨hlt, hur, -⟩ := (h.root r).mp hr
    rw [hlast hir r hlt hne] at hur
    cases hur
  · rw [if_neg hir]
    refine h.vacate hfds hm (fun r => ?_) fun hr j hj _ => h.noRoot hr j hj
    refine (and_iff_left_of_imp fun hr => ?_).symm
    rintro rfl
    exact hir ((h.root _).mp hr).2.2

/-- A descriptor changes hands: `f` replaces what slot `fd` holds, and the open counts follow. -/
theorem setFile {fd : Nat} (hfd : fd < vfsMaxFds) {f : VfsFile}
    (hat : f.used = true → f.mount < vfsMaxMounts ∧ (v.mounts f.mount).used = true) {c : Nat → Int}
    (hc : ∀ j, c j + ((v.files fd).used && (v.files fd).mount == j).toNat =
      (v.mounts j).openCount + (f.used && f.mount == j).toNat)
    (hv' : ∀ j, v'.mounts j = { v.mounts j with openCount := c j }) (hr : v'.root = v.root)
    (hf : v'.files = (v.setFile fd f).files) : Tables v' := by
  have hfield : ∀ {α : Type} (g : VfsMount → α),
      (∀ m n, g { m with openCount := n } = g m) → ∀ j, g (v'.mounts j) = g (v.mounts j) :=
    fun g hg j => by rw [hv', hg]
  have hused := hfield (·.used) fun _ _ => rfl
  have hpoint := hfield (·.mountpoint) fun _ _ => rfl
  have hroot := hfield (·.isRoot) fun _ _ => rfl
  refine ⟨fun r => ?_, fun hn j hj => ?_, fun j k hj hk huj huk hne => ?_, fun fd' hfd' hu => ?_,
    fun j hj hu => ?_⟩
  · rw [hr, hused, hroot]
    exact h.root r
  · rw [hused]
    exact h.noRoot (hr ▸ hn) j hj
  · rw [hused] at huj huk
    rw [hpoint, hpoint]
    exact h.distinct j k hj hk huj huk hne
  · rw [hf, files_setFile] at hu ⊢
    rw [hused]
    split at hu
    · rw [if_pos ‹_›]
      exact hat hu
    · rw [if_neg ‹_›]
      exact h.attached fd' hfd' hu
  · rw [hused] at hu
    have hcount := h.counts j hj hu
    have hupd := countP_range_update (k := fd)
      (p := fun x => (v'.files x).used && (v'.files x).mount == j)
      (q := fun x => (v.files x).used && (v.files x).mount == j)
      (fun x hx => by rw [hf, files_setFile, if_neg hx]) vfsMaxFds hfd
    have hself : v'.files fd = f := by rw [hf, files_setFile, if_pos rfl]
    have hopen : (v'.mounts j).openCount = c j := by rw [hv']
    have hcj := hc j
    rw [openFds] at hcount
    rw [hself] at hupd
    rw [openFds, hopen]
    omega

end

end Tables

end Vfs

end Crusadia
