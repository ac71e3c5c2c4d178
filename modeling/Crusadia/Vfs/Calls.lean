import Crusadia.Cos.Format
import Crusadia.Vfs.Tables
import Crusadia.Vfs.Work

/-!
# Crusadia.Vfs.Calls

**The calls on the two tables**, each with what it does to them, and the runs of such calls
from `vfs_init` on. Searching the tables comes first (a hit is a slot in use, a free slot is
not), then mounting with its roll-back, unmounting, opening and closing.
-/

namespace Crusadia

namespace Vfs

variable {v v' w : Vfs} {i d : Nat} {abs : CStr} {r : Int}

/-! ### Searching the tables -/

theorem mounted_of_findMountExact (h : v.findMountExact abs = some i) : v.Mounted i := by
  have hp := List.find?_some h
  rw [Bool.and_eq_true] at hp
  exact ⟨List.mem_range.mp (List.mem_of_find?_eq_some h), hp.1⟩

theorem strcaseEq_of_findMountExact_eq_none (h : v.findMountExact abs = none) (hi : v.Mounted i) :
    strcaseEq (v.mounts i).mountpoint abs = false := by
  have := List.find?_eq_none.mp h i (List.mem_range.mpr hi.1)
  rw [hi.2, Bool.true_and, Bool.not_eq_true] at this
  exact this

theorem mounted_of_findLastByDrive (h : v.findLastByDrive d = some i) : v.Mounted i := by
  refine mounted_of_foldl (fun best k hu => ?_) (fun best k => ?_) h <;>
    rw [laterMount.eq_def] <;> dsimp only
  · rw [hu]
    rfl
  · split
    · exact .inl rfl
    · cases best with
      | none => exact .inr rfl
      | some b =>
        dsimp only
        split
        exacts [.inr rfl, .inl rfl]

theorem freeSlot_eq_some (h : v.freeSlot = some i) :
    i < vfsMaxMounts ∧ (v.mounts i).used = false := by
  refine ⟨List.mem_range.mp (List.mem_of_find?_eq_some h), ?_⟩
  have hp := List.find?_some h
  rwa [Bool.not_eq_true'] at hp

theorem mounted_of_umountSlot {what : CStr} (h : v.umountSlot what = .ok i) : v.Mounted i := by
  have helim : ∀ {o : Option Nat} {e : Int}, (o.elim (.error e) .ok : Except Int Nat) = .ok i →
      o = some i := by
    rintro (_ | j) e he
    · cases he
    · cases he
      rfl
  rw [umountSlot] at h
  split at h
  · cases h
  · split at h
    · exact mounted_of_findLastByDrive (helim h)
    · split at h
      · cases h
      · exact mounted_of_findMountExact (helim h)

/-! ### Mounting -/

theorem Tables.mounted_root (h : Tables v) (hr : v.root = some i) : v.Mounted i :=
  ((h.root i).mp hr).imp_right And.left

theorem mounts_setMount_self {m : VfsMount} : (v.setMount i m).mounts i = m := by
  rw [mounts_setMount, if_pos rfl]

/-- Once the slot of a new root is in use, the rest either succeeds or gives it up again. -/
theorem Tables.mountPublished_root {boot : Bool} {m : VfsMount} (h : Tables v)
    (hi : i < vfsMaxMounts) (hroot : v.root = none) (hmu : m.used = true) (hmo : m.openCount = 0)
    (hw : SameTables (v.setMount i m) w) (hp : w.mountPublished i true boot = some (r, v')) :
    Tables v' ∧ v'.files = w.files := by
  have hwm : (w.mounts i).used = m.used ∧ (w.mounts i).openCount = m.openCount := by
    rw [hw.used, hw.openCount, mounts_setMount_self]
    exact ⟨rfl, rfl⟩
  have hpub : Tables { w.setMount i { w.mounts i with isRoot := true } with root := some i } := by
    refine (h.publishRoot (m := { m with isRoot := true }) hi hroot hmu rfl hmo).same
      ⟨fun j => ?_, rfl, hw.files⟩
    have he := hw.entry j
    dsimp only
    rw [mounts_setMount] at he ⊢
    rw [mounts_setMount]
    split at he
    · rename_i hj
      rw [if_pos hj, if_pos hj, ← hj]
      exact congrArg (fun n : VfsMount => { n with isRoot := true }) he
    · rw [if_neg ‹_›, if_neg ‹_›]
      exact he
  have hnoFds : ∀ {u : Vfs}, u.files = w.files → u.openFds i = 0 := by
    intro u hu
    have : u.openFds i = v.openFds i := by rw [openFds, openFds, hu, hw.files]; rfl
    rw [this]
    exact h.openFds_eq_zero (h.noRoot hroot i hi)
  simp only [mountPublished, if_true] at hp
  split at hp
  · obtain ⟨u, hu, heq⟩ := Option.bind_eq_some_iff.mp hp
    cases heq
    have hk := sameTables_setCwdDefault hu
    exact ⟨hpub.same hk, hk.files⟩
  · obtain ⟨u, hu, heq⟩ := Option.bind_eq_some_iff.mp hp
    have hk := (work_ensureDefaults _ hu).kept.trans kept_persist
    split at heq
    · cases heq
      -- roll-back: the slot is given up and there is no root again
      have hk' := hk.trans (kept_backendUnmount (i := i))
      have htab' := hpub.same hk'.toSameTables
      have hroot' : ((u.persist.2.backendUnmount i).mounts i).isRoot = true := by
        rw [hk'.isRoot]
        dsimp only
        rw [mounts_setMount_self]
      have hrel := htab'.release (i := i) (hnoFds hk'.files) (fun _ j hj hne => ?_)
        (m := { (u.persist.2.backendUnmount i).mounts i with used := false }) rfl
      · rw [if_pos hroot'] at hrel
        exact ⟨hrel, hk'.files⟩
      · rw [hk'.used]
        dsimp only
        rw [mounts_setMount, if_neg hne, hw.used, mounts_setMount, if_neg hne]
        exact h.noRoot hroot j hj
    · obtain ⟨x, hx, heq⟩ := Option.bind_eq_some_iff.mp heq
      cases heq
      have hk' := hk.toSameTables.trans (sameTables_setCwdDefault hx)
      exact ⟨hpub.same hk', hk'.files⟩

theorem mountTarget_eq_zero {t : CStr} (h : v.mountTarget t = 0) :
    (t = rootPath ∧ v.root = none) ∨
      (t ≠ rootPath ∧ v.root ≠ none ∧ v.findMountExact t = none) := by
  rw [mountTarget] at h
  by_cases ht : t = rootPath
  · rw [if_pos ht] at h
    split at h
    · cases h
    · rename_i hr
      exact .inl ⟨ht, by simpa using hr⟩
  · rw [if_neg ht] at h
    split at h
    · cases h
    · rename_i hr
      split at h
      · cases h
      · split at h
        · cases h
        · rename_i hf
          exact .inr ⟨ht, by simpa using hr, by simpa using hf⟩

theorem Tables.doMount {t : CStr} {boot : Bool} (h : Tables v)
    (hm : v.doMount d t boot = some (r, v')) : Tables v' ∧ v'.files = v.files := by
  rw [Vfs.doMount] at hm
  split at hm
  · cases hm
    exact ⟨h, rfl⟩
  rename_i htarget
  have htarget := mountTarget_eq_zero (not_not.mp htarget)
  split at hm
  · cases hm
    exact ⟨h, rfl⟩
  · cases hm
    exact ⟨h, rfl⟩
  rename_i fs part i _ hslot
  obtain ⟨hi, hfree⟩ := freeSlot_eq_some hslot
  obtain ⟨⟨c, u⟩, hu, hm⟩ := Option.bind_eq_some_iff.mp hm
  have hk := (work_mountDirs hu).kept
  have htab := h.same hk.toSameTables
  dsimp only at hm
  split at hm
  · cases hm
    exact ⟨htab, hk.files⟩
  have hready := kept_mountBackend u i d fs part
  have hfreeU : (u.mounts i).used = false := (hk.used i).trans hfree
  have htab' := (htab.setUnused (m := { zeroMount with drive := d, fs, partLba := part }) hfreeU
    rfl).same hready.toSameTables
  have hfiles := hready.files.trans hk.files
  split at hm
  · obtain ⟨-, rfl⟩ := Prod.mk.inj (Option.some.inj hm)
    exact ⟨htab', hfiles⟩
  -- the slot as `mount_backend` leaves it
  generalize (u.mountBackend i d fs part).2 = x at hm hready htab' hfiles
  have hx : (x.mounts i).used = false ∧ (x.mounts i).isRoot = false ∧
      (x.mounts i).openCount = 0 := by
    rw [hready.used, hready.isRoot, hready.openCount, mounts_setMount_self]
    exact ⟨rfl, rfl, rfl⟩
  have hxroot : x.root = v.root := hready.root.trans hk.root
  obtain ⟨ht, hroot⟩ | ⟨ht, hroot, hexact⟩ := htarget
  · rw [decide_eq_true ht] at hm
    refine And.imp_right (·.trans hfiles)
      (htab'.mountPublished_root (i := i) hi (hxroot.trans hroot)
      (m := { x.mounts i with mountpoint := t, used := true, seq := x.seq + 1 }) rfl hx.2.2 ?_ hm)
    exact ⟨fun _ => rfl, rfl, rfl⟩
  · rw [decide_eq_false ht] at hm
    simp only [mountPublished, Bool.false_eq_true, if_false] at hm
    cases hm
    have hpub := htab'.publish (i := i) hx.1 (hxroot ▸ hroot)
      (m := { x.mounts i with mountpoint := t, used := true, seq := x.seq + 1 }) hx.2.1 hx.2.2
      fun j hj hju => by
        have hji : j ≠ i := by
          rintro rfl
          rw [hx.1] at hju
          cases hju
        have hkeep : ∀ {α : Type} (f : VfsMount → α), (∀ m : VfsMount, f m.entry = f m) →
            f (x.mounts j) = f (v.mounts j) := by
          intro α f hf
          rw [hready.field j f hf, mounts_setMount, if_neg hji, hk.field j f hf]
        rw [hkeep (·.used) fun _ => rfl] at hju
        rw [hkeep (·.mountpoint) fun _ => rfl]
        exact strcaseEq_of_findMountExact_eq_none hexact ⟨hj, hju⟩
    have hpub := hpub.same (show SameTables _ { setMount x i _ with seq := x.seq + 1 } from
      ⟨fun _ => rfl, rfl, rfl⟩)
    split
    · exact ⟨hpub, hfiles⟩
    · exact ⟨hpub.same kept_persist.toSameTables, kept_persist.files.trans hfiles⟩

/-! ### Mounting a COS drive as the root -/

/-- Every mount is of a COS drive. -/
def CosOnly (v : Vfs) : Prop := ∀ i, v.Mounted i → (v.mounts i).fs = .cosfs

theorem CosOnly.same (h : CosOnly v) (hk : SameTables v v') : CosOnly v' := fun i hi => by
  rw [hk.fs]
  exact h i (hk.mounted.mp hi)

theorem CosOnly.ensureDirAbs (h : CosOnly v) (abs : CStr) : ∃ r, v.ensureDirAbs abs = some r := by
  rw [Vfs.ensureDirAbs]
  split
  · exact ⟨_, rfl⟩
  · rename_i i rel hfind
    have hfs : ((v.ctxEnter i).mounts i).fs = .cosfs :=
      (kept_ctxEnter.fs i).trans (h i (mounted_of_findMount hfind))
    rw [within]
    simp only [beStat, beMkdir, backend, hfs, Option.bind_eq_bind, Option.bind_some]
    split <;> exact ⟨_, rfl⟩

theorem CosOnly.ensureDefaults (names : List CStr) : ∀ {v : Vfs}, CosOnly v →
    ∃ w, v.ensureDefaults names = some w := by
  induction names with
  | nil => exact fun _ => ⟨_, rfl⟩
  | cons name names ih =>
    intro v h
    obtain ⟨r, hr⟩ := h.ensureDirAbs (CStr.ofBytes (slash :: name.chars))
    obtain ⟨w, hw⟩ := ih (h.same (work_ensureDirAbs hr).kept.toSameTables)
    refine ⟨w, ?_⟩
    rw [Vfs.ensureDefaults, hr]
    exact hw

theorem CosOnly.setCwdDefault (h : CosOnly v) : ∃ w, v.setCwdDefault = some w := by
  rw [Vfs.setCwdDefault]
  dsimp only
  split
  · exact ⟨_, rfl⟩
  · rename_i i rel hfind
    have hfs : (v.mounts i).fs = .cosfs := h i (mounted_of_findMount hfind)
    simp only [beStat, (kept_ctxEnter (v := { v with cwd := rootPath }) (i := i)).fs i, hfs]
    exact ⟨_, rfl⟩

/-- Mounting a COS drive at `/` succeeds. -/
theorem doMount_root_cos (h : Tables v) (hroot : v.root = none) {part : Nat}
    (hfs : v.detectEx d = some (.cosfs, part))
    (hmagic : (v.cosOn d).initFs.gSuperblock.magic = fsMagic) :
    ∃ w, v.doMount d rootPath false = some (0, w) ∧ w.root = some 0 := by
  have hslot : v.freeSlot = some 0 := by
    rw [freeSlot, show List.range vfsMaxMounts = 0 :: (List.range 6).map (· + 1) from rfl,
      List.find?_cons_of_pos]
    rw [h.noRoot hroot 0 (by decide)]
    rfl
  have htarget : v.mountTarget rootPath = 0 := by
    rw [mountTarget, if_pos rfl, hroot]
    rfl
  have hready := kept_mountBackend v 0 d .cosfs part
  have hback : (v.mountBackend 0 d .cosfs part).1 = 0 := by
    simp only [mountBackend]
    rw [if_neg]
    exact not_not.mpr hmagic
  simp only [doMount, htarget, hfs, hslot, mountDirs, ne_eq, not_true_eq_false, if_false, if_true,
    Option.bind_eq_bind, Option.bind_some, hback, decide_true, mountPublished, Bool.false_eq_true]
  generalize (v.mountBackend 0 d .cosfs part).2 = x at hready
  -- only slot 0 is in use from here on
  have hother : ∀ i, i < vfsMaxMounts → i ≠ 0 → (x.mounts i).used = false := by
    intro i hi hne
    rw [hready.used, mounts_setMount, if_neg hne]
    exact h.noRoot hroot i hi
  have hx0 : (x.mounts 0).fs = .cosfs := by
    rw [hready.fs, mounts_setMount_self]
  generalize hy : ({ setMount _ 0 _ with root := some 0 } : Vfs) = y
  have hcos : CosOnly y := by
    intro i hi
    by_cases hi0 : i = 0
    · subst hy
      rw [hi0]
      dsimp only
      rw [mounts_setMount_self, mounts_setMount_self]
      exact hx0
    · have hu := hi.2
      subst hy
      dsimp only at hu
      rw [mounts_setMount, if_neg hi0, mounts_setMount, if_neg hi0, hother i hi.1 hi0] at hu
      cases hu
  have hyroot : y.root = some 0 := by rw [← hy]
  have hy0 : y.Mounted 0 := by
    subst hy
    refine ⟨by decide, ?_⟩
    dsimp only
    rw [mounts_setMount_self, mounts_setMount_self]
  obtain ⟨u, hu⟩ := CosOnly.ensureDefaults Cos.defaultDirs hcos
  have hku := (work_ensureDefaults _ hu).kept
  have hpersist : u.persist.1 = 0 := by
    have hufs : (u.mounts 0).fs = .cosfs := (hku.fs 0).trans (hcos 0 hy0)
    simp only [persist, hku.root.trans hyroot, hufs, hdrWrite, hdrPlace]
  have hk := hku.trans kept_persist
  obtain ⟨w, hw⟩ := (hcos.same hk.toSameTables).setCwdDefault
  refine ⟨w, ?_, (sameTables_setCwdDefault hw).root.trans (hk.root.trans hyroot)⟩
  rw [hu, Option.bind_some, hpersist, hw]
  rfl

/-! ### Unmounting -/

/-- A slot that passes the checks of `do_umount` can be released. -/
theorem releasable (hbusy : v.umountBusy i = false) :
    v.openFds i = 0 ∧ ((v.mounts i).isRoot = true →
      ∀ j, j < vfsMaxMounts → j ≠ i → (v.mounts j).used = false) := by
  rw [umountBusy, Bool.or_eq_false_iff, List.any_eq_false, List.any_eq_false] at hbusy
  refine ⟨List.countP_eq_zero.mpr hbusy.2, fun hroot j hj hne => ?_⟩
  have := hbusy.1 j (List.mem_range.mpr hj)
  rw [hroot, Bool.true_or, Bool.and_true, bne_iff_ne.mpr hne, Bool.true_and] at this
  exact Bool.not_eq_true _ ▸ this

theorem Tables.doUmount {what : CStr} (h : Tables v) :
    Tables (v.doUmount what).2 ∧ (v.doUmount what).2.files = v.files := by
  rw [Vfs.doUmount]
  split
  · exact ⟨h, rfl⟩
  rename_i i hslot
  split
  · exact ⟨h, rfl⟩
  rename_i hbusy
  have hk : SameTables v (v.backendUnmount i) := kept_backendUnmount.toSameTables
  have htab := h.same hk
  have hbusy' : (v.backendUnmount i).umountBusy i = false := by
    have : (v.backendUnmount i).umountBusy i = v.umountBusy i := by
      simp only [umountBusy, hk.used, hk.isRoot, hk.mountpoint, hk.files]
    rw [this]
    exact Bool.not_eq_true _ ▸ hbusy
  obtain ⟨hfds, hlast⟩ := releasable hbusy'
  have hrel := htab.release hfds hlast
    (m := { (v.backendUnmount i).mounts i with used := false }) rfl
  rw [hk.isRoot] at hrel
  dsimp only
  split
  · rename_i hroot
    rw [if_pos hroot] at hrel
    split
    · refine ⟨Tables.same (v := hdrClear _ _ _ _) ?_ ⟨fun _ => rfl, rfl, rfl⟩,
        kept_hdrWrite.files.trans hk.files⟩
      exact hrel.same kept_hdrWrite.toSameTables
    · exact ⟨hrel.same ⟨fun _ => rfl, rfl, rfl⟩, hk.files⟩
  · rename_i hroot
    rw [if_neg hroot] at hrel
    have hpersist := Tables.same (v := (v.backendUnmount i).setMount i
      { (v.backendUnmount i).mounts i with used := false }) (hrel.same ⟨fun _ => rfl, rfl, rfl⟩)
      kept_persist.toSameTables
    split
    · exact ⟨hpersist.same ⟨fun _ => rfl, rfl, rfl⟩, kept_persist.files.trans hk.files⟩
    · exact ⟨hpersist, kept_persist.files.trans hk.files⟩

/-! ### Descriptors -/

theorem Tables.openLocked {path : CStr} {fl : OpenFlags} {tag : CStr} (h : Tables v)
    (ho : v.openLocked path fl tag = some (r, v')) : Tables v' := by
  rcases openLocked_cases ho with ⟨-, hw⟩ | ⟨fd, f, u, ⟨hfd, hfree⟩, hmounted, hused, -, hw, -, rfl⟩
  · exact h.same hw.kept.toSameTables
  have hk := hw.kept.toSameTables
  refine (h.same hk).setFile hfd (f := f) (fun _ => hk.mounted.mpr hmounted)
    (c := fun j => (u.mounts j).openCount + (f.mount == j).toNat) (fun j => ?_)
      (fun j => ?_) rfl rfl
  · rw [hk.files, hfree, hused, Bool.false_and, Bool.true_and]
    exact Int.add_zero _
  · rw [mounts_setMount]
    split
    · rename_i hj
      rw [hj, beq_self_eq_true]
      rfl
    · rename_i hj
      rw [beq_eq_false_iff_ne.mpr (Ne.symm hj), Bool.toNat_false, Nat.cast_zero, Int.add_zero]
      rfl

theorem Tables.vfsClose {fd : Nat} (h : Tables v) : Tables (v.vfsClose fd).2 := by
  rw [Vfs.vfsClose, fget]
  split
  · exact h
  rename_i f hf
  split at hf
  · rename_i hfd
    cases hf
    refine h.setFile hfd.1 (f := { v.files fd with used := false }) (fun hu => by cases hu)
      (c := fun j => (v.mounts j).openCount - ((v.files fd).mount == j).toNat) (fun j => ?_)
      (fun j => ?_) rfl rfl
    · rw [hfd.2, Bool.true_and, Bool.false_and, Bool.toNat_false]
      omega
    · refine (mounts_setMount ..).trans ?_
      split
      · rename_i hj
        rw [hj, beq_self_eq_true]
        rfl
      · rename_i hj
        rw [beq_eq_false_iff_ne.mpr (Ne.symm hj), Bool.toNat_false, Nat.cast_zero, Int.sub_zero]
  · cases hf

/-! ### Formatting -/

theorem ne_drive_of_driveRefs (hi : v.Mounted i) (h : v.driveRefs d none = 0) :
    (v.mounts i).drive ≠ d := by
  intro hd
  have := List.filter_eq_nil_iff.mp (List.eq_nil_of_length_eq_zero h) i (List.mem_range.mpr hi.1)
  rw [hi.2, hd, beq_self_eq_true] at this
  exact this rfl

theorem drives_putFat_of_ne {e : Nat} {s : Fat} (h : e ≠ d) :
    (v.putFat d s).drives e = v.drives e :=
  Function.update_of_ne h ..

/-- Formatting is work on a drive as well, and on no other. -/
theorem doFormat_keeps {fs : FsType} (h : v.doFormat d fs = some (r, v')) :
    Kept v v' ∧ ∀ e, e ≠ d → v'.drives e = v.drives e := by
  cases fs with
  | cosfs =>
    simp only [doFormat] at h
    split at h <;> obtain ⟨-, rfl⟩ := Prod.mk.inj (Option.some.inj h)
    · exact ⟨.refl v, fun _ _ => rfl⟩
    · exact ⟨⟨⟨fun _ => rfl, rfl, rfl⟩, rfl, rfl, rfl⟩, fun _ he => Function.update_of_ne he ..⟩
  | fat32 =>
    simp only [doFormat] at h
    split at h
    · cases h
      exact ⟨.refl v, fun _ _ => rfl⟩
    · split at h
      · cases h
        exact ⟨kept_putFat _, fun _ he => drives_putFat_of_ne he⟩
      · obtain ⟨s, -, hs⟩ := Option.map_eq_some_iff.mp h
        cases hs
        refine ⟨(kept_putFat _).trans kept_hdrWrite, fun e he => ?_⟩
        rw [hdrClear, hdrWrite]
        split
        · exact drives_putFat_of_ne he
        · rw [writeSector, drives_setDisk, if_neg he]
          exact drives_putFat_of_ne he

/-- A drive that is mounted is not formatted. -/
theorem vfsFormat_keeps {drive fsname : CStr} (h : v.vfsFormat drive fsname = some (r, v')) :
    Kept v v' ∧
      ∀ i, v.Mounted i → v'.drives (v.mounts i).drive = v.drives (v.mounts i).drive := by
  rw [vfsFormat] at h
  split at h
  · cases h
    exact ⟨.refl v, fun _ _ => rfl⟩
  · split at h
    · cases h
      exact ⟨.refl v, fun _ _ => rfl⟩
    · split at h
      · cases h
        exact ⟨.refl v, fun _ _ => rfl⟩
      · obtain ⟨hk, hd⟩ := doFormat_keeps h
        exact ⟨hk, fun i hi => hd _ (ne_drive_of_driveRefs hi (by omega))⟩

/-! ### Runs -/

/-- The calls that work on the tables. -/
inductive TableCall where
  | mount (drive target : CStr)
  | umount (what : CStr)
  | format (drive fsname : CStr)
  | open (path : CStr) (fl : OpenFlags)
  | close (fd : Int)

/-- A call; what it returns and the state it leaves behind. -/
def TableCall.run (c : TableCall) (v : Vfs) : Option (Int × Vfs) :=
  match c with
  | .mount drive target => v.vfsMount drive target
  | .umount what => some (v.vfsUmount what)
  | .format drive fsname => v.vfsFormat drive fsname
  | .open path fl => v.vfsOpen path fl
  | .close fd => some (v.vfsClose (fdIndex fd))

/-- The states reached from `vfs_init` on the drives of `v₀`. -/
inductive TableRun (v₀ : Vfs) : Vfs → Prop
  | init {v : Vfs} : v₀.vfsInit = some v → TableRun v₀ v
  | call {v v' : Vfs} {r : Int} (c : TableCall) : TableRun v₀ v → c.run v = some (r, v') →
      TableRun v₀ v'

theorem Tables.cleared : Tables v.cleared := by
  refine ⟨fun r => ⟨fun h => (by cases h), fun h => (by cases h.2.1)⟩, fun _ _ _ => rfl,
    fun _ _ _ _ h => (by cases h), fun _ _ h => (by cases h), fun _ _ h => (by cases h)⟩

theorem Tables.remount {h : Hdr} (ks : List Nat) : ∀ {v : Vfs}, Tables v →
    v.remount h ks = some v' → Tables v' := by
  induction ks with
  | nil =>
    intro v htab hr
    rw [← Option.some.inj hr]
    exact htab
  | cons k ks ih =>
    intro v htab hr
    rw [Vfs.remount] at hr
    split at hr
    · exact ih htab hr
    · split at hr
      · exact ih htab hr
      · obtain ⟨r, hm, hr⟩ := Option.bind_eq_some_iff.mp hr
        exact ih (htab.doMount hm).1 hr

theorem tables_vfsInit (h : v.vfsInit = some v') : Tables v' := by
  rw [vfsInit] at h
  split at h
  · rw [← Option.some.inj h]
    exact Tables.cleared
  · obtain ⟨r, hm, h⟩ := Option.bind_eq_some_iff.mp h
    have htab := (Tables.cleared.doMount hm).1
    split at h
    · rw [← Option.some.inj h]
      exact htab
    · obtain ⟨u, hu, h⟩ := Option.bind_eq_some_iff.mp h
      exact (htab.remount _ hu).same (sameTables_setCwdDefault h)

theorem Tables.vfsMount {drive target : CStr} (h : Tables v)
    (hm : v.vfsMount drive target = some (r, v')) : Tables v' ∧ v'.files = v.files := by
  rw [Vfs.vfsMount] at hm
  split at hm
  · cases hm
    exact ⟨h, rfl⟩
  · split at hm
    · cases hm
      exact ⟨h, rfl⟩
    · exact h.doMount hm

theorem Tables.call {c : TableCall} (h : Tables v) (hc : c.run v = some (r, v')) :
    Tables v' := by
  cases c with
  | mount drive target => exact (h.vfsMount hc).1
  | umount what =>
    obtain ⟨-, rfl⟩ := Prod.mk.inj (Option.some.inj hc)
    exact h.doUmount.1
  | format drive fsname => exact h.same (vfsFormat_keeps hc).1.toSameTables
  | «open» path fl => exact h.openLocked hc
  | close fd =>
    obtain ⟨-, rfl⟩ := Prod.mk.inj (Option.some.inj hc)
    exact h.vfsClose

theorem TableRun.tables {v₀ : Vfs} (h : TableRun v₀ v) : Tables v := by
  induction h with
  | init hinit => exact tables_vfsInit hinit
  | call c _ hc ih => exact ih.call hc

/-- In every state that calls reach after `vfs_init`: there is at most one root, `s_root` is
the root if there is one, without a root nothing is mounted, mountpoints differ even ignoring
case, a descriptor in use is on a mount in use, the open counts are the numbers of such
descriptors, and a format leaves every mounted drive as it is. -/
theorem run_tables {v₀ : Vfs} (h : TableRun v₀ v) :
    (∀ i j, v.Mounted i → v.Mounted j → (v.mounts i).isRoot = true → (v.mounts j).isRoot = true →
      i = j) ∧
    (∀ r, v.root = some r ↔ v.Mounted r ∧ (v.mounts r).isRoot = true) ∧
    (v.root = none → ∀ i, ¬v.Mounted i) ∧
    (∀ i j, v.Mounted i → v.Mounted j → i ≠ j →
      strcaseEq (v.mounts i).mountpoint (v.mounts j).mountpoint = false) ∧
    (∀ fd, fd < vfsMaxFds → (v.files fd).used = true → v.Mounted (v.files fd).mount) ∧
    (∀ i, v.Mounted i → (v.mounts i).openCount = v.openFds i) ∧
    ∀ drive fsname r v', v.vfsFormat drive fsname = some (r, v') →
      ∀ i, v.Mounted i → v'.drives (v.mounts i).drive = v.drives (v.mounts i).drive := by
  have htab := h.tables
  have hroot : ∀ r, v.root = some r ↔ v.Mounted r ∧ (v.mounts r).isRoot = true := fun r => by
    rw [htab.root, Mounted, and_assoc]
  refine ⟨fun i j hi hj hri hrj => ?_, hroot, fun hn i hi => ?_, fun i j hi hj =>
    htab.distinct i j hi.1 hj.1 hi.2 hj.2, htab.attached, fun i hi => htab.counts i hi.1 hi.2,
    fun drive fsname r v' hf => (vfsFormat_keeps hf).2⟩
  · exact Option.some.inj (((hroot i).mpr ⟨hi, hri⟩).symm.trans ((hroot j).mpr ⟨hj, hrj⟩))
  · have := htab.noRoot hn i hi.1
    rw [hi.2] at this
    cases this

/-- One drive, all of whose sectors hold `sec`. -/
def oneDrive (sec : Sector) : Vfs where
  activeDrives := 1
  drives := fun _ => ⟨0x1F0, 0, 1024, ⟨fun _ => sec, []⟩⟩
  cos := ⟨Buf.zero, Superblock.decode Buf.zero, 0, 0, 0⟩
  gFat32 := zeroFat32
  mounts := fun _ => zeroMount
  root := none
  files := fun _ => zeroFile
  cwd := rootPath
  cosLoaded := none
  seq := 0

section oneDrive

variable {sec : Sector}

section

variable (h : sec.get32 0 = fsMagic)
include h

theorem detectEx_oneDrive : (oneDrive sec).cleared.detectEx 0 = some (.cosfs, 0) := by
  rw [detectEx, if_neg (by simp [cleared, oneDrive])]
  exact if_pos h

/-- Without a header, `vfs_init` mounts nothing. -/
theorem vfsInit_oneDrive (h1 : sec.get32 hdrCosOffset ≠ hdrMagic)
    (h2 : sec.get32 hdrCosOffset ≠ hdrMagicV1) :
    (oneDrive sec).vfsInit = some (oneDrive sec).cleared := by
  have hread : (oneDrive sec).cleared.hdrRead 0 .cosfs 0 = some (sec.slice hdrCosOffset 320) := rfl
  have hmagic : Hdr.magic (sec.slice hdrCosOffset 320) = sec.get32 hdrCosOffset := by
    rw [Hdr.magic, Buf.get32_slice _ (by decide)]
    rfl
  have hnone : (oneDrive sec).cleared.bootHdr 0 = none := by
    simp only [bootHdr, detectEx_oneDrive h, hread, Option.bind_eq_bind, Option.bind_some, hmagic]
    rw [if_neg h2, hmagic, if_neg fun hc => h1 hc.1]
  rw [vfsInit]
  simp only [show (oneDrive sec).cleared.activeDrives = 1 from rfl, List.range_one,
    List.findSome?_cons, hnone, Option.map_none, List.findSome?_nil]

theorem initFs_oneDrive (htype : sec.get 64 = 2) :
    ((oneDrive sec).cleared.cosOn 0).initFs.gSuperblock.magic = fsMagic := by
  have hmagic : (Superblock.decode (((oneDrive sec).cleared.cosOn 0).blockRead 0)).magic =
      fsMagic := h
  rw [Cos.initFs, Cos.loadFs, if_pos hmagic]
  dsimp only
  obtain ⟨bm, hbm⟩ := Cos.loadInodeBitmap_fields { (oneDrive sec).cleared.cosOn 0 with
    gSuperblock := Superblock.decode (((oneDrive sec).cleared.cosOn 0).blockRead 0)
    blockBitmapSectors := Cos.bitmapSectors
      (Superblock.decode (((oneDrive sec).cleared.cosOn 0).blockRead 0)).totalBlocks
    inodeBitmapSectors := Cos.inodeSectors
      (Superblock.decode (((oneDrive sec).cleared.cosOn 0).blockRead 0)).inodeCount }
  rw [hbm, if_pos]
  · exact h
  · show (sec.slice (0 % inodesPerBlock * inodeSize) 128).get 64 = 2
    rw [Buf.get_slice_lt _ (by decide)]
    exact htype

/-- Such a drive can be mounted. -/
theorem tableRun_oneDrive (htype : sec.get 64 = 2)
    (h1 : sec.get32 hdrCosOffset ≠ hdrMagic) (h2 : sec.get32 hdrCosOffset ≠ hdrMagicV1) :
    ∃ v, TableRun (oneDrive sec) v ∧ v.root = some 0 := by
  obtain ⟨w, hw, hroot⟩ := doMount_root_cos Tables.cleared rfl (detectEx_oneDrive h)
    (initFs_oneDrive h htype)
  refine ⟨w, .call (r := 0) (.mount ⟨[0x30], by decide⟩ rootPath)
    (.init (vfsInit_oneDrive h h1 h2)) ?_, hroot⟩
  have hdrive : (oneDrive sec).cleared.parseDrive ⟨[0x30], by decide⟩ = some 0 := rfl
  have hpath : normalize (oneDrive sec).cleared.cwd rootPath = some rootPath := by
    show normalize rootPath rootPath = some rootPath
    decide
  simp only [TableCall.run, Vfs.vfsMount, hdrive, hpath]
  exact hw

end

end oneDrive

/-- A sector with a magic number and, as the first inode, the type of a directory. -/
def cosSector : Sector := (Buf.zero.put32 0 fsMagic).put8 64 2

theorem get32_cosSector : cosSector.get32 0 = fsMagic ∧ cosSector.get32 hdrCosOffset = 2 := by
  refine ⟨?_, ?_⟩
  · rw [cosSector, Buf.put8, Buf.get32_splice_out (.inl (by decide)),
      Buf.get32_put32_same _ (by decide)]
    rfl
  · simp [cosSector, hdrCosOffset, Buf.get32, Buf.put8, Buf.put32, Buf.get_splice]

theorem get_cosSector : cosSector.get 64 = 2 := by
  simp [cosSector, Buf.put8, Buf.get_splice]

/-- There is a root for the theorem to speak of. -/
theorem run_tables_oneDrive : ∃ v, TableRun (oneDrive cosSector) v ∧ v.root = some 0 ∧
    v.Mounted 0 := by
  obtain ⟨hmagic, hhdr⟩ := get32_cosSector
  obtain ⟨v, hrun, hroot⟩ := tableRun_oneDrive hmagic get_cosSector (by rw [hhdr]; decide)
    (by rw [hhdr]; decide)
  exact ⟨v, hrun, hroot, (((run_tables hrun).2.1 0).mp hroot).1⟩

end Vfs

end Crusadia
