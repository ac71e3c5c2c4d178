import Crusadia.Fat.Format
import Crusadia.Vfs.Context
import Crusadia.Vfs.Descriptor

/-!
# Crusadia.Vfs.ContextRun

**The loaded COS context over runs.** Calls on mounted drives keep `Vfs.Context`, whatever
file systems the drives hold. Three things do not: `vfs_format` with `fat32` on the drive
that is loaded, which leaves `s_cos_loaded` as it is once it writes; a write that overruns a COS
drive or goes to an inode that is no file; and mounting a drive that has the COS magic number but no
COS file system. `Vfs.run_context` is the invariant over runs without these.
-/

namespace Crusadia

theorem Superblock.decode_splice (sec : Sector) {off : Nat} (h : 32 ≤ off) (len : Nat)
    (src : Nat → Byte) : Superblock.decode (sec.splice off len src) = Superblock.decode sec := by
  simp (disch := omega) only [Superblock.decode, Buf.get32_splice_out]

namespace Vfs

variable {v v' : Vfs} {i d sectors : Nat} {K : Set Nat} {r : Int} {fs : FsType} {path : CStr}

/-! ### Work on mounted drives -/

namespace Context

section

variable (h : v.Context K)
include h

theorem hdrWrite (hd : fs = .fat32 → d ∉ K) (part : Nat) (hdr : Hdr) :
    (v.hdrWrite d fs part hdr).2.Context K := by
  cases fs with
  | cosfs => exact h.writeBoot (Superblock.decode_splice _ (by decide) _ _)
  | fat32 =>
    rw [Vfs.hdrWrite]
    split
    · exact h
    · exact h.setDisk (hd rfl) _

theorem persist (hroot : ∀ r, v.root = some r → v.Mounted r) : v.persist.2.Context K := by
  rw [Vfs.persist]
  split
  · exact h
  · rename_i r hr
    exact h.hdrWrite (fun hfs => h.apart _ ⟨r, hroot r hr, hfs, rfl⟩) _ _

theorem backendUnmount (hi : v.Mounted i) : (v.backendUnmount i).Context K := by
  rw [Vfs.backendUnmount]
  dsimp only
  split
  · exact h
  · split
    · split
      · exact h.sub rfl rfl (.inr rfl) fun hm => hm
      · exact h
    · rename_i hfs
      exact (h.ctxEnter hi).putFat (h.apart _ ⟨i, hi, hfs, rfl⟩) _

theorem setCwd (c : CStr) : ({ v with cwd := c } : Vfs).Context K :=
  h.sub rfl rfl (.inl rfl) fun hm => hm

theorem setCwdDefault (heq : v.setCwdDefault = some v') : v'.Context K := by
  rw [Vfs.setCwdDefault] at heq
  dsimp only at heq
  split at heq
  · rw [← Option.some.inj heq]
    exact h.setCwd _
  · rename_i hfind
    obtain ⟨r, -, rfl⟩ := Option.map_eq_some_iff.mp heq
    have hin := (h.setCwd rootPath).ctxEnter (mounted_of_findMount hfind)
    refine ctxLeave ?_
    split
    · exact hin.setCwd _
    · exact hin

/-! ### Mounting -/

/-- The superblock of a drive in `K` has the magic number. -/
theorem magic (hd : d ∈ K) : (v.readSector d 0).get32 0 = fsMagic := by
  obtain ⟨L, _, _, hL⟩ := h.holds d hd
  exact (congrArg Superblock.magic hL.boot).trans L.magic

/-- A drive with a COS file system becomes known. -/
theorem know {L : Layout} (hL : (v.cosOn d).Holds L)
    (hfat : ¬ v.MountedAs .fat32 d) : v.Context (insert d K) := by
  refine ⟨fun e he => ?_, fun e he => ?_, fun e he => .inr (h.mounted e he), fun e he => ?_⟩
  · obtain ⟨hK, hload⟩ := h.loaded e he
    exact ⟨.inr hK, hload⟩
  · rcases he with rfl | hK
    · exact ⟨L, hL⟩
    · exact h.holds e hK
  · rintro (rfl | hK)
    · exact hfat he
    · exact h.apart e he hK

/-- A slot of the mount table is filled in. -/
theorem setMount {m : VfsMount}
    (hm : m.used = true → (m.fs = .cosfs ↔ m.drive ∈ K)) : (v.setMount i m).Context K := by
  have hcases : ∀ {fs e}, (v.setMount i m).MountedAs fs e →
      v.MountedAs fs e ∨ m.used = true ∧ m.fs = fs ∧ m.drive = e := by
    rintro fs e ⟨j, ⟨hj, hu⟩, hfs, hdrive⟩
    rw [mounts_setMount] at hu hfs hdrive
    split at hu
    · rename_i hji
      rw [if_pos hji] at hfs hdrive
      exact .inr ⟨hu, hfs, hdrive⟩
    · rename_i hji
      rw [if_neg hji] at hfs hdrive
      exact .inl ⟨j, ⟨hj, hu⟩, hfs, hdrive⟩
  refine ⟨h.loaded, h.holds, fun e he => ?_, fun e he => ?_⟩
  · rcases hcases he with he | ⟨hu, hfs, rfl⟩
    · exact h.mounted e he
    · exact (hm hu).mp hfs
  · rcases hcases he with he | ⟨hu, hfs, rfl⟩
    · exact h.apart e he
    · intro hK
      have := hfs.symm.trans ((hm hu).mpr hK)
      cases this

theorem mountBackend (hfs : fs = .cosfs ↔ d ∈ K) (i part : Nat) :
    (v.mountBackend i d fs part).2.Context K := by
  have hset : (v.setMount i { zeroMount with drive := d, fs, partLba := part }).Context K :=
    h.setMount fun hu => by cases hu
  cases fs with
  | cosfs =>
    obtain ⟨L, hL⟩ := hset.holds d (hfs.mp rfl)
    have hput := hset.putLoaded hL.initFs.1 (hfs.mp rfl)
    simp only [Vfs.mountBackend]
    split
    · exact hput.sub rfl rfl (.inr rfl) fun hm => hm
    · exact hput
  | fat32 =>
    have hd : d ∉ K := fun hK => by cases hfs.mpr hK
    simp only [Vfs.mountBackend]
    split
    · exact hset.putFat hd _
    · exact (hset.putFat hd _).same (kept_setFat _).toSameTables rfl rfl rfl

theorem fs_iff (hi : v.Mounted i) : (v.mounts i).fs = .cosfs ↔ (v.mounts i).drive ∈ K := by
  refine ⟨fun hfs => h.mounted _ ⟨i, hi, hfs, rfl⟩, fun hK => ?_⟩
  cases hfs : (v.mounts i).fs with
  | cosfs => rfl
  | fat32 => exact absurd hK (h.apart _ ⟨i, hi, hfs, rfl⟩)

/-- `s_root` and the sequence number do not matter. -/
theorem setRoot (root : Option Nat) (seq : Nat) : ({ v with root, seq } : Vfs).Context K :=
  h.sub rfl rfl (.inl rfl) fun hm => hm

theorem mountPublished (hi : v.Mounted i)
    (hroot : ∀ r, v.root = some r → v.Mounted r) {isRoot boot : Bool}
    (heq : v.mountPublished i isRoot boot = some (r, v')) : v'.Context K := by
  rw [Vfs.mountPublished] at heq
  split at heq
  · generalize hw :
      ({ v.setMount i { v.mounts i with isRoot := true } with root := some i } : Vfs) = w at heq
    have hset : w.Context K := hw ▸ (h.setMount (i := i) (m := { v.mounts i with isRoot := true })
      fun _ => h.fs_iff hi).setRoot (some i) v.seq
    have hmounted : w.Mounted i := by
      refine ⟨hi.1, ?_⟩
      rw [← hw, mounts_setMount_self]
      exact hi.2
    have hwroot : w.root = some i := by rw [← hw]
    split at heq
    · obtain ⟨u, hu, heq⟩ := Option.bind_eq_some_iff.mp heq
      cases heq
      exact hset.setCwdDefault hu
    · obtain ⟨u, hu, heq⟩ := Option.bind_eq_some_iff.mp heq
      have hk := (work_ensureDefaults _ hu).kept
      have hui : u.Mounted i := hk.mounted.mpr hmounted
      have hpersist := (hset.work (work_ensureDefaults _ hu)).persist fun r hr => by
        rw [hk.root, hwroot] at hr
        rwa [← Option.some.inj hr]
      dsimp only at heq
      split at heq
      · cases heq
        have hdown := hpersist.backendUnmount (kept_persist.mounted.mpr hui)
        exact (hdown.setMount (i := i) fun hused => by cases hused).setRoot none _
      · obtain ⟨x, hx, heq⟩ := Option.bind_eq_some_iff.mp heq
        cases heq
        exact hpersist.setCwdDefault hx
  · cases heq
    split
    · exact h
    · exact h.persist hroot

end

end Context

/-- A drive that `do_mount` takes for a COS drive holds a COS file system, and is not mounted
as FAT32 at the same time. -/
def MountSafe (v : Vfs) (d : Nat) : Prop :=
  (v.readSector d 0).get32 0 = fsMagic → (∃ L, (v.cosOn d).Holds L) ∧ ¬ v.MountedAs .fat32 d

theorem detectEx_cosfs_iff {part : Nat} (h : v.detectEx d = some (fs, part)) :
    fs = .cosfs ↔ (v.readSector d 0).get32 0 = fsMagic := by
  rw [detectEx] at h
  split at h
  · cases h
  dsimp only at h
  split at h
  · rename_i hmagic
    cases h
    exact iff_of_true rfl hmagic
  rename_i hmagic
  refine iff_of_false ?_ hmagic
  rintro rfl
  split at h
  · cases h
  split at h
  · obtain ⟨k, -, hk⟩ := List.exists_of_findSome?_eq_some h
    split at hk
    · split at hk <;> cases hk
    · cases hk
  · cases h

theorem Context.doMount (h : v.Context K) (hroot : ∀ r, v.root = some r → v.Mounted r)
    (hsafe : v.MountSafe d) {t : CStr} {boot : Bool} (heq : v.doMount d t boot = some (r, v')) :
    ∃ K', v'.Context K' := by
  rw [Vfs.doMount] at heq
  split at heq
  · cases heq
    exact ⟨K, h⟩
  split at heq
  · cases heq
    exact ⟨K, h⟩
  · cases heq
    exact ⟨K, h⟩
  rename_i fs part i hdetect hslot
  -- from here on the drives that are known include `d` exactly if it is a COS drive
  obtain ⟨K', h', hfs⟩ : ∃ K', v.Context K' ∧ (fs = .cosfs ↔ d ∈ K') := by
    by_cases hmagic : (v.readSector d 0).get32 0 = fsMagic
    · obtain ⟨⟨L, hL⟩, hfat⟩ := hsafe hmagic
      exact ⟨insert d K, h.know hL hfat, iff_of_true ((detectEx_cosfs_iff hdetect).mpr hmagic)
        (.inl rfl)⟩
    · exact ⟨K, h, iff_of_false (fun hc => hmagic ((detectEx_cosfs_iff hdetect).mp hc))
        fun hK => hmagic (h.magic hK)⟩
  obtain ⟨hi, hfree⟩ := freeSlot_eq_some hslot
  obtain ⟨⟨c, u⟩, hu, heq⟩ := Option.bind_eq_some_iff.mp heq
  have hk := (work_mountDirs hu).kept
  have hdirs := h'.work (work_mountDirs hu)
  dsimp only at heq
  split at heq
  · cases heq
    exact ⟨K', hdirs⟩
  have hready := kept_mountBackend u i d fs part
  have hback := hdirs.mountBackend hfs i part
  split at heq
  · obtain ⟨-, rfl⟩ := Prod.mk.inj (Option.some.inj heq)
    exact ⟨K', hback⟩
  generalize (u.mountBackend i d fs part).2 = x at heq hready hback
  have hxd : (x.mounts i).drive = d ∧ (x.mounts i).fs = fs := by
    rw [hready.drive, hready.fs, mounts_setMount_self]
    exact ⟨rfl, rfl⟩
  have hpub := (hback.setMount (i := i)
    (m := { x.mounts i with mountpoint := t, used := true, seq := x.seq + 1 })
    fun _ => by rw [hxd.1, hxd.2]; exact hfs).setRoot x.root (x.seq + 1)
  refine ⟨K', hpub.mountPublished ⟨hi, ?_⟩ (fun r hr => ?_) heq⟩
  · dsimp only
    rw [mounts_setMount_self]
  · -- the root is another slot, as `i` was free
    have hr' : v.root = some r := hk.root ▸ hready.root ▸ hr
    obtain ⟨hlt, hused⟩ := hroot r hr'
    have hri : r ≠ i := by
      rintro rfl
      rw [hfree] at hused
      cases hused
    refine ⟨hlt, ?_⟩
    dsimp only
    rw [mounts_setMount, if_neg hri, hready.used, mounts_setMount, if_neg hri, hk.used]
    exact hused

/-! ### Unmounting and formatting -/

theorem Context.doUmount (h : v.Context K) (htab : Tables v) (what : CStr) :
    (v.doUmount what).2.Context K := by
  rw [Vfs.doUmount]
  split
  · exact h
  rename_i i hslot
  split
  · exact h
  have hi := mounted_of_umountSlot hslot
  have hk : Kept v (v.backendUnmount i) := kept_backendUnmount
  have hdown := (h.backendUnmount hi).setMount (i := i)
    (m := { (v.backendUnmount i).mounts i with used := false }) fun hu => by cases hu
  dsimp only
  split
  · have hnone := hdown.setRoot none (v.backendUnmount i).seq
    refine Context.setCwd ?_ _
    split
    · exact hnone.hdrWrite (fun hfs => h.apart _ ⟨i, hi, hfs, rfl⟩) _ _
    · exact hnone
  · rename_i hisRoot
    have hpersist := hdown.persist fun r hr => by
      obtain ⟨hlt, hused, hrr⟩ := (htab.root r).mp (hk.root ▸ hr)
      have hri : r ≠ i := by
        rintro rfl
        exact hisRoot hrr
      refine ⟨hlt, ?_⟩
      rw [mounts_setMount, if_neg hri, hk.used]
      exact hused
    split
    · exact hpersist.setCwd _
    · exact hpersist

/-- The drive on which a FAT32 format writes is not the one that is loaded. -/
def FormatSafe (v : Vfs) (drive fsname : CStr) : Prop :=
  ∀ d, v.parseDrive drive = some d → fsByName fsname = some .fat32 → v.driveRefs d none = 0 →
    Fat.FormatWrites (v.drives d).totalSectors 0 → v.cosLoaded ≠ some d

/-- A format that is refused for the size of the drive changes nothing. -/
theorem doFormat_refused (hsize : ¬ Fat.FormatWrites (v.drives d).totalSectors 0)
    (heq : v.doFormat d .fat32 = some (r, v')) : v' = v := by
  simp only [doFormat, Fat.fat32Format_refused hsize] at heq
  split at heq
  · cases heq
    rfl
  · have hput : v.putFat d (v.fatOn d) = v := by
      simp only [putFat, setDisk, fatOn, Function.update_eq_self]
    cases heq
    exact hput

theorem doFormat_cos (hsize : 1024 ≤ (v.drives d).totalSectors) : v.doFormat d .cosfs =
    some (0, { v.putCos d { (v.cosOn d).qformatFs with gCurrentDir := 0 } with
      cosLoaded := some d }) := by
  have hL := Cos.loaded_qformatFs (v.cosOn d) (show 6 ≤ (v.drives d).totalSectors by omega)
  obtain ⟨w, hrep, -⟩ := hL.sound
  have hmagic : (v.cosOn d).qformatFs.gSuperblock.magic = fsMagic := by
    rw [hrep.sb]
    exact Layout.magic _
  rw [doFormat]
  dsimp only
  rw [if_neg (by omega)]
  generalize (v.cosOn d).qformatFs = q at hmagic ⊢
  rw [if_pos (show (v.putCos d { q with gCurrentDir := 0 }).cos.gSuperblock.magic = fsMagic from
    hmagic)]
  rfl

section

variable (h : v.Context K)
include h

theorem Context.forget (hload : v.cosLoaded ≠ some d) (hfree : ¬ v.MountedAs .cosfs d) :
    v.Context (K \ {d}) := by
  refine ⟨fun e he => ?_, fun e he => h.holds e he.1, fun e he => ?_,
    fun e he hK => h.apart e he hK.1⟩
  · obtain ⟨hK, hL⟩ := h.loaded e he
    refine ⟨⟨hK, ?_⟩, hL⟩
    rintro rfl
    exact hload he
  · refine ⟨h.mounted e he, ?_⟩
    rintro rfl
    exact hfree he

theorem Context.doFormat (hrefs : v.driveRefs d none = 0)
    (hsafe : fs = .fat32 → Fat.FormatWrites (v.drives d).totalSectors 0 → v.cosLoaded ≠ some d)
    (heq : v.doFormat d fs = some (r, v')) : ∃ K', v'.Context K' := by
  have hfree : ∀ {fs}, ¬ v.MountedAs fs d := fun ⟨i, hi, _, hd⟩ => ne_drive_of_driveRefs hi hrefs hd
  cases fs with
  | cosfs =>
    by_cases hsize : (v.drives d).totalSectors < 1024
    · simp only [Vfs.doFormat, if_pos hsize] at heq
      cases heq
      exact ⟨K, h⟩
    · have hL : ((v.cosOn d).qformatFs).Loaded (Layout.ofDrive (v.drives d).totalSectors) :=
        Cos.loaded_qformatFs (v.cosOn d) (show 6 ≤ (v.drives d).totalSectors by omega)
      rw [doFormat_cos (by omega)] at heq
      cases heq
      exact ⟨insert d K, h.putNew (hL.setCwd 0) hfree⟩
  | fat32 =>
    by_cases hsize : Fat.FormatWrites (v.drives d).totalSectors 0
    swap
    · exact ⟨K, doFormat_refused hsize heq ▸ h⟩
    -- the drive is no longer one that is known to hold a COS file system
    have hout := h.forget (hsafe rfl hsize) hfree
    have hd : d ∉ K \ {d} := fun hK => hK.2 rfl
    simp only [Vfs.doFormat] at heq
    refine ⟨K \ {d}, ?_⟩
    split at heq
    · cases heq
      exact hout
    · split at heq
      · cases heq
        exact hout.putFat hd _
      · obtain ⟨s, -, hs⟩ := Option.map_eq_some_iff.mp heq
        cases hs
        exact (hout.putFat hd _).hdrWrite (fun _ => hd) _ _

theorem Context.vfsFormat {drive fsname : CStr}
    (hsafe : v.FormatSafe drive fsname) (heq : v.vfsFormat drive fsname = some (r, v')) :
    ∃ K', v'.Context K' := by
  have hsame : ∀ {c : Int}, some (c, v) = some (r, v') → ∃ K', v'.Context K' := by
    intro c hc
    cases hc
    exact ⟨K, h⟩
  rw [Vfs.vfsFormat] at heq
  split at heq
  · exact hsame heq
  rename_i d hd
  split at heq
  · exact hsame heq
  rename_i fs hfs
  split at heq
  · exact hsame heq
  have hrefs : v.driveRefs d none = 0 := by omega
  exact h.doFormat hrefs (fun hf => hsafe d hd (hf ▸ hfs) hrefs) heq

theorem Context.vfsMount (htab : Tables v) {drive target : CStr}
    (hsafe : ∀ d, v.parseDrive drive = some d → v.MountSafe d)
    (heq : v.vfsMount drive target = some (r, v')) : ∃ K', v'.Context K' := by
  rw [Vfs.vfsMount] at heq
  split at heq
  · cases heq
    exact ⟨K, h⟩
  rename_i d hd
  split at heq
  · cases heq
    exact ⟨K, h⟩
  · exact h.doMount (fun _ => htab.mounted_root) (hsafe d hd) heq

/-! ### Files -/

theorem Context.setFile (fd : Nat) (f : VfsFile) : (v.setFile fd f).Context K :=
  h.sub rfl rfl (.inl rfl) fun hm => hm

theorem Context.openLocked {tag : CStr} {fl : OpenFlags}
    (heq : v.openLocked path fl tag = some (r, v')) : v'.Context K := by
  rcases openLocked_cases heq with ⟨-, hw⟩ | ⟨fd, f, u, -, hi, -, -, hw, -, rfl⟩
  · exact h.work hw
  · have hctx := h.work hw
    exact (hctx.setFile fd f).setMount fun _ => hctx.fs_iff (hw.kept.mounted.mpr hi)

theorem Context.vfsClose (htab : Tables v) (fd : Nat) : (v.vfsClose fd).2.Context K := by
  rw [Vfs.vfsClose]
  split
  · exact h
  · rename_i f hf
    obtain ⟨hfd, hu, rfl⟩ := fget_eq_some hf
    have hat : v.Mounted (v.files fd).mount := htab.attached fd hfd hu
    dsimp only
    refine Context.setFile (h.setMount ?_) fd _
    exact fun _ => h.fs_iff hat

theorem Context.vfsPread (htab : Tables v) (fd off n : Nat) :
    (v.vfsPread fd off n).2.Context K := by
  rw [Vfs.vfsPread]
  split
  · exact h
  · rename_i f hf
    obtain ⟨hfd, hu, rfl⟩ := fget_eq_some hf
    exact ((h.ctxEnter (htab.attached fd hfd hu)).setFile fd _).ctxLeave

theorem Context.vfsRead (htab : Tables v) (fd n : Nat) : (v.vfsRead fd n).2.Context K := by
  rw [Vfs.vfsRead]
  split
  · exact h
  · rename_i f hf
    obtain ⟨hfd, hu, rfl⟩ := fget_eq_some hf
    exact ((h.ctxEnter (htab.attached fd hfd hu)).setFile fd _).ctxLeave

theorem Context.vfsLseek (fd : Nat) (offset whence : Int) :
    (v.vfsLseek fd offset whence).2.Context K := by
  rw [Vfs.vfsLseek]
  split
  · exact h
  · dsimp only
    split
    · exact h.setFile fd _
    · exact h

end

/-- A write to a COS drive goes to a file and does not overrun the drive. -/
def WriteSafe (v : Vfs) (fd : Nat) (data : List Byte) : Prop :=
  ∀ f, v.fget fd = some f → f.writable = true → (v.mounts f.mount).fs = .cosfs → data ≠ [] →
    ∀ L : Layout, L.sb = (v.enteredCos f.mount).gSuperblock →
      (v.enteredCos f.mount).WriteOk L f.id (if f.append then f.size else f.pos) data

section

variable (h : v.Context K)
include h

theorem Context.vfsWrite (htab : Tables v) (hwords : Words v) {fd : Nat}
    {data : List Byte} (hsafe : v.WriteSafe fd data) (heq : v.vfsWrite fd data = some (r, v')) :
    v'.Context K := by
  rw [Vfs.vfsWrite] at heq
  split at heq
  · cases heq
    exact h
  rename_i f hf
  split at heq
  · cases heq
    exact h
  rename_i hw
  have hsafe := hsafe f hf (by simpa using hw)
  obtain ⟨hfd, hu, rfl⟩ := fget_eq_some hf
  have hi : v.Mounted (v.files fd).mount := htab.attached fd hfd hu
  dsimp only at heq
  generalize hg : (if (v.files fd).append then { v.files fd with pos := (v.files fd).size }
    else v.files fd) = g at heq
  have hmount : g.mount = (v.files fd).mount ∧ g.id = (v.files fd).id ∧
      g.pos = (if (v.files fd).append then (v.files fd).size else (v.files fd).pos) := by
    rw [← hg]
    split <;> exact ⟨rfl, rfl, rfl⟩
  have hpos : g.pos < 2 ^ 32 := by
    rw [hmount.2.2]
    split
    · exact (hwords fd).2
    · exact (hwords fd).1
  rw [hmount.1] at heq
  have hin := h.ctxEnter hi
  have hent := entered_ctxEnter hi
  have hk : Kept v (v.ctxEnter (v.files fd).mount) := kept_ctxEnter
  split at heq
  · rename_i hfs
    cases heq
    refine ctxLeave (setFile ?_ fd _)
    obtain ⟨-, L, hL⟩ := hin.loaded _ (hent.loaded hfs)
    refine hin.putCos (hent.loaded hfs) (L := L) ?_
    rw [cosWriteAt]
    split
    · exact hL
    · rename_i hdata
      have hok : ((v.ctxEnter (v.files fd).mount).cosOn
          ((v.ctxEnter (v.files fd).mount).mounts (v.files fd).mount).drive).WriteOk L g.id g.pos
          data := by
        rw [hk.drive, hmount.2.1, hmount.2.2]
        refine hsafe ((hk.fs _).symm.trans hfs) hdata L ?_
        obtain ⟨w, hrep, -⟩ := hL.sound
        rw [hk.drive] at hrep
        exact hrep.sb.symm
      have hwrite := hL.fsWrite hpos hok
      dsimp only
      split <;> exact hwrite
  · rename_i hfs
    obtain ⟨⟨c, f, s⟩, -, heq⟩ := Option.map_eq_some_iff.mp heq
    cases heq
    exact ((hin.putFat (hin.apart _ ⟨_, hent.mounted, hfs, rfl⟩) s).setFile fd _).ctxLeave

/-- `vfs_sync` changes no sector. -/
theorem Context.vfsSync :
    v.vfsSync.Context K ∧ Kept v v.vfsSync ∧ ∀ d a, v.vfsSync.readSector d a =
      v.readSector d a := by
  rw [Vfs.vfsSync]
  split
  · exact ⟨h, .refl v, fun _ _ => rfl⟩
  · rename_i d hd
    obtain ⟨-, L, hL⟩ := h.loaded d hd
    obtain ⟨w, hrep, -⟩ := hL.sound
    obtain ⟨disk, heq, hread⟩ := hrep.saveInodeBitmap_same
    rw [heq]
    refine ⟨h.putCos hd (hL.congr hread), kept_putCos _, fun e a => ?_⟩
    refine (readSector_setDisk v d disk e a).trans ?_
    split
    · rename_i hed
      rw [hed]
      exact hread a
    · rfl

end

/-- Unmounting writes to the drives that are mounted as FAT32 and to no others. -/
theorem readSector_backendUnmount (hd : ¬ v.MountedAs .fat32 d) (hi : v.Mounted i) (a : Nat) :
    (v.backendUnmount i).readSector d a = v.readSector d a := by
  rw [backendUnmount]
  dsimp only
  split
  · rfl
  · split
    · split <;> rfl
    · rename_i hfs
      refine (readSector_setDisk ..).trans ?_
      have hne : d ≠ (v.mounts i).drive := fun heq => hd ⟨i, hi, hfs, heq.symm⟩
      rw [if_neg hne, ctxEnter, hfs]
      rfl

theorem readSector_unmountAll (a : Nat) : ∀ (n : Nat) {v : Vfs}, n ≤ vfsMaxMounts →
    ¬ v.MountedAs .fat32 d → (v.unmountAll n).readSector d a = v.readSector d a := by
  intro n
  induction n with
  | zero => exact fun _ _ => rfl
  | succ n ih =>
    intro v hn hd
    rw [unmountAll]
    split
    · rename_i hu
      have hi : v.Mounted n := ⟨hn, hu⟩
      refine Eq.trans (ih (Nat.le_of_succ_le hn) fun hf => hd ?_)
        (readSector_backendUnmount hd hi a)
      -- a slot that is still in use was in use before
      obtain ⟨j, ⟨hj, hju⟩, hjfs, hjd⟩ := hf
      rw [mounts_setMount] at hju hjfs hjd
      split at hju
      · cases hju
      · rename_i hjn
        rw [if_neg hjn] at hjfs hjd
        exact kept_backendUnmount.mountedAs.mp ⟨j, ⟨hj, hju⟩, hjfs, hjd⟩
    · exact ih (Nat.le_of_succ_le hn) hd

/-! ### Runs -/

/-- The calls of the VFS layer. -/
inductive Call where
  | table (c : TableCall)
  | read (fd : Int) (count : Nat)
  | pread (fd : Int) (offset count : Nat)
  | write (fd : Int) (data : List Byte)
  | lseek (fd : Int) (offset whence : Int)
  | mkdir (path : CStr)
  | remove (path : CStr)
  | stat (path : CStr)
  | readdir (path : CStr) (max : Nat)
  | chdir (path : CStr)
  | sync

/-- The state that a call leaves behind. -/
def Call.run (v : Vfs) : Call → Option Vfs
  | .table c => (c.run v).map (·.2)
  | .read fd count => some (v.vfsRead (fdIndex fd) count).2
  | .pread fd offset count => some (v.vfsPread (fdIndex fd) offset count).2
  | .write fd data => (v.vfsWrite (fdIndex fd) data).map (·.2)
  | .lseek fd offset whence => some (v.vfsLseek (fdIndex fd) offset whence).2
  | .mkdir path => (v.vfsMkdir path).map (·.2)
  | .remove path => (v.vfsRemove path).map (·.2)
  | .stat path => (v.vfsStat path).map (·.2)
  | .readdir path max => (v.vfsReaddir path max).map (·.2)
  | .chdir path => (v.vfsChdir path).map (·.2)
  | .sync => some v.vfsSync

/-- What a call needs for the context to stay right. -/
def Call.Safe (v : Vfs) : Call → Prop
  | .table (.mount drive _) => ∀ d, v.parseDrive drive = some d → v.MountSafe d
  | .table (.format drive fsname) => v.FormatSafe drive fsname
  | .write fd data => v.WriteSafe (fdIndex fd) data
  | _ => True

/-- What the loop of `vfs_init` needs: every drive it mounts is safe to mount then. -/
def RemountSafe (v : Vfs) (h : Hdr) : List Nat → Prop
  | [] => True
  | k :: ks =>
    match if h.used k then v.hdrDrive h k else none with
    | none => RemountSafe v h ks
    | some d =>
      if (h.path k).at' 0 ≠ slash then RemountSafe v h ks else
        v.MountSafe d ∧ ∀ r, v.doMount d (h.path k) true = some r → RemountSafe r.2 h ks

/-- What `vfs_init` needs. -/
def InitSafe (v : Vfs) : Prop :=
  ∀ d h, (List.range v.activeDrives).findSome?
    (fun d => (v.cleared.bootHdr d).map fun h => (d, h)) =
    some (d, h) → v.cleared.MountSafe d ∧ ∀ r, v.cleared.doMount d rootPath true = some r →
      r.2.RemountSafe h (List.range (min h.count hdrMaxMounts))

/-- The states reached from `vfs_init` on the drives of `v₀` by safe calls. -/
inductive SafeRun (v₀ : Vfs) : Vfs → Prop
  | init {v : Vfs} : v₀.InitSafe → v₀.vfsInit = some v → SafeRun v₀ v
  | call {v v' : Vfs} (c : Call) : SafeRun v₀ v → c.Safe v → c.run v = some v' → SafeRun v₀ v'

/-- The invariant of a run. -/
structure InStep (v : Vfs) : Prop where
  tables : Tables v
  words : Words v
  context : ∃ K, v.Context K

namespace InStep

theorem kept (h : v.InStep) (hk : Kept v v') (hctx : ∃ K, v'.Context K) : v'.InStep :=
  ⟨h.tables.same hk.toSameTables, h.words.same hk.files, hctx⟩

theorem work (h : v.InStep) (hw : Work v v') : v'.InStep :=
  h.kept hw.kept (h.context.imp fun _ hK => hK.work hw)

theorem mount (h : v.InStep) (hsafe : v.MountSafe d) {t : CStr} {boot : Bool}
    (heq : v.doMount d t boot = some (r, v')) : v'.InStep := by
  obtain ⟨K, hK⟩ := h.context
  obtain ⟨htab, hfiles⟩ := h.tables.doMount heq
  exact ⟨htab, h.words.same hfiles, hK.doMount (fun _ => h.tables.mounted_root) hsafe heq⟩

theorem setCwdDefault (h : v.InStep) (heq : v.setCwdDefault = some v') : v'.InStep := by
  obtain ⟨K, hK⟩ := h.context
  have hk := sameTables_setCwdDefault heq
  exact ⟨h.tables.same hk, h.words.same hk.files, K, hK.setCwdDefault heq⟩

theorem remount {hdr : Hdr} (ks : List Nat) : ∀ {v : Vfs}, v.InStep → v.RemountSafe hdr ks →
    v.remount hdr ks = some v' → v'.InStep := by
  induction ks with
  | nil =>
    intro v h _ heq
    rw [← Option.some.inj heq]
    exact h
  | cons k ks ih =>
    intro v h hsafe heq
    rw [Vfs.remount] at heq
    rw [RemountSafe] at hsafe
    split at heq
    · rename_i hnone
      rw [hnone] at hsafe
      exact ih h hsafe heq
    · rename_i d hsome
      rw [hsome] at hsafe
      dsimp only at hsafe
      split at heq
      · rename_i hpath
        rw [if_pos hpath] at hsafe
        exact ih h hsafe heq
      · rename_i hpath
        rw [if_neg hpath] at hsafe
        obtain ⟨r, hm, hr⟩ := Option.bind_eq_some_iff.mp heq
        exact ih (h.mount hsafe.1 hm) (hsafe.2 r hm) hr

theorem cleared : v.cleared.InStep := by
  have hnone : ∀ fs d, ¬ v.cleared.MountedAs fs d := fun _ _ ⟨_, hi, _⟩ => by cases hi.2
  exact ⟨.cleared, fun _ => ⟨Nat.two_pow_pos 32, Nat.two_pow_pos 32⟩, ∅,
    ⟨fun _ hd => (by cases hd), fun _ hd => hd.elim, fun d hd => (hnone _ d hd).elim,
      fun _ _ hK => hK⟩⟩

theorem init (hsafe : v.InitSafe) (heq : v.vfsInit = some v') : v'.InStep := by
  rw [vfsInit] at heq
  split at heq
  · rw [← Option.some.inj heq]
    exact cleared
  · rename_i d h hfind
    obtain ⟨hroot, hrest⟩ := hsafe d h hfind
    obtain ⟨r, hm, heq⟩ := Option.bind_eq_some_iff.mp heq
    have hr := cleared.mount hroot hm
    split at heq
    · rw [← Option.some.inj heq]
      exact hr
    · obtain ⟨u, hu, heq⟩ := Option.bind_eq_some_iff.mp heq
      exact (hr.remount _ (hrest r hm) hu).setCwdDefault heq

theorem call (h : v.InStep) {c : Call} (hsafe : c.Safe v) (heq : c.run v = some v') :
    v'.InStep := by
  obtain ⟨K, hK⟩ := h.context
  cases c with
  | table c =>
    obtain ⟨⟨r, w⟩, hr, rfl⟩ := Option.map_eq_some_iff.mp heq
    refine ⟨h.tables.call hr, h.words.call h.tables hr, ?_⟩
    cases c with
    | mount drive target => exact hK.vfsMount h.tables hsafe hr
    | umount what =>
      obtain ⟨-, rfl⟩ := Prod.mk.inj (Option.some.inj hr)
      exact ⟨K, hK.doUmount h.tables what⟩
    | format drive fsname => exact hK.vfsFormat hsafe hr
    | «open» path fl => exact ⟨K, hK.openLocked hr⟩
    | close fd =>
      obtain ⟨-, rfl⟩ := Prod.mk.inj (Option.some.inj hr)
      exact ⟨K, hK.vfsClose h.tables _⟩
  | read fd count =>
    obtain ⟨hon, hwords⟩ := onFile_vfsRead h.words (fdIndex fd) count
    rw [← Option.some.inj heq]
    exact ⟨hon.tables h.tables, hwords, K, hK.vfsRead h.tables _ _⟩
  | pread fd offset count =>
    obtain ⟨hon, hwords⟩ := onFile_vfsPread h.words (fdIndex fd) offset count
    rw [← Option.some.inj heq]
    exact ⟨hon.tables h.tables, hwords, K, hK.vfsPread h.tables _ _ _⟩
  | write fd data =>
    obtain ⟨⟨r, w⟩, hr, rfl⟩ := Option.map_eq_some_iff.mp heq
    obtain ⟨hon, hwords⟩ := onFile_vfsWrite h.words hr
    exact ⟨hon.tables h.tables, hwords, K, hK.vfsWrite h.tables h.words hsafe hr⟩
  | lseek fd offset whence =>
    obtain ⟨hon, hwords⟩ := onFile_vfsLseek h.words (fdIndex fd) offset whence
    rw [← Option.some.inj heq]
    exact ⟨hon.tables h.tables, hwords, K, hK.vfsLseek _ _ _⟩
  | mkdir path =>
    obtain ⟨⟨r, w⟩, hr, rfl⟩ := Option.map_eq_some_iff.mp heq
    exact h.work (work_vfsMkdir hr)
  | remove path =>
    obtain ⟨⟨r, w⟩, hr, rfl⟩ := Option.map_eq_some_iff.mp heq
    exact h.work (work_vfsRemove hr)
  | stat path =>
    obtain ⟨⟨r, w⟩, hr, rfl⟩ := Option.map_eq_some_iff.mp heq
    rw [vfsStat] at hr
    split at hr
    · cases hr
      exact h
    · exact h.work (work_statAbs hr)
  | readdir path max =>
    obtain ⟨⟨r, w⟩, hr, rfl⟩ := Option.map_eq_some_iff.mp heq
    exact h.work (work_vfsReaddir hr)
  | chdir path =>
    obtain ⟨⟨r, w⟩, hr, rfl⟩ := Option.map_eq_some_iff.mp heq
    rw [vfsChdir] at hr
    split at hr
    · cases hr
      exact h
    · obtain ⟨⟨n, u⟩, hu, hr⟩ := Option.map_eq_some_iff.mp hr
      have hin := h.work (work_statAbs hu)
      dsimp only at hr
      split at hr
      · cases hr
        exact hin
      · split at hr
        · cases hr
          exact hin
        · cases hr
          exact ⟨hin.tables.same ⟨fun _ => rfl, rfl, rfl⟩, hin.words,
            hin.context.imp fun _ hctx => hctx.setCwd _⟩
  | sync =>
    obtain ⟨hctx, hk, -⟩ := hK.vfsSync
    rw [← Option.some.inj heq]
    exact h.kept hk ⟨K, hctx⟩

end InStep

theorem SafeRun.inStep {v₀ : Vfs} (h : SafeRun v₀ v) : v.InStep := by
  induction h with
  | init hsafe heq => exact .init hsafe heq
  | call c _ hsafe heq ih => exact ih.call hsafe heq

/-- The loaded context is the one of the drive: its superblock is in sector 0, and the inode
bitmap in memory is the one on the drive. -/
def Matches (v : Vfs) : Prop :=
  ∀ d, v.cosLoaded = some d → v.cos.gSuperblock.magic = fsMagic ∧
    Superblock.decode (v.readSector d 0) = v.cos.gSuperblock ∧
    ∀ k, k < v.cos.inodeBitmapSectors →
      v.readSector d (v.cos.gSuperblock.bitmapStart + v.cos.blockBitmapSectors + k) =
        v.cos.inodeBitmap.slice (k * 512) 512

theorem Context.matches (h : v.Context K) : v.Matches := by
  intro d hd
  obtain ⟨-, L, hL⟩ := h.loaded d hd
  obtain ⟨w, hrep, -⟩ := hL.sound
  have hsb : v.cos.gSuperblock = L.sb := hrep.sb
  have hbbs : v.cos.blockBitmapSectors = L.bbs := hrep.bbs
  have hibs : v.cos.inodeBitmapSectors = L.ibs := hrep.ibs
  refine ⟨?_, ?_, fun k hk => ?_⟩
  · rw [hsb, L.magic]
  · rw [hsb]
    exact hL.boot
  · rw [hsb, hbbs, L.bitmapStart]
    exact hrep.sync k (hibs ▸ hk)

/-- **The loaded context matches the drive.** In every state that safe calls reach after
`vfs_init`, over any number of drives; `vfs_sync` then changes no sector at all, and
`vfs_shutdown` none of a drive that is not mounted as FAT32. -/
theorem run_context {v₀ : Vfs} (h : SafeRun v₀ v) : v.Matches ∧
    (∀ d a, v.vfsSync.readSector d a = v.readSector d a) ∧
    ∀ d a, ¬ v.MountedAs .fat32 d → v.vfsShutdown.readSector d a = v.readSector d a := by
  obtain ⟨K, hK⟩ := h.inStep.context
  obtain ⟨-, hk, hsync⟩ := hK.vfsSync
  refine ⟨hK.matches, hsync, fun d a hd => ?_⟩
  refine (readSector_unmountAll a vfsMaxMounts (Nat.le_refl _) fun hf => hd ?_).trans (hsync d a)
  exact hk.mountedAs.mp hf

/-! ### One drive, formatted twice -/

/-- One blank drive. -/
def blankDrive (sectors : Nat) : Vfs where
  activeDrives := 1
  drives := fun _ => ⟨0x1F0, 0, sectors, ⟨fun _ => Buf.zero, []⟩⟩
  cos := ⟨Buf.zero, Superblock.decode Buf.zero, 0, 0, 0⟩
  gFat32 := zeroFat32
  mounts := fun _ => zeroMount
  root := none
  files := fun _ => zeroFile
  cwd := rootPath
  cosLoaded := none
  seq := 0

/-- The drive `0`. -/
def driveName : CStr := ⟨[0x30], by decide⟩

/-- `cos`. -/
def cosName : CStr := ⟨[0x63, 0x6F, 0x73], by decide⟩

/-- `fat32`. -/
def fatName : CStr := ⟨[0x66, 0x61, 0x74, 0x33, 0x32], by decide⟩

theorem bootHdr_blankDrive (sectors : Nat) : (blankDrive sectors).cleared.bootHdr 0 = none := by
  have hzero : (blankDrive sectors).cleared.readSector 0 0 = Buf.zero := rfl
  have hnone : (blankDrive sectors).cleared.detectEx 0 = none := by
    rw [detectEx, if_neg (by simp [cleared, blankDrive]), hzero]
    simp [isFat32Bpb, Buf.get32_zero, Buf.get_zero, fsMagic]
  simp [bootHdr, hnone]

/-- There is nothing to mount. -/
theorem safeRun_blankDrive (sectors : Nat) :
    SafeRun (blankDrive sectors) (blankDrive sectors).cleared := by
  have hfind : (List.range (blankDrive sectors).activeDrives).findSome?
      (fun d => ((blankDrive sectors).cleared.bootHdr d).map fun h => (d, h)) = none := by
    show (List.range 1).findSome? _ = none
    simp only [List.range_one, List.findSome?_cons, bootHdr_blankDrive, Option.map_none,
      List.findSome?_nil]
  refine .init (fun d h hd => ?_) ?_
  · rw [hfind] at hd
    cases hd
  · have hfind' : (List.range (blankDrive sectors).cleared.activeDrives).findSome?
      (fun d => ((blankDrive sectors).cleared.bootHdr d).map fun h => (d, h)) = none := hfind
    simp only [vfsInit, hfind']

/-- The drive after `vfs_format("0", "cos")`. -/
def cosFormatted (sectors : Nat) : Vfs :=
  { (blankDrive sectors).cleared.putCos 0
      { ((blankDrive sectors).cleared.cosOn 0).qformatFs with gCurrentDir := 0 } with
    cosLoaded := some 0 }

theorem driveRefs_of_unused (h : ∀ i, (v.mounts i).used = false) (d : Nat) :
    v.driveRefs d none = 0 := by
  simp [driveRefs, h]

theorem vfsFormat_cos (hsize : 1024 ≤ sectors) :
    (blankDrive sectors).cleared.vfsFormat driveName cosName = some (0, cosFormatted sectors) := by
  have hdrive : (blankDrive sectors).cleared.parseDrive driveName = some 0 := rfl
  have hname : fsByName cosName = some .cosfs := by decide
  have hrefs : (blankDrive sectors).cleared.driveRefs 0 none = 0 :=
    driveRefs_of_unused (fun _ => rfl) 0
  simp only [vfsFormat, hdrive, hname, hrefs]
  exact doFormat_cos (show 1024 ≤ ((blankDrive sectors).cleared.drives 0).totalSectors from hsize)

theorem safeRun_cosFormatted (hsize : 1024 ≤ sectors) :
    SafeRun (blankDrive sectors) (cosFormatted sectors) := by
  refine .call (.table (.format driveName cosName)) (safeRun_blankDrive sectors) ?_ ?_
  · intro d _ hname
    exact absurd hname (by decide)
  · simp only [Call.run, TableCall.run, vfsFormat_cos hsize, Option.map_some]

/-- A new COS drive: it is loaded, and `vfs_sync` writes what is there. -/
theorem run_context_cosFormatted :
    (cosFormatted 1024).cosLoaded = some 0 ∧ (cosFormatted 1024).Matches ∧
    ∀ a, (cosFormatted 1024).vfsSync.readSector 0 a = (cosFormatted 1024).readSector 0 a := by
  obtain ⟨hmatch, hsync, -⟩ := run_context (safeRun_cosFormatted (Nat.le_refl 1024))
  exact ⟨rfl, hmatch, hsync 0⟩

theorem readSector_putFat (v : Vfs) (d : Nat) (s : Fat) {a : Nat} (ha : a < 2 ^ 32) :
    (v.putFat d s).readSector d a = s.blockRead a := by
  have h := readSector_setDisk v d s.disk d a
  rw [if_pos rfl] at h
  rw [Fat.blockRead, Nat.mod_eq_of_lt ha]
  exact h

/-- The first byte of a FAT32 boot sector is a jump. -/
theorem bootSector_magic {p total spc fatSize : Nat} :
    (Superblock.decode (Fat.bootSector p total spc fatSize)).magic ≠ fsMagic := by
  intro h
  have hmagic : (Fat.bootSector p total spc fatSize).get32 0 = fsMagic := h
  rw [Buf.get32, (Fat.bootSector_bytes p total spc fatSize).1] at hmagic
  simp only [fsMagic] at hmagic
  have h0 : (0xEB : Byte).toNat = 0xEB := rfl
  omega

/-- **The context outlives the file system.** A drive is formatted as COS and then as FAT32, which
fails for its size, but only after the boot sector is written: the context still counts as loaded,
and the drive is no COS drive. -/
theorem reformat_stale : ∃ v, SafeRun (blankDrive 0xFFFFFFFE) (cosFormatted 0xFFFFFFFE) ∧
    (cosFormatted 0xFFFFFFFE).vfsFormat driveName fatName = some (vfsEToosmall, v) ∧
    v.cosLoaded = some 0 ∧ ¬ v.Matches := by
  have hdrive : (cosFormatted 0xFFFFFFFE).parseDrive driveName = some 0 := rfl
  have hname : fsByName fatName = some .fat32 := by decide
  have hrefs : (cosFormatted 0xFFFFFFFE).driveRefs 0 none = 0 :=
    driveRefs_of_unused (fun _ => rfl) 0
  have hfmt : ((cosFormatted 0xFFFFFFFE).fatOn 0).fat32Format 0 0xFFFFFFFE 0 =
      (-1, ((cosFormatted 0xFFFFFFFE).fatOn 0).formatted 0 0xFFFFFFFE 64) :=
    (Fat.fat32Format_spec _ (by decide) (by decide) (by decide)
      (show Fat.formatSpc 0xFFFFFFFE 0 = 64 by decide)).trans (if_pos (by decide))
  have hsize : ((cosFormatted 0xFFFFFFFE).drives 0).totalSectors = 0xFFFFFFFE := rfl
  refine ⟨(cosFormatted 0xFFFFFFFE).putFat 0
    (((cosFormatted 0xFFFFFFFE).fatOn 0).formatted 0 0xFFFFFFFE 64),
    safeRun_cosFormatted (by decide), ?_, rfl, fun hm => ?_⟩
  · simp only [vfsFormat, hdrive, hname, hrefs, doFormat, hsize, hfmt]
    rfl
  · obtain ⟨hmagic, hdecode, -⟩ := hm 0 rfl
    have hboot := (Fat.blockRead_writeFormat ((cosFormatted 0xFFFFFFFE).fatOn 0) 0 0xFFFFFFFE 64
      (Fat.formatClusters 0xFFFFFFFE 64)
      (show 32 + 2 * Fat.formatFatSize 0xFFFFFFFE 64 + 64 ≤ 2 ^ 32 by decide)).1
    rw [← hdecode] at hmagic
    rw [readSector_putFat _ _ _ (by decide), Fat.formatted, hboot] at hmagic
    exact bootSector_magic hmagic

end Vfs

end Crusadia
