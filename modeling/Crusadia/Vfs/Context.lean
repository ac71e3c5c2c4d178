import Crusadia.Vfs.Append

/-!
# Crusadia.Vfs.Context

**The loaded COS context and the drives.** One copy of a superblock and of an inode bitmap
serves all COS drives; `s_cos_loaded` is the drive it belongs to. `Vfs.Context` is the
invariant that makes this work: the copy is the one of the drive, every drive mounted as COS
holds a sound file system that can be loaded when it is entered, and no FAT32 mount is on
either.
-/

namespace Crusadia

namespace Cos

variable {L : Layout} {s : Cos}

theorem Loaded.setDrive (h : Loaded L s) (n : Nat) : Loaded L { s with driveSectors := n } := by
  obtain ⟨v, hrep, hv⟩ := h.sound
  exact ⟨⟨v, ⟨hrep.sb, hrep.bbs, hrep.ibs, hrep.cwd, hrep.boot, hrep.bit, hrep.used, hrep.sync,
    hrep.ino, hrep.blk⟩, hv⟩, h.boot⟩

end Cos

namespace Vfs

variable {v v' : Vfs} {i d : Nat} {s : Cos}

/-- Drive `d` is mounted as `fs`. -/
def MountedAs (v : Vfs) (fs : FsType) (d : Nat) : Prop :=
  ∃ i, v.Mounted i ∧ (v.mounts i).fs = fs ∧ (v.mounts i).drive = d

theorem SameTables.mountedAs (h : SameTables v v') {fs : FsType} :
    v'.MountedAs fs d ↔ v.MountedAs fs d := by
  refine exists_congr fun i => ?_
  rw [h.mounted, h.fs, h.drive]

/-- The invariant; `K` are the drives that are known to hold a COS file system. -/
structure Context (K : Set Nat) (v : Vfs) : Prop where
  loaded : ∀ d, v.cosLoaded = some d → d ∈ K ∧ ∃ L, (v.cosOn d).Loaded L
  holds : ∀ d, d ∈ K → ∃ L, (v.cosOn d).Holds L
  mounted : ∀ d, v.MountedAs .cosfs d → d ∈ K
  apart : ∀ d, v.MountedAs .fat32 d → d ∉ K

theorem readSector_setDisk (v : Vfs) (d : Nat) (disk : Disk) (e a : Nat) :
    (v.setDisk d disk).readSector e a = if e = d then disk.read a else v.readSector e a := by
  rw [readSector, drives_setDisk]
  split <;> rfl

/-- What a drive holds does not depend on what is in memory. -/
theorem holds_of_disk {L : Layout} (h : (v.cosOn d).Holds L)
    (hdisk : ∀ a, v'.readSector d a = v.readSector d a) : (v'.cosOn d).Holds L :=
  h.congr hdisk

theorem loaded_cosOn_putCos {L : Layout} (v : Vfs) (d : Nat) (h : s.Loaded L) :
    ((v.putCos d s).cosOn d).Loaded L := by
  have heq : (v.putCos d s).cosOn d = { s with driveSectors := (v.drives d).totalSectors } := by
    rw [cosOn, show (v.putCos d s).drives d = { v.drives d with disk := s.disk } from
      Function.update_self ..]
    rfl
  rw [heq]
  exact h.setDrive _

namespace Context

variable {K : Set Nat} {L : Layout}

section

variable (h : v.Context K)
include h

/-- Mounts may go, and the context may be given up. -/
theorem sub (hdrives : v'.drives = v.drives) (hcos : v'.cos = v.cos)
    (hload : v'.cosLoaded = v.cosLoaded ∨ v'.cosLoaded = none)
    (hsub : ∀ {fs d}, v'.MountedAs fs d → v.MountedAs fs d) : v'.Context K := by
  have hon : ∀ e, v'.cosOn e = v.cosOn e := by
    intro e
    rw [cosOn, cosOn, hdrives, hcos]
  refine ⟨fun e he => ?_, fun e he => ?_, fun e he => h.mounted e (hsub he),
    fun e he => h.apart e (hsub he)⟩
  · rw [hon]
    rcases hload with hl | hl
    · exact h.loaded e (hl ▸ he)
    · rw [hl] at he
      cases he
  · rw [hon]
    exact h.holds e he

/-- Changes to the rest of the state. -/
theorem same (htab : SameTables v v') (hdrives : v'.drives = v.drives)
    (hcos : v'.cos = v.cos) (hload : v'.cosLoaded = v.cosLoaded) : v'.Context K :=
  h.sub hdrives hcos (.inl hload) htab.mountedAs.mp

/-- The driver has worked on a drive and leaves it loaded. -/
theorem putNew (hs : s.Loaded L) (hd : ¬ v.MountedAs .fat32 d) :
    ({ v.putCos d s with cosLoaded := some d } : Vfs).Context (insert d K) := by
  have hon : ∀ e, ({ v.putCos d s with cosLoaded := some d } : Vfs).cosOn e =
      (v.putCos d s).cosOn e := fun _ => rfl
  have hload := loaded_cosOn_putCos v d hs
  refine ⟨fun e he => ?_, fun e he => ?_, fun e he => .inr (h.mounted e he), fun e he => ?_⟩
  · rw [hon, ← Option.some.inj he]
    exact ⟨.inl rfl, L, hload⟩
  · rw [hon]
    by_cases hed : e = d
    · rw [hed]
      exact ⟨L, hload.holds⟩
    · obtain ⟨L', hL'⟩ := h.holds e (he.resolve_left hed)
      refine ⟨L', holds_of_disk hL' fun a => ?_⟩
      exact (readSector_setDisk ..).trans (if_neg hed)
  · rintro (rfl | hK)
    · exact hd he
    · exact h.apart e he hK

theorem putLoaded (hs : s.Loaded L) (hd : d ∈ K) :
    ({ v.putCos d s with cosLoaded := some d } : Vfs).Context K := by
  have hnew := h.putNew hs fun hf => h.apart d hf hd
  rwa [Set.insert_eq_of_mem hd] at hnew

theorem putCos (hload : v.cosLoaded = some d) (hs : s.Loaded L) : (v.putCos d s).Context K := by
  have heq : v.putCos d s = { v.putCos d s with cosLoaded := some d } := by
    rw [← hload]
    rfl
  rw [heq]
  exact h.putLoaded hs (h.loaded d hload).1

/-- Another drive has been written. -/
theorem setDisk (hd : d ∉ K) (disk : Disk) : (v.setDisk d disk).Context K := by
  have hon : ∀ e, e ∈ K → (v.setDisk d disk).cosOn e = v.cosOn e := by
    intro e he
    rw [cosOn, drives_setDisk, if_neg fun hed : e = d => hd (hed ▸ he)]
    rfl
  refine ⟨fun e he => ?_, fun e he => ?_, h.mounted, h.apart⟩
  · obtain ⟨hK, hL⟩ := h.loaded e he
    rw [hon e hK]
    exact ⟨hK, hL⟩
  · rw [hon e he]
    exact h.holds e he

theorem putFat (hd : d ∉ K) (s : Fat) : (v.putFat d s).Context K :=
  (h.setDisk hd s.disk).same ⟨fun _ => rfl, rfl, rfl⟩ rfl rfl rfl

/-- Sector 0 of a drive is written with the same superblock. -/
theorem writeBoot {sec : Sector}
    (hsec : Superblock.decode sec = Superblock.decode (v.readSector d 0)) :
    (v.writeSector d 0 sec).Context K := by
  have hon : ∀ e, (v.writeSector d 0 sec).cosOn e =
      if e = d then (v.cosOn d).blockWrite 0 sec else v.cosOn e := by
    intro e
    rw [cosOn, writeSector, drives_setDisk]
    split <;> rfl
  refine ⟨fun e he => ?_, fun e he => ?_, h.mounted, h.apart⟩
  · obtain ⟨hK, L, hL⟩ := h.loaded e he
    refine ⟨hK, L, ?_⟩
    rw [hon]
    split
    · rename_i hed
      rw [hed] at hL
      exact hL.writeBoot (hsec.trans hL.boot)
    · exact hL
  · obtain ⟨L, hL⟩ := h.holds e he
    refine ⟨L, ?_⟩
    rw [hon]
    split
    · rename_i hed
      rw [hed] at hL
      obtain ⟨_, _, hboot⟩ := id hL
      exact hL.writeBoot (hsec.trans hboot.boot)
    · exact hL

/-! ### Entering and leaving a drive -/

theorem loadCos (hd : d ∈ K) : (v.loadCos d).Context K := by
  obtain ⟨L, hL⟩ := h.holds d hd
  exact h.putLoaded hL.initFs.1 hd

theorem ctxEnter (hi : v.Mounted i) : (v.ctxEnter i).Context K := by
  rw [Vfs.ctxEnter]
  cases hfs : (v.mounts i).fs with
  | cosfs =>
    have hcwd : ∀ {w : Vfs}, w.Context K →
        ({ w with cos := { w.cos with gCurrentDir := 0 } } : Vfs).Context K := by
      intro w hw
      refine ⟨fun e he => ?_, fun e he => ?_, hw.mounted, hw.apart⟩
      · obtain ⟨hK, L, hL⟩ := hw.loaded e he
        exact ⟨hK, L, hL.setCwd 0⟩
      · obtain ⟨L, hL⟩ := hw.holds e he
        exact ⟨L, holds_of_disk hL fun _ => rfl⟩
    dsimp only
    split
    · exact hcwd h
    · exact hcwd (h.loadCos (h.mounted _ ⟨i, hi, hfs, rfl⟩))
  | fat32 => exact h.same ⟨fun _ => rfl, rfl, rfl⟩ rfl rfl rfl

theorem ctxLeave : (v.ctxLeave i).Context K := by
  refine h.same kept_ctxLeave.toSameTables ?_ ?_ ?_ <;> rw [Vfs.ctxLeave] <;> split <;> rfl

end

end Context

/-- The drive of mount `i` has been entered. -/
structure Entered (v : Vfs) (i : Nat) : Prop where
  mounted : v.Mounted i
  loaded : (v.mounts i).fs = .cosfs → v.cosLoaded = some (v.mounts i).drive

theorem entered_ctxEnter (hi : v.Mounted i) : (v.ctxEnter i).Entered i := by
  have hk : Kept v (v.ctxEnter i) := kept_ctxEnter
  refine ⟨hk.mounted.mpr hi, fun hfs => ?_⟩
  rw [hk.drive]
  exact (ctxEnter_loaded ((hk.fs i).symm.trans hfs)).1

namespace Context

variable {K : Set Nat} {α : Type} {r : α}

/-- A backend operation after the drive has been entered. -/
theorem backend (h : v.Context K) (hi : v.Entered i) {cos : Cos → α × Cos}
    {fat : Fat → Option (α × Fat)} (hcos : ∀ {L s}, s.Loaded L → (cos s).2.Loaded L)
    (heq : v.backend i cos fat = some (r, v')) : v'.Context K := by
  rw [Vfs.backend] at heq
  dsimp only at heq
  split at heq
  · rename_i hfs
    cases heq
    obtain ⟨-, L, hL⟩ := h.loaded _ (hi.loaded hfs)
    exact h.putCos (hi.loaded hfs) (hcos hL)
  · rename_i hfs
    obtain ⟨s, -, hs⟩ := Option.map_eq_some_iff.mp heq
    cases hs
    exact h.putFat (h.apart _ ⟨i, hi.mounted, hfs, rfl⟩) _

theorem work (h : v.Context K) (hw : Work v v') : v'.Context K := by
  induction hw with
  | refl v => exact h
  | inside hi hb =>
    refine Context.ctxLeave ?_
    cases hb with
    | look => exact h.ctxEnter hi
    | run hcos heq => exact (h.ctxEnter hi).backend (entered_ctxEnter hi) hcos heq
  | trans _ _ ih ih' => exact ih' (ih h)

end Context

end Vfs

end Crusadia
