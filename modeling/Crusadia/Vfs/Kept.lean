import Crusadia.Vfs.Model

/-!
# Crusadia.Vfs.Kept

**What working on a mounted drive leaves alone.** Entering a drive, running a backend
operation on it and leaving it again changes drives, the drivers' globals and the copies of
`g_fat32` in the mount table, and nothing else of the VFS layer's state: `Vfs.Kept`. Every
function that only works on drives has one lemma here, and the table invariants look at
nothing beyond what is kept.
-/

namespace Crusadia

/-- A mount slot without its copy of `g_fat32`. -/
def VfsMount.entry (m : VfsMount) : VfsMount := { m with fat := Vfs.zeroFat32 }

namespace Vfs

/-- The tables of `v'` are those of `v`. -/
structure SameTables (v v' : Vfs) : Prop where
  entry : ∀ i, (v'.mounts i).entry = (v.mounts i).entry
  root : v'.root = v.root
  files : v'.files = v.files

/-- What working on a mounted drive keeps. -/
structure Kept (v v' : Vfs) : Prop extends SameTables v v' where
  seq : v'.seq = v.seq
  cwd : v'.cwd = v.cwd
  active : v'.activeDrives = v.activeDrives

namespace SameTables

variable {v v' v'' : Vfs}

theorem trans (h : SameTables v v') (h' : SameTables v' v'') : SameTables v v'' :=
  ⟨fun i => (h'.entry i).trans (h.entry i), h'.root.trans h.root, h'.files.trans h.files⟩

section fields

variable (h : SameTables v v') (i : Nat)

include h

/-- Any field but the copy of `g_fat32`. -/
theorem field {α : Type} (f : VfsMount → α) (hf : ∀ m : VfsMount, f m.entry = f m) :
    f (v'.mounts i) = f (v.mounts i) := by
  rw [← hf, h.entry, hf]

theorem used : (v'.mounts i).used = (v.mounts i).used := h.field i _ fun _ => rfl

theorem drive : (v'.mounts i).drive = (v.mounts i).drive := h.field i _ fun _ => rfl

theorem fs : (v'.mounts i).fs = (v.mounts i).fs := h.field i _ fun _ => rfl

theorem isRoot : (v'.mounts i).isRoot = (v.mounts i).isRoot := h.field i _ fun _ => rfl

theorem openCount : (v'.mounts i).openCount = (v.mounts i).openCount := h.field i _ fun _ => rfl

theorem mountpoint : (v'.mounts i).mountpoint = (v.mounts i).mountpoint := h.field i _ fun _ => rfl

end fields

end SameTables

namespace Kept

variable {v v' v'' : Vfs}

theorem refl (v : Vfs) : Kept v v := ⟨⟨fun _ => rfl, rfl, rfl⟩, rfl, rfl, rfl⟩

theorem trans (h : Kept v v') (h' : Kept v' v'') : Kept v v'' :=
  ⟨h.toSameTables.trans h'.toSameTables, h'.seq.trans h.seq, h'.cwd.trans h.cwd,
    h'.active.trans h.active⟩

end Kept

variable {v v' : Vfs} {i d : Nat} {rel abs : CStr} {r : Int}

theorem mounts_setMount (v : Vfs) (i j : Nat) (m : VfsMount) :
    (v.setMount i m).mounts j = if j = i then m else v.mounts j := Function.update_apply ..

theorem files_setFile (v : Vfs) (fd j : Nat) (f : VfsFile) :
    (v.setFile fd f).files j = if j = fd then f else v.files j := Function.update_apply ..

theorem drives_setDisk (v : Vfs) (d e : Nat) (disk : Disk) :
    (v.setDisk d disk).drives e = if e = d then { v.drives d with disk } else v.drives e :=
  Function.update_apply ..

theorem kept_setDisk (disk : Disk) : Kept v (v.setDisk d disk) :=
  ⟨⟨fun _ => rfl, rfl, rfl⟩, rfl, rfl, rfl⟩

theorem kept_putCos (s : Cos) : Kept v (v.putCos d s) := ⟨⟨fun _ => rfl, rfl, rfl⟩, rfl, rfl, rfl⟩

theorem kept_putFat (s : Fat) : Kept v (v.putFat d s) := ⟨⟨fun _ => rfl, rfl, rfl⟩, rfl, rfl, rfl⟩

theorem kept_loadCos : Kept v (v.loadCos d) := ⟨⟨fun _ => rfl, rfl, rfl⟩, rfl, rfl, rfl⟩

theorem kept_ctxEnter : Kept v (v.ctxEnter i) := by
  rw [ctxEnter]
  cases (v.mounts i).fs with
  | cosfs =>
    dsimp only
    split
    · exact ⟨⟨fun _ => rfl, rfl, rfl⟩, rfl, rfl, rfl⟩
    · exact (kept_loadCos (d := (v.mounts i).drive)).trans ⟨⟨fun _ => rfl, rfl, rfl⟩, rfl, rfl, rfl⟩
  | fat32 => exact ⟨⟨fun _ => rfl, rfl, rfl⟩, rfl, rfl, rfl⟩

theorem kept_setFat (f : Fat32Fs) : Kept v (v.setMount i { v.mounts i with fat := f }) := by
  refine ⟨⟨fun j => ?_, rfl, rfl⟩, rfl, rfl, rfl⟩
  rw [mounts_setMount]
  split
  · rename_i hj
    rw [hj]
    rfl
  · rfl

theorem kept_ctxLeave : Kept v (v.ctxLeave i) := by
  rw [ctxLeave]
  cases (v.mounts i).fs with
  | cosfs => exact Kept.refl v
  | fat32 => exact kept_setFat _

theorem kept_backend {α : Type} {cos : Cos → α × Cos} {fat : Fat → Option (α × Fat)} {r : α}
    (h : v.backend i cos fat = some (r, v')) : Kept v v' := by
  rw [backend] at h
  dsimp only at h
  split at h
  · cases h
    exact kept_putCos _
  · obtain ⟨s, -, hs⟩ := Option.map_eq_some_iff.mp h
    cases hs
    exact kept_putFat _

theorem kept_hdrWrite {fs : FsType} {part : Nat} {hdr : Hdr} :
    Kept v (v.hdrWrite d fs part hdr).2 := by
  rw [hdrWrite]
  split
  · exact Kept.refl v
  · exact kept_setDisk _

theorem kept_persist : Kept v v.persist.2 := by
  rw [persist]
  split
  · exact Kept.refl v
  · exact kept_hdrWrite

theorem kept_backendUnmount : Kept v (v.backendUnmount i) := by
  rw [backendUnmount]
  dsimp only
  split
  · exact Kept.refl v
  · split
    · split
      · exact ⟨⟨fun _ => rfl, rfl, rfl⟩, rfl, rfl, rfl⟩
      · exact Kept.refl v
    · exact kept_ctxEnter.trans (kept_putFat _)

/-- Making the slot of a mount ready keeps the rest. -/
theorem kept_mountBackend (v : Vfs) (i d : Nat) (fs : FsType) (part : Nat) :
    Kept (v.setMount i { zeroMount with drive := d, fs, partLba := part })
      (v.mountBackend i d fs part).2 := by
  cases fs with
  | cosfs =>
    simp only [mountBackend]
    split <;> exact ⟨⟨fun _ => rfl, rfl, rfl⟩, rfl, rfl, rfl⟩
  | fat32 =>
    simp only [mountBackend]
    split
    · exact kept_putFat _
    · exact (kept_putFat (d := d) _).trans (kept_setFat _)

theorem sameTables_setCwdDefault (h : v.setCwdDefault = some v') : SameTables v v' := by
  rw [setCwdDefault] at h
  dsimp only at h
  split at h
  · rw [← Option.some.inj h]
    exact ⟨fun _ => rfl, rfl, rfl⟩
  · obtain ⟨r, -, rfl⟩ := Option.map_eq_some_iff.mp h
    refine SameTables.trans ?_ kept_ctxLeave.toSameTables
    have henter : ∀ {w : Vfs} {i : Nat}, SameTables w (w.ctxEnter i) := kept_ctxEnter.toSameTables
    split
    · exact ⟨henter.entry, henter.root, henter.files⟩
    · exact ⟨henter.entry, henter.root, henter.files⟩

/-- Opening a file changes nothing, or creates the file, or truncates it; what it finds is
what `be_stat` says afterwards, and an error is negative or what the backend has returned. -/
theorem openNode_cases {fl : OpenFlags} {tag : CStr} {r : Except Int Cos.Vnode}
    (h : v.openNode i rel fl tag = some (r, v')) :
    (v' = v ∨ (∃ c, v.beCreate i rel tag = some (c, v')) ∨
      ∃ c, v.beTruncate i rel tag = some (c, v')) ∧
    (∀ n, r = .ok n → v'.beStat i rel = some (some n)) ∧
    ∀ e, r = .error e → e < 0 ∨ e ≠ 0 ∧
      (v.beCreate i rel tag = some (e, v') ∨ v.beTruncate i rel tag = some (e, v')) := by
  rw [openNode] at h
  dsimp only at h
  -- a creation or a truncation is looked up again
  have hrestat : ∀ {x : Option (Int × Vfs)},
      (x.bind fun r => if r.1 ≠ 0 then some (.error r.1, r.2) else
        (r.2.beStat i rel).map fun n => (n.elim (.error vfsENoent) .ok, r.2)) =
        some (r, v') → (∃ c, x = some (c, v')) ∧
          (∀ n, r = .ok n → v'.beStat i rel = some (some n)) ∧
        ∀ e, r = .error e → e < 0 ∨ e ≠ 0 ∧ x = some (e, v') := by
    intro x hb
    obtain ⟨⟨c, w⟩, hw, hb⟩ := Option.bind_eq_some_iff.mp hb
    dsimp only at hb
    split at hb
    · rename_i hc
      cases hb
      refine ⟨⟨c, hw⟩, fun n hn => (by cases hn), fun e he => .inr ?_⟩
      cases he
      exact ⟨hc, hw⟩
    · obtain ⟨n, hstat, hn⟩ := Option.map_eq_some_iff.mp hb
      cases hn
      refine ⟨⟨c, hw⟩, fun m hm => ?_, fun e he => .inl ?_⟩ <;> cases n
      · cases hm
      · rw [← Except.ok.inj hm]
        exact hstat
      · cases he
        decide
      · cases he
  have herror : ∀ {e e' : Int}, e < 0 → (.error e : Except Int Cos.Vnode) = .error e' → e' < 0 := by
    rintro e _ hneg ⟨⟩
    exact hneg
  obtain ⟨n, hstat, h⟩ := Option.bind_eq_some_iff.mp h
  cases n with
  | none =>
    dsimp only at h
    split at h
    · obtain ⟨hx, hok, herr⟩ := hrestat h
      exact ⟨.inr (.inl hx), hok, fun e he => (herr e he).imp_right (And.imp_right .inl)⟩
    · cases h
      exact ⟨.inl rfl, fun n hn => (by cases hn), fun e he => .inl (herror (by decide) he)⟩
  | some n =>
    dsimp only at h
    split at h
    · cases h
      exact ⟨.inl rfl, fun n hn => (by cases hn), fun e he => .inl (herror (by decide) he)⟩
    · split at h
      · cases h
        exact ⟨.inl rfl, fun n hn => (by cases hn), fun e he => .inl (herror (by decide) he)⟩
      · split at h
        · obtain ⟨hx, hok, herr⟩ := hrestat h
          exact ⟨.inr (.inr hx), hok, fun e he => (herr e he).imp_right (And.imp_right .inr)⟩
        · cases h
          exact ⟨.inl rfl, fun m hm => (by rw [← Except.ok.inj hm]; exact hstat),
            fun e he => by cases he⟩

end Vfs

end Crusadia
