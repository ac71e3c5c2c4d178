import Crusadia.Vfs.Calls

/-!
# Crusadia.Vfs.Descriptor

**What the calls on a descriptor do to the tables.** `vfs_read`, `vfs_pread`, `vfs_write` and
`vfs_lseek` change the position, the size and the id in one slot of the descriptor table and
keep the rest (`Vfs.OnFile`). Positions and sizes stay in 32 bits (`Vfs.Words`).
-/

namespace Crusadia

namespace Vfs

variable {v v' : Vfs} {i fd : Nat} {rel : CStr} {f : VfsFile} {r : Int}

/-- What a call on descriptor `fd` keeps. -/
structure OnFile (fd : Nat) (v v' : Vfs) : Prop where
  entry : ∀ i, (v'.mounts i).entry = (v.mounts i).entry
  root : v'.root = v.root
  other : ∀ k, k ≠ fd → v'.files k = v.files k
  used : (v'.files fd).used = (v.files fd).used
  mount : (v'.files fd).mount = (v.files fd).mount

/-- The positions and sizes in the descriptor table are `uint32_t`. -/
def Words (v : Vfs) : Prop := ∀ fd, (v.files fd).pos < 2 ^ 32 ∧ (v.files fd).size < 2 ^ 32

theorem Words.same (h : Words v) (hf : v'.files = v.files) : Words v' := by
  rw [Words, hf]
  exact h

namespace OnFile

theorem refl (fd : Nat) (v : Vfs) : OnFile fd v v := ⟨fun _ => rfl, rfl, fun _ _ => rfl, rfl, rfl⟩

/-- Work on the drives around a change of the descriptor. -/
theorem setFile {w : Vfs} (hw : Kept v w) (hu : f.used = (v.files fd).used)
    (hm : f.mount = (v.files fd).mount) (hv' : Kept (w.setFile fd f) v') : OnFile fd v v' := by
  refine ⟨fun i => (hv'.entry i).trans (hw.entry i), hv'.root.trans hw.root, fun k hk => ?_, ?_, ?_⟩
  · rw [hv'.files, files_setFile, if_neg hk, hw.files]
  · rw [hv'.files, files_setFile, if_pos rfl, hu]
  · rw [hv'.files, files_setFile, if_pos rfl, hm]

theorem tables (h : OnFile fd v v') (htab : Tables v) : Tables v' := by
  refine htab.keep h.entry h.root fun k => ?_
  by_cases hk : k = fd
  · rw [hk]
    exact ⟨h.used, h.mount⟩
  · rw [h.other k hk]
    exact ⟨rfl, rfl⟩

theorem words (h : OnFile fd v v') (hw : Words v)
    (hfd : (v'.files fd).pos < 2 ^ 32 ∧ (v'.files fd).size < 2 ^ 32) : Words v' := by
  intro k
  by_cases hk : k = fd
  · rw [hk]
    exact hfd
  · rw [h.other k hk]
    exact hw k

end OnFile

theorem fget_eq_some (h : v.fget fd = some f) :
    fd < vfsMaxFds ∧ (v.files fd).used = true ∧ f = v.files fd := by
  rw [fget] at h
  split at h
  · rename_i hfd
    exact ⟨hfd.1, hfd.2, (Option.some.inj h).symm⟩
  · cases h

theorem Words.openLocked {path tag : CStr} {fl : OpenFlags} (h : Words v)
    (ho : v.openLocked path fl tag = some (r, v')) : Words v' := by
  rcases openLocked_cases ho with ⟨-, hw⟩ | ⟨fd, f, u, -, -, -, hwords, hw, -, rfl⟩
  · exact h.same hw.kept.files
  · intro k
    show ((u.setFile fd f).files k).pos < _ ∧ ((u.setFile fd f).files k).size < _
    rw [files_setFile, hw.kept.files]
    split
    · exact hwords
    · exact h k

/-! ### The calls -/

/-- What `read_at` leaves of the descriptor. -/
theorem readAt_file (v : Vfs) (m : VfsMount) (f : VfsFile) (off n : Nat) :
    ∃ size, (v.readAt m f off n).1 = { f with size } ∧ (f.size < 2 ^ 32 → size < 2 ^ 32) := by
  rw [readAt]
  split
  · exact ⟨_, rfl, fun _ => Buf.get32_lt _ _⟩
  · exact ⟨_, rfl, id⟩

/-- What the two functions behind `vfs_write` leave of the descriptor. -/
theorem cosWriteAt_file (s : Cos) (f : VfsFile) (pos : Nat) (data : List Byte) :
    ∃ size, (cosWriteAt s f pos data).2.1 = { f with size } ∧
      (f.size < 2 ^ 32 → size < 2 ^ 32) := by
  rw [cosWriteAt]
  split
  · exact ⟨_, rfl, id⟩
  · dsimp only
    split
    · exact ⟨_, rfl, id⟩
    · exact ⟨_, rfl, fun _ => Buf.get32_lt _ _⟩

theorem fatWriteAt_file {s s' : Fat} {g : VfsFile} {pos : Nat} {data : List Byte}
    (h : fatWriteAt s f pos data = some (r, g, s')) :
    ∃ id size, g = { f with id, size } ∧ (f.size < 2 ^ 32 → size < 2 ^ 32) := by
  have hsame : ∀ {c : Int} {t : Fat}, some (c, f, t) = some (r, g, s') →
      ∃ id size, g = { f with id, size } ∧ (f.size < 2 ^ 32 → size < 2 ^ 32) := by
    intro c t hc
    obtain ⟨rfl, -⟩ := Prod.mk.inj (Prod.mk.inj (Option.some.inj hc)).2
    exact ⟨_, _, rfl, id⟩
  rw [fatWriteAt] at h
  split at h
  · exact hsame h
  split at h
  · exact hsame h
  obtain ⟨p, -, h⟩ := Option.bind_eq_some_iff.mp h
  split at h
  · exact hsame h
  dsimp only at h
  split at h
  · exact hsame h
  -- the entry is looked up again once the data is stored
  split at h
  all_goals
    obtain ⟨w, -, h⟩ := Option.bind_eq_some_iff.mp h
    split at h
    · exact hsame h
    obtain ⟨n, hn, h⟩ := Option.bind_eq_some_iff.mp h
    split at h
    · exact hsame h
    · obtain ⟨rfl, -⟩ := Prod.mk.inj (Prod.mk.inj (Option.some.inj h)).2
      exact ⟨_, _, rfl, fun _ => Fat.fat32Stat_size hn⟩

/-- A call on a descriptor leaves the tables and 32 bits as they should be. -/
theorem OnFile.keeps {w : Vfs} (hw : Kept v w) (hv' : Kept (w.setFile fd f) v')
    (hu : f.used = (v.files fd).used) (hm : f.mount = (v.files fd).mount) (hwords : Words v)
    (hf : f.pos < 2 ^ 32 ∧ f.size < 2 ^ 32) : OnFile fd v v' ∧ Words v' := by
  have h := OnFile.setFile hw hu hm hv'
  refine ⟨h, h.words hwords ?_⟩
  rw [hv'.files, files_setFile, if_pos rfl]
  exact hf

theorem onFile_vfsPread (h : Words v) (fd off n : Nat) :
    OnFile fd v (v.vfsPread fd off n).2 ∧ Words (v.vfsPread fd off n).2 := by
  rw [vfsPread]
  split
  · exact ⟨.refl fd v, h⟩
  · rename_i f hf
    obtain ⟨-, -, rfl⟩ := fget_eq_some hf
    dsimp only
    obtain ⟨size, heq, hsize⟩ := readAt_file (v.ctxEnter (v.files fd).mount)
      ((v.ctxEnter (v.files fd).mount).mounts (v.files fd).mount) (v.files fd) off n
    rw [heq]
    exact OnFile.keeps kept_ctxEnter kept_ctxLeave rfl rfl h ⟨(h fd).1, hsize (h fd).2⟩

theorem onFile_vfsRead (h : Words v) (fd n : Nat) :
    OnFile fd v (v.vfsRead fd n).2 ∧ Words (v.vfsRead fd n).2 := by
  rw [vfsRead]
  split
  · exact ⟨.refl fd v, h⟩
  · rename_i f hf
    obtain ⟨-, -, rfl⟩ := fget_eq_some hf
    dsimp only
    obtain ⟨size, heq, hsize⟩ := readAt_file (v.ctxEnter (v.files fd).mount)
      ((v.ctxEnter (v.files fd).mount).mounts (v.files fd).mount) (v.files fd) (v.files fd).pos n
    rw [heq]
    refine OnFile.keeps kept_ctxEnter kept_ctxLeave rfl rfl h ⟨?_, hsize (h fd).2⟩
    dsimp only
    split
    · exact Nat.mod_lt _ (Nat.two_pow_pos 32)
    · exact (h fd).1

theorem onFile_vfsLseek (h : Words v) (fd : Nat) (offset whence : Int) :
    OnFile fd v (v.vfsLseek fd offset whence).2 ∧ Words (v.vfsLseek fd offset whence).2 := by
  rw [vfsLseek]
  split
  · exact ⟨.refl fd v, h⟩
  · rename_i f hf
    obtain ⟨-, -, rfl⟩ := fget_eq_some hf
    dsimp only
    split
    · refine OnFile.keeps (.refl v) (.refl _) rfl rfl h ⟨?_, (h fd).2⟩
      have := Int.bmod_lt (x := seekBase (v.files fd) whence + offset) (Nat.two_pow_pos 32)
      dsimp only
      omega
    · exact ⟨.refl fd v, h⟩

theorem onFile_vfsWrite (h : Words v) {data : List Byte}
    (hr : v.vfsWrite fd data = some (r, v')) : OnFile fd v v' ∧ Words v' := by
  rw [vfsWrite] at hr
  split at hr
  · cases hr
    exact ⟨.refl fd _, h⟩
  rename_i f hf
  obtain ⟨-, -, rfl⟩ := fget_eq_some hf
  split at hr
  · cases hr
    exact ⟨.refl fd _, h⟩
  -- the descriptor that is written back differs in position, id and size
  have hdone : ∀ {f g : VfsFile} {w : Vfs} {c : Int},
      g = (if c > 0 then { f with pos := (f.pos + c.toNat) % 2 ^ 32 } else f) → Kept v w →
      f.used = (v.files fd).used → f.mount = (v.files fd).mount → f.pos < 2 ^ 32 ∧ f.size < 2 ^ 32 →
      OnFile fd v ((w.setFile fd g).ctxLeave g.mount) ∧
      Words ((w.setFile fd g).ctxLeave g.mount) := by
    rintro f _ w c rfl hw hu hm hf
    split
    · exact OnFile.keeps hw kept_ctxLeave hu hm h ⟨Nat.mod_lt _ (Nat.two_pow_pos 32), hf.2⟩
    · exact OnFile.keeps hw kept_ctxLeave hu hm h hf
  have hstart : ∀ {f : VfsFile}, f = (if (v.files fd).append then
      { v.files fd with pos := (v.files fd).size } else v.files fd) →
      f.used = (v.files fd).used ∧ f.mount = (v.files fd).mount ∧ f.pos < 2 ^ 32 ∧
      f.size < 2 ^ 32 := by
    rintro f rfl
    split
    · exact ⟨rfl, rfl, (h fd).2, (h fd).2⟩
    · exact ⟨rfl, rfl, h fd⟩
  dsimp only at hr
  generalize hg : (if (v.files fd).append then { v.files fd with pos := (v.files fd).size }
    else v.files fd) = g at hr
  obtain ⟨hu, hm, hpos, hsize⟩ := hstart hg.symm
  have hk : Kept v (v.ctxEnter g.mount) := kept_ctxEnter
  split at hr
  · obtain ⟨size, heq, hlt⟩ := cosWriteAt_file ((v.ctxEnter g.mount).cosOn
      ((v.ctxEnter g.mount).mounts g.mount).drive) g g.pos data
    cases hr
    rw [heq]
    exact hdone rfl (hk.trans (kept_putCos _)) hu hm ⟨hpos, hlt hsize⟩
  · obtain ⟨⟨c, f, s⟩, hw, heq⟩ := Option.map_eq_some_iff.mp hr
    obtain ⟨id, size, rfl, hlt⟩ := fatWriteAt_file hw
    cases heq
    exact hdone rfl (hk.trans (kept_putFat _)) hu hm ⟨hpos, hlt hsize⟩

theorem Words.vfsClose (h : Words v) (fd : Nat) : Words (v.vfsClose fd).2 := by
  rw [Vfs.vfsClose]
  split
  · exact h
  · rename_i f hf
    obtain ⟨-, -, rfl⟩ := fget_eq_some hf
    intro k
    dsimp only
    rw [files_setFile]
    split
    · exact h _
    · exact h k

theorem Words.call {c : TableCall} (h : Words v) (htab : Tables v) (hc : c.run v = some (r, v')) :
    Words v' := by
  cases c with
  | mount drive target => exact h.same (htab.vfsMount hc).2
  | umount what =>
    obtain ⟨-, rfl⟩ := Prod.mk.inj (Option.some.inj hc)
    exact h.same htab.doUmount.2
  | format drive fsname => exact h.same (vfsFormat_keeps hc).1.files
  | «open» path fl => exact h.openLocked hc
  | close fd =>
    obtain ⟨-, rfl⟩ := Prod.mk.inj (Option.some.inj hc)
    exact h.vfsClose _

end Vfs

end Crusadia
