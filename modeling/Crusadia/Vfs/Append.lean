import Crusadia.Cos.Append
import Crusadia.Cos.Globals
import Crusadia.Vfs.Atomic
import Crusadia.Vfs.Single

/-!
# Crusadia.Vfs.Append

**Descriptors opened with `O_APPEND` on one file of a COS mount.** `vfs_open` copies the size
of the inode into the descriptor; `vfs_write` moves to the size that the descriptor holds, not
to the size of the inode, and only the descriptor that writes learns the new size. A sequence
of such calls is therefore an `AppendRun` of the driver, with the descriptors as the writers.
-/

namespace Crusadia

namespace Vfs

/-- The COS driver once the drive of mount `i` is entered. -/
def enteredCos (v : Vfs) (i : Nat) : Cos := (v.ctxEnter i).cosOn (v.mounts i).drive

/-- A descriptor that appends to inode `id` of mount `i`. -/
structure Appender (i id : Nat) (f : VfsFile) : Prop where
  used : f.used = true
  writable : f.writable = true
  append : f.append = true
  mount : f.mount = i
  id : f.id = id

/-- Successful calls on inode `id` of mount `i`, where `fds` are open: `vfs_open` for appending,
with a path that `vfs_stat` finds and without truncating, and `vfs_write`. -/
inductive AppendCalls (i id : Nat) : List Nat → Vfs → List Cos.AppendEvent → Vfs → Prop
  | done {fds : List Nat} {v : Vfs} : AppendCalls i id fds v [] v
  | opened {fds : List Nat} {v w u v' : Vfs} {es : List Cos.AppendEvent} {path : CStr}
      {fl : OpenFlags} {n : Cos.Vnode} {fd : Nat}
      (hstat : v.vfsStat path = some (.ok n, w)) (hw : fl.writable = true)
      (happ : fl.append = true) (htrunc : fl.trunc = false)
      (hopen : v.vfsOpen path fl = some ((fd : Int), u)) (hmount : (u.files fd).mount = i)
      (hid : (u.files fd).id = id) (hrest : AppendCalls i id (fd :: fds) u es v') :
      AppendCalls i id fds v (.learn fd :: es) v'
  | wrote {fds : List Nat} {v u v' : Vfs} {es : List Cos.AppendEvent} {fd : Nat}
      {data : List Byte} (hfd : fd ∈ fds)
      (hwrite : v.vfsWrite fd data = some ((data.length : Int), u))
      (hrest : AppendCalls i id fds u es v') : AppendCalls i id fds v (.write fd data :: es) v'

variable {v u v' : Vfs} {i id fd : Nat} {data : List Byte} {t : Cos}

/-- Once a COS drive has been entered, entering it again finds it loaded. -/
theorem enteredCos_of_loaded (hfs : (v.mounts i).fs = .cosfs)
    (h : v.cosLoaded = some (v.mounts i).drive) :
    v.enteredCos i = { v.cosOn (v.mounts i).drive with gCurrentDir := 0 } := by
  rw [enteredCos, ctxEnter, hfs]
  dsimp only
  rw [if_pos h]
  rfl

theorem ctxEnter_loaded (hfs : (v.mounts i).fs = .cosfs) :
    (v.ctxEnter i).cosLoaded = some (v.mounts i).drive ∧ (v.ctxEnter i).cos.gCurrentDir = 0 ∧
      (v.ctxEnter i).mounts = v.mounts ∧ (v.ctxEnter i).files = v.files := by
  rw [ctxEnter, hfs]
  dsimp only
  split
  · exact ⟨‹_›, rfl, rfl, rfl⟩
  · exact ⟨rfl, rfl, rfl, rfl⟩

/-- `vfs_write` on a COS mount. -/
theorem vfsWrite_cos {f g w : VfsFile} {c : Int} (data : List Byte) (hget : v.fget fd = some f)
    (hw : f.writable = true) (hfs : (v.mounts f.mount).fs = .cosfs)
    (hg : g = if f.append then { f with pos := f.size } else f)
    (hwrite : cosWriteAt (v.enteredCos f.mount) g g.pos data = (c, w, t)) :
    v.vfsWrite fd data = some (if c < 0 then -1 else c,
      ((v.ctxEnter f.mount).putCos (v.mounts f.mount).drive t).setFile fd
        (if c > 0 then { w with pos := (w.pos + c.toNat) % 2 ^ 32 } else w)) := by
  obtain ⟨-, -, hmounts, -⟩ := ctxEnter_loaded hfs
  have hmount : g.mount = f.mount := by
    rw [hg]
    split <;> rfl
  -- neither the position nor the size is where the descriptor is attached
  have hat : w.mount = f.mount := by
    rw [← hmount, show w = _ from congrArg (·.2.1) hwrite.symm, cosWriteAt]
    split
    · rfl
    · dsimp only
      split <;> rfl
  have hleave : ∀ (t : Cos) (w : VfsFile), w.mount = f.mount →
      (((v.ctxEnter f.mount).putCos (v.mounts f.mount).drive t).setFile fd w).ctxLeave w.mount =
        ((v.ctxEnter f.mount).putCos (v.mounts f.mount).drive t).setFile fd w := by
    intro t w hw
    rw [ctxLeave, hw, show (((v.ctxEnter f.mount).putCos (v.mounts f.mount).drive t).setFile fd
      w).mounts = (v.ctxEnter f.mount).mounts from rfl, hmounts, hfs]
  rw [vfsWrite, hget]
  dsimp only
  rw [if_neg (by rw [hw]; decide), ← hg, hmount, hmounts, hfs]
  dsimp only
  rw [← enteredCos, hwrite]
  dsimp only
  rw [hleave]
  split
  · exact hat
  · exact hat

/-- The driver finds the drive as it left it. -/
theorem cosOn_putCos {d : Nat} (h : t.driveSectors = (v.drives d).totalSectors) :
    (v.putCos d t).cosOn d = t := by
  have hdisk : (v.putCos d t).drives d = { v.drives d with disk := t.disk } :=
    Function.update_self ..
  rw [cosOn, hdisk]
  dsimp only
  rw [← h]
  rfl

/-- A call on descriptor `fd` of COS mount `i` left the descriptor as `f` and the driver in `t`. -/
structure Left (v : Vfs) (i fd : Nat) (f : VfsFile) (t : Cos) (u : Vfs) : Prop where
  fs : (u.mounts i).fs = .cosfs
  cos : u.enteredCos i = t
  files : ∀ k, u.files k = if k = fd then f else v.files k

/-- `vfs_open` of a file that exists, without truncating it. -/
theorem vfsOpen_eq_some {path : CStr} {fl : OpenFlags} {n : Cos.Vnode} {w : Vfs}
    (hstat : v.vfsStat path = some (.ok n, w)) (htrunc : fl.trunc = false)
    (hopen : v.vfsOpen path fl = some ((fd : Int), u)) :
    ∃ j rel f c, v.freeFd = some fd ∧ (v.ctxEnter j).beStat j rel = some (some n) ∧
      f = ⟨true, j, fl.writable, fl.append, if fl.append then n.size else 0, n.size, n.id, rel⟩ ∧
      u = (((v.ctxEnter j).ctxLeave j).setFile fd f).setMount j
        { ((v.ctxEnter j).ctxLeave j).mounts j with openCount := c } := by
  rw [vfsStat] at hstat
  rw [vfsOpen, openLocked] at hopen
  cases hnorm : normalize v.cwd path with
  | none =>
    rw [hnorm] at hstat
    cases hstat
  | some abs =>
  rw [hnorm] at hstat hopen
  dsimp only at hstat hopen
  rw [statAbs] at hstat
  cases hfind : v.findMount abs with
  | none =>
    rw [hfind] at hstat
    cases hstat
  | some r =>
  obtain ⟨j, rel⟩ := r
  rw [hfind] at hstat hopen
  dsimp only at hstat hopen
  -- what `vfs_stat` finds, `open_locked` finds
  have hnode : (v.ctxEnter j).beStat j rel = some (some n) := by
    obtain ⟨⟨r, v1⟩, hr, heq⟩ := Option.map_eq_some_iff.mp hstat
    obtain ⟨m, hm, hr⟩ := Option.map_eq_some_iff.mp hr
    cases m <;> simp_all
  cases hfree : v.freeFd with
  | none =>
    rw [hfree] at hopen
    have hneg : vfsEMfile = fd := (Prod.mk.inj (Option.some.inj hopen)).1
    exact absurd hneg (by rw [vfsEMfile]; omega)
  | some fd' =>
  rw [hfree] at hopen
  dsimp only at hopen
  rw [within, openNode_stat hnode htrunc] at hopen
  dsimp only [Option.map_some, Option.bind_eq_bind, Option.bind_some] at hopen
  -- the errors are negative
  have hok : ∀ e : Int, e < 0 → ∀ v1, some (e, v1) ≠ some ((fd : Int), u) := fun e he v1 heq =>
    absurd (Prod.mk.inj (Option.some.inj heq)).1 (by omega)
  by_cases hdir : n.isDir
  · rw [if_pos hdir] at hopen
    exact absurd hopen (hok _ (by decide) _)
  by_cases hexcl : fl.creat && fl.excl
  · rw [if_neg hdir, if_pos hexcl] at hopen
    exact absurd hopen (hok _ (by decide) _)
  rw [if_neg hdir, if_neg hexcl] at hopen
  obtain ⟨hfd, rfl⟩ := Prod.mk.inj (Option.some.inj hopen)
  obtain rfl : fd' = fd := Int.ofNat.inj hfd
  exact ⟨j, rel, _, _, rfl, hnode, rfl, rfl⟩

/-- **Opening.** `vfs_open` for appending, of a file that exists, gives a descriptor that
appends to it and holds its size, and leaves the drive as it is. -/
theorem vfsOpen_append {path : CStr} {fl : OpenFlags} {n : Cos.Vnode} {w : Vfs}
    (hfs : (v.mounts i).fs = .cosfs) (hstat : v.vfsStat path = some (.ok n, w))
    (hw : fl.writable = true) (happ : fl.append = true) (htrunc : fl.trunc = false)
    (hopen : v.vfsOpen path fl = some ((fd : Int), u)) (hmount : (u.files fd).mount = i)
    (hid : (u.files fd).id = id) :
    fd < vfsMaxFds ∧ ∃ f, Appender i id f ∧ f.size = ((v.enteredCos i).readInode id).size ∧
      v.Left i fd f (v.enteredCos i) u := by
  obtain ⟨j, rel, f, c, hfree, hnode, hf, hu⟩ := vfsOpen_eq_some hstat htrunc hopen
  have hfiles : ∀ k, u.files k = if k = fd then f else ((v.ctxEnter j).ctxLeave j).files k := by
    rw [hu]
    exact fun k => files_setFile _ fd k f
  rw [hfiles, if_pos rfl, hf] at hmount hid
  subst hmount hid
  obtain ⟨hload, hcwd, hmounts, hold⟩ := ctxEnter_loaded hfs
  have hleave : (v.ctxEnter j).ctxLeave j = v.ctxEnter j := by rw [ctxLeave, hmounts, hfs]
  rw [hleave] at hu hfiles
  have hmj : u.mounts j = { v.mounts j with openCount := c } := by
    rw [hu, mounts_setMount, if_pos rfl, hmounts]
  have hstat' : (v.enteredCos j).beStat rel = some n := by
    rw [beStat, hmounts, hfs] at hnode
    exact Option.some.inj hnode
  obtain ⟨idx, -, rfl⟩ := Option.map_eq_some_iff.mp hstat'
  refine ⟨List.mem_range.mp (List.mem_of_find?_eq_some hfree), f, ?_, by rw [hf], ?_⟩
  · rw [hf]
    exact ⟨rfl, hw, happ, rfl, rfl⟩
  · refine ⟨by rw [hmj]; exact hfs, ?_, fun k => by rw [hfiles, hold]⟩
    rw [enteredCos_of_loaded (by rw [hmj]; exact hfs) (by rw [hmj, hu]; exact hload), hmj, hu]
    exact Cos.setCwd_self hcwd

/-- What a write leaves, if it left the drive's size and the current directory. -/
theorem left_putCos {f : VfsFile} (hfs : (v.mounts i).fs = .cosfs)
    (ht : Cos.Written (v.enteredCos i) t) :
    v.Left i fd f t (((v.ctxEnter i).putCos (v.mounts i).drive t).setFile fd f) := by
  obtain ⟨hload, hcwd, hmounts, hfiles⟩ := ctxEnter_loaded hfs
  have hm : (((v.ctxEnter i).putCos (v.mounts i).drive t).setFile fd f).mounts i = v.mounts i :=
    congrFun hmounts i
  refine ⟨by rw [hm]; exact hfs, ?_, fun k => ?_⟩
  · rw [enteredCos_of_loaded (by rw [hm]; exact hfs) (by rw [hm]; exact hload), hm]
    show { ((v.ctxEnter i).putCos (v.mounts i).drive t).cosOn (v.mounts i).drive with
      gCurrentDir := 0 } = t
    rw [cosOn_putCos ht.drive]
    exact Cos.setCwd_self (ht.cwd.trans hcwd)
  · rw [files_setFile]
    exact congrArg (ite _ f ·) (congrFun hfiles k)

section

variable (hfs : (v.mounts i).fs = .cosfs) (hfd : fd < vfsMaxFds) (ha : Appender i id (v.files fd))
include hfs hfd ha

/-- `vfs_write` on an appending descriptor writes at the size that the descriptor holds. -/
theorem vfsWrite_append {c : Int} {g : VfsFile}
    (hwrite : cosWriteAt (v.enteredCos i) { v.files fd with pos := (v.files fd).size }
      (v.files fd).size data = (c, g, t)) :
    v.vfsWrite fd data = some (if c < 0 then -1 else c,
      ((v.ctxEnter i).putCos (v.mounts i).drive t).setFile fd
        (if c > 0 then { g with pos := (g.pos + c.toNat) % 2 ^ 32 } else g)) := by
  obtain ⟨hused, hw, happ, rfl, -⟩ := ha
  exact vfsWrite_cos data (if_pos ⟨hfd, hused⟩) hw hfs (if_pos happ).symm hwrite

/-- A write of no data leaves the driver alone. -/
theorem vfsWrite_nil (h : v.vfsWrite fd [] = some (r, u)) :
    ∃ f, Appender i id f ∧ f.size = (v.files fd).size ∧ v.Left i fd f (v.enteredCos i) u := by
  rw [vfsWrite_append hfs hfd ha (if_pos rfl)] at h
  obtain ⟨-, rfl⟩ := Prod.mk.inj (Option.some.inj h)
  refine ⟨_, ?_, ?_, left_putCos hfs (.refl _)⟩
  · exact ⟨ha.used, ha.writable, ha.append, ha.mount, ha.id⟩
  · rfl

/-- A write of data succeeds exactly if `fs_write` does, and leaves the descriptor with the new
size of the file. -/
theorem vfsWrite_data (hdata : data ≠ []) : ∃ r u f, v.vfsWrite fd data = some (r, u) ∧
    (r = data.length ↔ ((v.enteredCos i).fsWrite id (v.files fd).size data).1 = data.length) ∧
    (r = data.length → Appender i id f ∧
      f.size = (((v.enteredCos i).fsWrite id (v.files fd).size data).2.readInode id).size ∧
      v.Left i fd f ((v.enteredCos i).fsWrite id (v.files fd).size data).2 u) := by
  have hid : (v.files fd).id = id := ha.id
  subst hid
  have hwritten := (v.enteredCos i).written_fsWrite (v.files fd).id (v.files fd).size data
  by_cases hneg : ((v.enteredCos i).fsWrite (v.files fd).id (v.files fd).size data).1 < 0
  · refine ⟨_, _, v.files fd,
      vfsWrite_append hfs hfd ha ((if_neg hdata).trans (if_pos hneg)), ?_, fun h => ?_⟩
    · rw [if_pos (by decide)]
      omega
    · rw [if_pos (by decide)] at h
      omega
  · refine ⟨_, _, _, vfsWrite_append hfs hfd ha ((if_neg hdata).trans (if_neg hneg)), ?_, fun h =>
      ⟨?_, ?_, left_putCos hfs hwritten⟩⟩
    · rw [if_neg hneg]
    · split <;> exact ⟨ha.used, ha.writable, ha.append, ha.mount, rfl⟩
    · split <;> rfl

end

/-- The sizes that the descriptors `fds` hold, which append to inode `id` of mount `i`. -/
def Holding (v : Vfs) (i id : Nat) (fds : List Nat) (size : Nat → Option Nat) : Prop :=
  ∀ k ∈ fds, k < vfsMaxFds ∧ Appender i id (v.files k) ∧ size k = some (v.files k).size

/-- A call by which descriptor `fd` gets another size. -/
theorem Holding.left {fds : List Nat} {size : Nat → Option Nat} {f : VfsFile}
    (h : v.Holding i id fds size) (hfd : fd < vfsMaxFds) (hf : Appender i id f)
    (hu : v.Left i fd f t u) :
    u.Holding i id (fd :: fds) (Function.update size fd (some f.size)) := by
  intro k hk
  rw [hu.files, Function.update_apply]
  by_cases hkf : k = fd
  · rw [if_pos hkf, if_pos hkf, hkf]
    exact ⟨hfd, hf, rfl⟩
  · rw [if_neg hkf, if_neg hkf]
    exact h k ((List.mem_cons.mp hk).resolve_left hkf)

/-- **Refinement.** Successful calls on appending descriptors are an append run of the driver,
with the sizes that the descriptors hold. -/
theorem AppendCalls.run {fds : List Nat} {es : List Cos.AppendEvent}
    (h : AppendCalls i id fds v es v') : ∀ {size : Nat → Option Nat}, (v.mounts i).fs = .cosfs →
      v.Holding i id fds size → Cos.AppendRun id (v.enteredCos i) size es (v'.enteredCos i) := by
  induction h with
  | done => exact fun _ _ => .done
  | opened hstat hw happ htrunc hopen hmount hid _ ih =>
    intro size hfs hhold
    obtain ⟨hfd, f, hf, hsize, hu⟩ := vfsOpen_append hfs hstat hw happ htrunc hopen hmount hid
    refine .learn _ ?_
    rw [← hsize, ← hu.cos]
    exact ih hu.fs (hhold.left hfd hf hu)
  | @wrote fds v u v' es fd data hmem hwrite _ ih =>
    intro size hfs hhold
    obtain ⟨hfd, ha, hk⟩ := hhold fd hmem
    by_cases hdata : data = []
    · subst hdata
      obtain ⟨f, hf, hsize, hu⟩ := vfsWrite_nil hfs hfd ha hwrite
      refine .empty _ ?_
      rw [← hu.cos, ← Function.update_eq_self fd size, hk, ← hsize]
      exact ih hu.fs fun k hk => hhold.left hfd hf hu k (List.mem_cons_of_mem _ hk)
    · obtain ⟨r, u', f, hr, hok, hf⟩ := vfsWrite_data hfs hfd ha hdata
      obtain ⟨rfl, rfl⟩ := Prod.mk.inj (Option.some.inj (hr.symm.trans hwrite))
      obtain ⟨hf, hsize, hu⟩ := hf rfl
      refine .write hk hdata (hok.mp rfl) ?_
      rw [← hsize, ← hu.cos]
      exact ih hu.fs fun k hk => hhold.left hfd hf hu k (List.mem_cons_of_mem _ hk)

/-- Mount `i` is of a drive that was formatted and used. -/
def OnDrive (s₀ : Cos) (v : Vfs) (i : Nat) : Prop :=
  ∃ s, Cos.MountRun s₀ s ∧ v.enteredCos i = { s with gCurrentDir := 0 }

theorem OnDrive.file {s₀ : Cos} (h : OnDrive s₀ v i) (hid : (v.enteredCos i).FileInode id) :
    Rep.File s₀.layout (v.enteredCos i) (v.enteredCos i).img id := by
  obtain ⟨s, hrun, heq⟩ := h
  have hsize : 6 ≤ s₀.driveSectors := by
    by_contra hlt
    rw [heq] at hid
    exact (hrun.small (by omega)).2 id |>.2 hid
  obtain ⟨hrep, hv⟩ := (heq ▸ (hrun.mounted hsize).setCwd 0).sound.img
  obtain ⟨hlt, hu, ht⟩ := hrep.fileInode_iff.mp hid
  exact ⟨hrep, hv, hlt, hu, ht⟩

/-- **Appends.** A file of a COS mount is opened for appending any number of times and written
to through the descriptors, in any order, and all calls succeed. The file is then the old
contents followed by all the data in the order of the calls exactly if no data goes through a
descriptor after another one has written since it was opened and last wrote, and the first
write exposes no stale byte. -/
theorem appends_kept_iff (s₀ : Cos) (es : List Cos.AppendEvent) (hfs : (v.mounts i).fs = .cosfs)
    (hdrive : OnDrive s₀ v i) (hid : (v.enteredCos i).FileInode id)
    (h : AppendCalls i id [] v es v') :
    (v'.enteredCos i).contents id = (v.enteredCos i).contents id ++ es.flatMap (·.data) ↔
      Cos.Current ∅ es ∧ ∀ data, Cos.firstData es = some data →
        ¬(v.enteredCos i).img.Exposes (Layout.ofDrive s₀.driveSectors) id
          ((v.enteredCos i).readInode id).size data := by
  have hrun : Cos.AppendRun id _ (fun _ => none) es _ := h.run hfs (by simp [Holding])
  have hiff := hrun.contents_eq_iff (hdrive.file hid) (by simp)
  rwa [show {_k : Nat | (none : Option Nat) = some _} = ∅ by simp] at hiff

/-! ### Two descriptors -/

/-- `O_WRONLY | O_APPEND`. -/
def appendFlags : OpenFlags := ⟨true, false, false, false, true⟩

/-- A descriptor for appending to `/f`. -/
def fAppender : VfsFile := ⟨true, 0, true, true, 0, 0, 6, Cos.fPath⟩

/-- The descriptors after two opens. -/
def twoAppenders : Nat → VfsFile :=
  Function.update (Function.update (fun _ => zeroFile) 0 fAppender) 1 fAppender

/-- The drive of `s` with both descriptors. -/
def appendersOn (s : Cos) : Vfs := single { s with gCurrentDir := 0 } twoAppenders 2

section appendersOn

variable {L : Layout} {s s₀ : Cos} {m : Img} {k : Nat}

theorem files_appendersOn (h : k < 2) : (appendersOn s).files k = fAppender := by
  obtain rfl | rfl : k = 0 ∨ k = 1 := by omega
  · rfl
  · rfl

theorem appender_appendersOn (h : k < 2) : Appender 0 6 ((appendersOn s).files k) := by
  rw [files_appendersOn h]
  exact ⟨rfl, rfl, rfl, rfl, rfl⟩

/-- The file is empty, and has its first block. -/
structure EmptyFile (L : Layout) (s : Cos) (m : Img) : Prop where
  stat : s.beStat Cos.fPath = some ⟨false, 0, 6⟩
  file : Rep.File L { s with gCurrentDir := 0 } m 6
  ptr : (m.ino 6).ptr 0 ≠ 0
  size : (m.ino 6).size = 0

namespace EmptyFile

variable (h : EmptyFile L s m)

include h

theorem fileInode : ((single s (fun _ => zeroFile) 0).enteredCos 0).FileInode 6 :=
  h.file.rep.fileInode_iff.mpr ⟨h.file.lt, h.file.used, h.file.type⟩

theorem contents : ((single s (fun _ => zeroFile) 0).enteredCos 0).contents 6 = [] := by
  refine h.file.contents_eq.trans ?_
  rw [h.size]
  rfl

theorem contents_appendersOn : ((appendersOn s).enteredCos 0).contents 6 = [] := h.contents

/-- There is nothing that a write could expose. -/
theorem not_exposes (L' : Layout) (o : Nat) (data : List Byte) :
    ¬((single s (fun _ => zeroFile) 0).enteredCos 0).img.Exposes L' 6 o data := by
  rintro ⟨-, pos, hpos, -⟩
  have hsize : (((single s (fun _ => zeroFile) 0).enteredCos 0).img.ino 6).size = 0 :=
    (congrArg Inode.size (Cos.img_ino ..)).trans (h.file.size_eq.trans h.size)
  omega

/-- One byte through the first descriptor and one through descriptor `k`. -/
theorem writes (hk : k < 2) (a b : Byte) : ∃ v₁ v₂,
    (appendersOn s).vfsWrite 0 [a] = some (1, v₁) ∧ v₁.vfsWrite k [b] = some (1, v₂) := by
  have hlt : ∀ j, j < 2 → j < vfsMaxFds := fun j hj => Nat.lt_trans hj (by decide)
  have hok := h.file.write_byte h.ptr (show 0 < 512 by omega) a
  obtain ⟨r, v₁, f, hr, hiff, hf⟩ := vfsWrite_data rfl (hlt 0 (by omega))
    (appender_appendersOn (s := s) (by omega)) (List.cons_ne_nil a [])
  obtain ⟨hf, hsize, hv₁⟩ := hf (hiff.mpr hok)
  rw [hiff.mpr hok] at hr
  obtain ⟨m1, hf1, -, hw⟩ := h.file.write (show 0 < 2 ^ 32 by omega) hok
  have hptr : (m1.ino 6).ptr 0 ≠ 0 := by
    have hmap := hw.mapped 0 (by rw [h.file.dataBlock_zero]; exact h.ptr)
    rw [hf1.dataBlock_zero, h.file.dataBlock_zero] at hmap
    rw [hmap]
    exact h.ptr
  -- the second write begins at 0 or at 1
  have hk' : Appender 0 6 (v₁.files k) ∧ (v₁.files k).size < 512 := by
    rw [hv₁.files]
    split
    · have hone : f.size = max (m.ino 6).size 1 := hsize.trans (hf1.size_eq.trans hw.size)
      rw [hone, h.size]
      exact ⟨hf, by decide⟩
    · exact ⟨appender_appendersOn hk, by rw [files_appendersOn hk]; decide⟩
  obtain ⟨r', v₂, f', hr', hiff', -⟩ :=
    vfsWrite_data hv₁.fs (hlt k hk) hk'.1 (List.cons_ne_nil b [])
  rw [hv₁.cos] at hiff'
  rw [hiff'.mpr (hf1.write_byte hptr hk'.2 b)] at hr'
  exact ⟨v₁, v₂, hr, hr'⟩

/-- Both opens, and the two writes. -/
theorem calls (hk : k < 2) (a b : Byte) : ∃ u v₁ v₂,
    (single s (fun _ => zeroFile) 0).vfsOpen Cos.fPath appendFlags = some (0, u) ∧
    u.vfsOpen Cos.fPath appendFlags = some (1, appendersOn s) ∧
    (appendersOn s).vfsWrite 0 [a] = some (1, v₁) ∧ v₁.vfsWrite k [b] = some (1, v₂) ∧
    AppendCalls 0 6 [] (single s (fun _ => zeroFile) 0)
      [.learn 0, .learn 1, .write 0 [a], .write k [b]] v₂ := by
  obtain ⟨v₁, v₂, h₁, h₂⟩ := h.writes hk a b
  set f := Function.update (fun _ => zeroFile) 0 fAppender with hf
  have hopen0 : (single s (fun _ => zeroFile) 0).vfsOpen Cos.fPath appendFlags =
      some (0, single { s with gCurrentDir := 0 } f 1) :=
    openLocked_single Cos.fPath Cos.fPath (by decide) (by decide) h.stat 0 rfl rfl rfl rfl
  have hstat : { s with gCurrentDir := 0 }.beStat Cos.fPath = some ⟨false, 0, 6⟩ :=
    (Cos.beStat_setCwd s 0 _).trans h.stat
  have hopen1 : (single { s with gCurrentDir := 0 } f 1).vfsOpen Cos.fPath appendFlags =
      some (1, appendersOn s) :=
    openLocked_single Cos.fPath Cos.fPath (by decide) (by decide) hstat 1 rfl rfl rfl rfl
  refine ⟨_, v₁, v₂, hopen0, hopen1, h₁, h₂, ?_⟩
  refine .opened (vfsStat_single Cos.fPath Cos.fPath (by decide) (by decide) h.stat) rfl rfl rfl
    hopen0 rfl rfl (.opened (vfsStat_single Cos.fPath Cos.fPath (by decide) (by decide) hstat)
      rfl rfl rfl hopen1 rfl rfl (.wrote (by simp) h₁ (.wrote ?_ h₂ .done)))
  obtain rfl | rfl : k = 0 ∨ k = 1 := by omega
  · simp
  · simp

/-- One of two bytes is lost if they go through two descriptors. -/
theorem lost {v₂ : Vfs} (hcalls : AppendCalls 0 6 [] (single s (fun _ => zeroFile) 0)
    [.learn 0, .learn 1, .write 0 [1], .write 1 [2]] v₂) :
    (v₂.enteredCos 0).contents 6 ≠ [1, 2] := by
  intro hboth
  have hrun : Cos.AppendRun 6 _ (fun _ => none) _ _ := hcalls.run rfl (by simp [Holding])
  have hcur := ((hrun.contents_eq_iff h.file (by simp)).mp
    (hboth.trans (congrArg (· ++ [1, 2]) h.contents.symm))).1
  -- the second descriptor does not know what the first has written
  simp [Cos.Current] at hcur

end EmptyFile

theorem onDrive_single {n : Int} {files : Nat → VfsFile} (h : Cos.MountRun s₀ s) :
    OnDrive s₀ (single s files n) 0 := ⟨s, h, rfl⟩

theorem emptyFile_oneFile {v : Img} (hrep : Rep L s v) (hv : Img.OneFile s₀ L v) :
    EmptyFile L s { v with cwd := 0 } := by
  have hlt : 6 < L.sb.inodeCount := (Img.lookup_live hv.inv hv.inv.root hv.lookup).1
  refine ⟨Cos.beStat_fPath hrep hv, ⟨hrep.setCwd 0, hv.inv.cwd 0, hlt, hv.used, hv.type⟩, ?_,
    hv.size⟩
  show (v.ino 6).ptr 0 ≠ 0
  rw [hv.ptr (by omega), if_pos rfl]
  omega

end appendersOn

theorem appends_kept_iff_one : ∃ v',
    AppendCalls 0 6 [] (single (Cos.zeroDrive 1024).oneFile (fun _ => zeroFile) 0)
      [.learn 0, .learn 1, .write 0 [1], .write 0 [2]] v' ∧
    (v'.enteredCos 0).contents 6 = [1, 2] := by
  obtain ⟨hrun, w, hrep, hone⟩ := Cos.oneFile_spec (Cos.zeroDrive 1024) (by decide)
  have h := emptyFile_oneFile hrep hone
  obtain ⟨-, -, v', -, -, -, -, hcalls⟩ := h.calls (k := 0) (by omega) 1 2
  have hiff := appends_kept_iff _ _ rfl (onDrive_single hrun.mount) h.fileInode hcalls
  rw [h.contents] at hiff
  exact ⟨v', hcalls, hiff.mpr ⟨by simp [Cos.Current], fun data _ => h.not_exposes _ _ data⟩⟩

/-- **A lost append.** `/f` is opened twice for appending and is empty; one byte is written
through each descriptor, both calls succeed, and the file does not hold both. -/
theorem append_lost : ∃ u v v₁ v₂,
    (single (Cos.zeroDrive 1024).oneFile (fun _ => zeroFile) 0).vfsOpen Cos.fPath
      appendFlags = some (0, u) ∧
    u.vfsOpen Cos.fPath appendFlags = some (1, v) ∧ (v.enteredCos 0).contents 6 = [] ∧
    v.vfsWrite 0 [1] = some (1, v₁) ∧ v₁.vfsWrite 1 [2] = some (1, v₂) ∧
    (v₂.enteredCos 0).contents 6 ≠ [1, 2] := by
  obtain ⟨-, w, hrep, hone⟩ := Cos.oneFile_spec (Cos.zeroDrive 1024) (by decide)
  have h := emptyFile_oneFile hrep hone
  obtain ⟨u, v₁, v₂, hu, hv, h₁, h₂, hcalls⟩ := h.calls (k := 1) (by omega) 1 2
  exact ⟨u, _, v₁, v₂, hu, hv, h.contents_appendersOn, h₁, h₂, h.lost hcalls⟩

end Vfs

end Crusadia
