import Crusadia.Libc.Embedded
import Crusadia.Vfs.Single

/-!
# Crusadia.Vfs.Libc

**Descriptor numbers of the C library** (`vfs.c`, `tcc_vfs.c`). `open` returns a slot of
`s_files` plus three, and `tcc_os_open` adds three once more; each entry point has to take off
what was added. `read`, `write`, `lseek` and `close` do, and so do the calls of TinyCC that end
in them. `fstat` and `fdopen` do not: they look three slots further on.
-/

namespace Crusadia

open Libc.Embedded

namespace Vfs

/-- `STDIO_FD_COUNT`. -/
def stdioFdCount : Int := 3

/-- `is_stdio_fd`. -/
def isStdioFd (fd : Int) : Bool := fd == 0 || fd == 1 || fd == 2

/-- The tag `"tcc"`. -/
def tccTag : CStr := ⟨[0x74, 0x63, 0x63], by decide⟩

section

variable (v : Vfs)

/-- `open`. -/
def libcOpen (path : CStr) (fl : OpenFlags) : Option (Int × Vfs) :=
  (v.openLocked path fl tccTag).map fun r => (if r.1 < 0 then -1 else r.1 + stdioFdCount, r.2)

/-- `close`. -/
def libcClose (fd : Int) : Int × Vfs :=
  if isStdioFd fd then (0, v) else
  let r := v.vfsClose (fdIndex (fd - stdioFdCount))
  (if r.1 < 0 then -1 else 0, r.2)

/-- `read`; `stdin` is what `stdio_read` returns. -/
def libcRead (stdin : List Byte) (fd : Int) (count : Nat) : Option (List Byte) × Vfs :=
  if fd = 0 then (some stdin, v) else
  if isStdioFd fd then (none, v) else v.vfsRead (fdIndex (fd - stdioFdCount)) count

/-- `write`; the console is not part of the state. -/
def libcWrite (fd : Int) (data : List Byte) : Option (Int × Vfs) :=
  if fd = 1 ∨ fd = 2 then some (data.length, v) else
  if isStdioFd fd then some (-1, v) else v.vfsWrite (fdIndex (fd - stdioFdCount)) data

/-- `lseek`. -/
def libcLseek (fd offset whence : Int) : Int × Vfs :=
  if isStdioFd fd then (-1, v) else v.vfsLseek (fdIndex (fd - stdioFdCount)) offset whence

/-- The size that `fstat` stores, for a slot of `s_files`; `none` is `-1`. -/
def slotSize (k : Nat) : Option Nat :=
  if v.vfsFsize k < 0 then none else some (v.vfsFsize k).toNat

/-- `fstat`. -/
def fstat (fd : Int) : Option Nat := v.slotSize (fdIndex fd)

/-- `fdopen`: a stream is a part of its slot. -/
def fdopen (fd : Int) : Option Nat :=
  if (v.fget (fdIndex fd)).isSome then some (fdIndex fd) else none

end

/-! ### TinyCC -/

/-- `VFD_REAL_SHIFT`. -/
def vfdRealShift : Int := 3

/-- The state that TinyCC works on: the files, and the headers that are open. -/
structure Tcc where
  vfs : Vfs
  vfd : Vfd

/-- A path as the names of the headers are written. -/
def pathString (path : CStr) : String := .ofList (path.chars.map fun b => .ofNat b.toNat)

/-- The flags that `tcc_os_open` does not look for a header with. -/
def OpenFlags.plain (fl : OpenFlags) : Bool := !(fl.writable || fl.creat || fl.trunc || fl.append)

namespace Tcc

section

variable (efiles : List EFile) (t : Tcc) (path : CStr) (fl : OpenFlags)

/-- The part of `tcc_os_open` for paths under `/tcc/`; `none` leaves the rest to `open`. -/
def openEmbedded : Option (Int × Tcc) :=
  if !fl.plain then none else
  if (findEmbedded efiles (pathString path)).isSome then
    some (((List.finRange 8).find? fun i => !(t.vfd i).used).elim (-1) fun i => embedBase + i.val,
      { t with vfd := tccOsOpen efiles t.vfd (pathString path) 0 })
  else if path.chars.take 5 = [0x2F, 0x74, 0x63, 0x63, 0x2F] then some (-1, t) else none

/-- `tcc_os_open`. -/
def osOpen : Option (Int × Tcc) :=
  match t.openEmbedded efiles path fl with
  | some r => some r
  | none => (t.vfs.libcOpen path fl).map fun r =>
    (if r.1 < 0 then -1 else r.1 + vfdRealShift, { t with vfs := r.2 })

end

/-- `tcc_os_fdopen`. -/
def osFdopen (t : Tcc) (fd : Int) : Option Nat :=
  if fd < vfdRealShift then none else t.vfs.fdopen (fd - vfdRealShift)

/-- `tcc_os_read`. -/
def osRead (t : Tcc) (stdin : List Byte) (fd : Int) (n : Nat) : Option (List Byte) × Tcc :=
  if fd ≥ embedBase then
    let r := tccOsRead t.vfd fd.toNat (.ofNat 32 n)
    (r.1, { t with vfd := r.2 })
  else if fd < vfdRealShift then (none, t) else
  let r := t.vfs.libcRead stdin (fd - vfdRealShift) n
  (r.1, { t with vfs := r.2 })

/-- `tcc_os_close`. -/
def osClose (t : Tcc) (fd : Int) : Int × Tcc :=
  if fd ≥ embedBase then
    ((slotOf t.vfd fd.toNat).elim (-1) fun _ => 0, { t with vfd := tccOsClose t.vfd fd.toNat })
  else if fd < vfdRealShift then (-1, t) else
  let r := t.vfs.libcClose (fd - vfdRealShift)
  (r.1, { t with vfs := r.2 })

/-- `tcc_os_lseek`. -/
def osLseek (t : Tcc) (fd off whence : Int) : Int × Tcc :=
  if fd ≥ embedBase then
    let off := .ofInt 32 off
    let whence : Whence := if whence = 0 then .set else if whence = 1 then .cur else .fromEnd
    ((slotOf t.vfd fd.toNat).elim (-1) fun i => max (-1) ((t.vfd i).target off whence).toInt,
      { t with vfd := tccOsLseek t.vfd fd.toNat off whence })
  else if fd < vfdRealShift then (-1, t) else
  let r := t.vfs.libcLseek (fd - vfdRealShift) off whence
  (r.1, { t with vfs := r.2 })

end Tcc

/-! ### Which slot a descriptor means -/

variable {v v' : Vfs} {fd : Int} {k j : Nat} {rel : CStr} {r : Int} {fl : OpenFlags} {path : CStr}
  {t : Tcc}

/-- `read`, `write`, `lseek` and `close` on `fd` work on slot `k`. -/
structure Uses (v : Vfs) (fd : Int) (k : Nat) : Prop where
  read : ∀ stdin count, v.libcRead stdin fd count = v.vfsRead k count
  write : ∀ data, v.libcWrite fd data = v.vfsWrite k data
  lseek : ∀ offset whence, v.libcLseek fd offset whence = v.vfsLseek k offset whence
  close : v.libcClose fd = (if (v.vfsClose k).1 < 0 then -1 else 0, (v.vfsClose k).2)

/-- `tcc_os_read`, `tcc_os_lseek` and `tcc_os_close` on `fd` work on slot `k`. -/
structure Tcc.Uses (t : Tcc) (fd : Int) (k : Nat) : Prop where
  read : ∀ stdin n, t.osRead stdin fd n = ((t.vfs.vfsRead k n).1, ⟨(t.vfs.vfsRead k n).2, t.vfd⟩)
  lseek : ∀ off whence, t.osLseek fd off whence =
    ((t.vfs.vfsLseek k off whence).1, ⟨(t.vfs.vfsLseek k off whence).2, t.vfd⟩)
  close : t.osClose fd = (if (t.vfs.vfsClose k).1 < 0 then -1 else 0, ⟨(t.vfs.vfsClose k).2, t.vfd⟩)

theorem fget_isSome : (v.fget k).isSome = true ↔ k < vfsMaxFds ∧ (v.files k).used = true := by
  rw [fget]
  split
  · exact iff_of_true rfl ‹_›
  · exact iff_of_false (by simp) ‹_›

/-- Closing an open slot makes it free, and closing another one does not. -/
theorem eq_of_vfsClose (hk : (v.fget k).isSome = true)
    (h : (v.vfsClose j).2 = (v.vfsClose k).2) : j = k := by
  obtain ⟨hlt, hu⟩ := fget_isSome.mp hk
  have hfree : ((v.vfsClose k).2.files k).used = false := by
    rw [vfsClose, fget, if_pos ⟨hlt, hu⟩]
    dsimp only
    rw [files_setFile, if_pos rfl]
  by_contra hne
  have hopen : ((v.vfsClose j).2.files k).used = true := by
    rw [vfsClose]
    split
    · exact hu
    · dsimp only
      rw [files_setFile, if_neg (Ne.symm hne)]
      exact hu
  rw [h, hfree] at hopen
  cases hopen

theorem fdIndex_natCast (k : Nat) : fdIndex k = k := by
  rw [fdIndex, if_neg (by omega)]
  exact Int.toNat_natCast k

theorem isStdioFd_eq_false (k : Nat) : isStdioFd (k + stdioFdCount) = false := by
  simp only [isStdioFd, stdioFdCount, Bool.or_eq_false_iff, beq_eq_false_iff_ne]
  omega

/-- The four calls take off what `open` has added. -/
theorem uses_add (v : Vfs) (k : Nat) : v.Uses (k + stdioFdCount) k := by
  have hidx : fdIndex ((k : Int) + stdioFdCount - stdioFdCount) = k := by
    rw [Int.add_sub_cancel, fdIndex_natCast]
  refine ⟨fun stdin count => ?_, fun data => ?_, fun offset whence => ?_, ?_⟩
  · rw [libcRead, if_neg (by rw [stdioFdCount]; omega), isStdioFd_eq_false, hidx]
    rfl
  · rw [libcWrite, if_neg (by rw [stdioFdCount]; omega), isStdioFd_eq_false, hidx]
    rfl
  · rw [libcLseek, isStdioFd_eq_false, hidx]
    rfl
  · rw [libcClose, isStdioFd_eq_false, hidx]
    rfl

/-- They work on no other slot. -/
theorem uses_add_iff (hk : (v.fget k).isSome = true) :
    v.Uses (k + stdioFdCount) j ↔ j = k := by
  refine ⟨fun h => ?_, fun h => h ▸ uses_add v k⟩
  have := h.close.symm.trans (uses_add v k).close
  exact eq_of_vfsClose hk (Prod.mk.inj this).2

theorem Tcc.uses_add (t : Tcc) (hk : k < vfsMaxFds) :
    t.Uses (k + stdioFdCount + vfdRealShift) k := by
  have h1 : ¬ (k : Int) + stdioFdCount + vfdRealShift ≥ embedBase := by
    simp only [stdioFdCount, vfdRealShift, embedBase, vfsMaxFds] at *
    omega
  have h2 : ¬ (k : Int) + stdioFdCount + vfdRealShift < vfdRealShift := by
    rw [stdioFdCount]
    omega
  have huses := Vfs.uses_add t.vfs k
  refine ⟨fun stdin n => ?_, fun off whence => ?_, ?_⟩
  · rw [osRead, if_neg h1, if_neg h2, Int.add_sub_cancel, huses.read]
  · rw [osLseek, if_neg h1, if_neg h2, Int.add_sub_cancel, huses.lseek]
  · rw [osClose, if_neg h1, if_neg h2, Int.add_sub_cancel, huses.close]

theorem Tcc.uses_add_iff (hk : (t.vfs.fget k).isSome = true) :
    t.Uses (k + stdioFdCount + vfdRealShift) j ↔ j = k := by
  have huses := t.uses_add (fget_isSome.mp hk).1
  refine ⟨fun h => ?_, fun h => h ▸ huses⟩
  have := h.close.symm.trans huses.close
  exact eq_of_vfsClose hk (congrArg Tcc.vfs (Prod.mk.inj this).2)

/-- `fdopen` never leaves its own number behind. -/
theorem fdopen_eq_some (h : v.fdopen fd = some k) : (k : Int) = fd := by
  rw [fdopen] at h
  split at h
  · rename_i hopen
    have hlt := (fget_isSome.mp hopen).1
    cases h
    rw [fdIndex] at hlt ⊢
    split at hlt
    · omega
    · rw [if_neg ‹_›]
      omega
  · cases h

theorem Tcc.osFdopen_eq_some (h : t.osFdopen fd = some k) : (k : Int) + vfdRealShift = fd := by
  rw [osFdopen] at h
  split at h
  · cases h
  · have := fdopen_eq_some h
    omega

/-! ### What `open` returns -/

/-- What `open_locked` returns is an error, or the number of a slot that is open now. -/
theorem openLocked_fd {tag : CStr} (h : v.openLocked path fl tag = some (r, v')) (hr : 0 ≤ r) :
    ∃ k : Nat, r = k ∧ (v'.fget k).isSome = true := by
  rcases openLocked_cases h with ⟨hneg, -⟩ | ⟨fd, f, u, ⟨hfd, -⟩, -, hused, -, -, rfl, rfl⟩
  · omega
  · refine ⟨fd, rfl, fget_isSome.mpr ⟨hfd, ?_⟩⟩
    show ((u.setFile fd f).files fd).used = true
    rw [files_setFile, if_pos rfl, hused]

/-- The descriptors that `open` returns. -/
theorem libcOpen_fd (h : v.libcOpen path fl = some (fd, v')) :
    fd = -1 ∨ ∃ k : Nat, fd = k + stdioFdCount ∧ (v'.fget k).isSome = true := by
  obtain ⟨⟨r, w⟩, hr, heq⟩ := Option.map_eq_some_iff.mp h
  cases heq
  dsimp only
  split
  · exact .inl rfl
  · obtain ⟨k, rfl, hk⟩ := openLocked_fd hr (by omega)
    exact .inr ⟨k, rfl, hk⟩

/-- The descriptors that `tcc_os_open` returns for what is not a header. -/
theorem Tcc.osOpen_fd {efiles : List EFile} {t' : Tcc}
    (he : t.openEmbedded efiles path fl = none) (h : t.osOpen efiles path fl = some (fd, t')) :
    fd = -1 ∨ ∃ k : Nat, fd = k + stdioFdCount + vfdRealShift ∧ (t'.vfs.fget k).isSome = true := by
  rw [osOpen, he] at h
  obtain ⟨⟨r, w⟩, hr, heq⟩ := Option.map_eq_some_iff.mp h
  cases heq
  dsimp only
  obtain rfl | ⟨k, rfl, hk⟩ := libcOpen_fd hr
  · exact .inl rfl
  · rw [if_neg (by rw [stdioFdCount]; omega)]
    exact .inr ⟨k, rfl, hk⟩

/-! ### The two that forget -/

/-- All entry points that take the descriptor `fd` of `open` mean one slot. -/
def OneFileDescription (v : Vfs) (fd : Int) : Prop :=
  ∃ k, v.Uses fd k ∧ v.fstat fd = v.slotSize k ∧ v.fdopen fd = some k

/-- All entry points that take the descriptor `fd` of `tcc_os_open` mean one slot. -/
def Tcc.OneFileDescription (t : Tcc) (fd : Int) : Prop :=
  ∃ k, t.Uses fd k ∧ t.vfs.fstat fd = t.vfs.slotSize k ∧ t.osFdopen fd = some k

theorem not_oneFileDescription (hk : (v.fget k).isSome = true) :
    ¬v.OneFileDescription (k + stdioFdCount) := by
  rintro ⟨j, huse, -, hopen⟩
  obtain rfl := (uses_add_iff hk).mp huse
  have := fdopen_eq_some hopen
  rw [stdioFdCount] at this
  omega

theorem Tcc.not_oneFileDescription (hk : (t.vfs.fget k).isSome = true) :
    ¬t.OneFileDescription (k + stdioFdCount + vfdRealShift) := by
  rintro ⟨j, huse, -, hopen⟩
  obtain rfl := (Tcc.uses_add_iff hk).mp huse
  have := Tcc.osFdopen_eq_some hopen
  rw [stdioFdCount, vfdRealShift] at this
  omega

/-- A descriptor of `open` or of `tcc_os_open` means one slot to all entry points only when
there is none. What `fstat` measures is three slots further on (six for TinyCC), and the size
is that of the file only if it is the same there. -/
theorem descriptors_agree_iff {efiles : List EFile} {t' : Tcc}
    {fd' : Int} (h : v.libcOpen path fl = some (fd, v'))
    (he : t.openEmbedded efiles path fl = none) (ht : t.osOpen efiles path fl = some (fd', t')) :
    ((0 ≤ fd → v'.OneFileDescription fd) ↔ fd = -1) ∧
    ((0 ≤ fd' → t'.OneFileDescription fd') ↔ fd' = -1) ∧
    (∀ k, (v'.fget k).isSome = true → fd = k + stdioFdCount →
      ((∃ j, v'.Uses fd j ∧ v'.fstat fd = v'.slotSize j) ↔ v'.slotSize (k + 3) = v'.slotSize k)) ∧
    ∀ k, (t'.vfs.fget k).isSome = true → fd' = k + stdioFdCount + vfdRealShift →
      ((∃ j, t'.Uses fd' j ∧ t'.vfs.fstat fd' = t'.vfs.slotSize j) ↔
        t'.vfs.slotSize (k + 6) = t'.vfs.slotSize k) := by
  refine ⟨⟨fun hall => ?_, fun hfd h0 => by omega⟩, ⟨fun hall => ?_, fun hfd h0 => by omega⟩,
    ?_, ?_⟩
  · obtain hfd | ⟨k, rfl, hk⟩ := libcOpen_fd h
    · exact hfd
    · exact absurd (hall (by rw [stdioFdCount]; omega)) (not_oneFileDescription hk)
  · obtain hfd | ⟨k, rfl, hk⟩ := Tcc.osOpen_fd he ht
    · exact hfd
    · exact absurd (hall (by rw [stdioFdCount, vfdRealShift]; omega))
        (Tcc.not_oneFileDescription hk)
  · rintro k hk rfl
    have hidx : fdIndex ((k : Int) + stdioFdCount) = k + 3 := fdIndex_natCast (k + 3)
    simp only [uses_add_iff hk, exists_eq_left, fstat, hidx]
  · rintro k hk rfl
    have hidx : fdIndex ((k : Int) + stdioFdCount + vfdRealShift) = k + 6 := fdIndex_natCast (k + 6)
    simp only [Tcc.uses_add_iff hk, exists_eq_left, fstat, hidx]

/-! ### A file that is opened -/

/-- Read only. -/
def rdonly : OpenFlags := ⟨false, false, false, false, false⟩

/-- The state of `Cos.oneFile` on a drive of 68 sectors, mounted. -/
def fileMounted : Vfs := single (Cos.zeroDrive 68).oneFile (fun _ => zeroFile) 0

/-- The first `open` returns 3, for slot 0. -/
theorem libcOpen_single {s : Cos} (h : s.beStat Cos.fPath = some ⟨false, 0, 6⟩) :
    ∃ v, (single s (fun _ => zeroFile) 0).libcOpen Cos.fPath rdonly = some (3, v) ∧
      (v.fget 0).isSome = true ∧ v.slotSize 3 = none ∧ v.slotSize 0 = some 0 := by
  have hfree : (single s (fun _ => zeroFile) 0).freeFd = some 0 := rfl
  have hopen : (single s (fun _ => zeroFile) 0).openLocked Cos.fPath rdonly tccTag = _ :=
    openLocked_single Cos.fPath Cos.fPath (by decide) (by decide) h 0 rfl rfl rfl hfree
  refine ⟨single { s with gCurrentDir := 0 } (Function.update (fun _ => zeroFile) 0
    ⟨true, 0, false, false, 0, 0, 6, Cos.fPath⟩) 1, ?_, rfl, rfl, ?_⟩
  · rw [libcOpen, hopen]
    rfl
  · have hlong : toLong 0 = 0 := by decide
    simp [slotSize, vfsFsize, fget, single, hlong, vfsMaxFds]

theorem libcOpen_fileMounted : ∃ v, fileMounted.libcOpen Cos.fPath rdonly = some (3, v) ∧
    (v.fget 0).isSome = true ∧ v.slotSize 3 = none ∧ v.slotSize 0 = some 0 := by
  obtain ⟨-, w, hrep, hone⟩ := Cos.oneFile_spec (Cos.zeroDrive 68) (by decide)
  exact libcOpen_single (Cos.beStat_fPath hrep hone)

/-- No header is open. -/
def noHeaders : Vfd := fun _ => ⟨false, fun _ => 0, 0, 0⟩

/-- The same through `tcc_os_open`. -/
theorem osOpen_fileMounted : ∃ t, Tcc.osOpen [] ⟨fileMounted, noHeaders⟩ Cos.fPath rdonly =
    some (6, t) ∧ (t.vfs.fget 0).isSome = true := by
  obtain ⟨v, hv, hopen, -⟩ := libcOpen_fileMounted
  refine ⟨⟨v, noHeaders⟩, ?_, hopen⟩
  rw [Tcc.osOpen, show Tcc.openEmbedded [] _ Cos.fPath rdonly = none from rfl]
  dsimp only
  rw [hv]
  rfl

theorem descriptors_agree_iff_fileMounted : ∃ v t,
    fileMounted.libcOpen Cos.fPath rdonly = some (3, v) ∧
    Tcc.osOpen [] ⟨fileMounted, noHeaders⟩ Cos.fPath rdonly = some (6, t) ∧
    ¬v.OneFileDescription 3 ∧ ¬t.OneFileDescription 6 := by
  obtain ⟨v, hv, -⟩ := libcOpen_fileMounted
  obtain ⟨t, ht, -⟩ := osOpen_fileMounted
  have hagree := descriptors_agree_iff hv rfl ht
  refine ⟨v, t, hv, ht, fun hone => ?_, fun hone => ?_⟩
  · exact absurd (hagree.1.mp fun _ => hone) (by decide)
  · exact absurd (hagree.2.1.mp fun _ => hone) (by decide)

/-- **Descriptor 3 is two files.** After the first `open`, `read` and the others work on slot 0,
where the empty file is; `fstat(3)` fails and `fdopen(3)` returns no stream, because slot 3 is
free. -/
theorem fstat_fdopen_fail : ∃ v, fileMounted.libcOpen Cos.fPath rdonly = some (3, v) ∧
    v.Uses 3 0 ∧ v.slotSize 0 = some 0 ∧ v.fstat 3 = none ∧ v.fdopen 3 ≠ some 0 ∧
    ¬v.OneFileDescription 3 := by
  obtain ⟨v, hv, hopen, hfstat, hsize⟩ := libcOpen_fileMounted
  refine ⟨v, hv, uses_add v 0, hsize, hfstat, fun h => ?_, not_oneFileDescription (k := 0) hopen⟩
  exact absurd (fdopen_eq_some h) (by decide)

end Vfs

end Crusadia
