import Crusadia.Lib.Buf

/-!
# Crusadia.Vfs.Sqlite

The **file methods of the SQLite port**, `os_crusadia.c`, over system calls that keep a file as an
array of bytes.

The system calls are given by what they promise: `File` is the contents and the position, a gap is
filled with zeros, a call may fail, and a write may store only the first of its bytes. The methods
are specified by one array that every answer has to agree with (`Answers`, `Trace`). Two of them do
not keep to it. `crusadiaTruncate` says that it has cut the file and does nothing
(`no_trace_truncate`), and the 64-bit offset of a read or a write goes to `lseek` as a `long` of 32
bits.
-/

namespace Crusadia.Sqlite

/-! ### Arrays of bytes -/

section

variable (a : List Byte)

/-- The array with `bs` stored at `p`; the gap before them is filled with zeros. -/
def splice (p : Nat) (bs : List Byte) : List Byte :=
  if bs = [] then a
  else a.take p ++ List.replicate (p - a.length) 0 ++ bs ++ a.drop (p + bs.length)

/-- The array cut, or filled with zeros, to `n` bytes. -/
def resize (n : Nat) : List Byte := a.take n ++ List.replicate (n - a.length) 0

/-- At most `n` bytes of the array, from `p`. -/
def slice (p n : Nat) : List Byte := (a.drop p).take n

theorem length_splice (p : Nat) (bs : List Byte) :
    (splice a p bs).length = if bs = [] then a.length else max a.length (p + bs.length) := by
  unfold splice
  split
  · rfl
  · simp only [List.length_append, List.length_take, List.length_replicate, List.length_drop]
    omega

theorem resize_length_self : resize a a.length = a := by simp [resize]

end

/-! ### The system calls -/

/-- `long` of the target has 32 bits. -/
abbrev longMax : Nat := 2 ^ 31

/-- An open file. -/
structure File where
  /-- The contents. -/
  data : List Byte
  /-- The position of the descriptor. -/
  pos : Nat
  /-- Sizes and offsets are not negative as a `long`. -/
  small : data.length < longMax

/-- What goes wrong in the system calls of one method. -/
structure Faults where
  /-- The `n`-th `lseek` of the method fails. -/
  lseek : Nat → Bool
  /-- `read` fails. -/
  read : Bool
  /-- The number of bytes that `write` has room for; none if it fails. -/
  write : Option Nat

/-- The third argument of `lseek`. -/
inductive Whence where
  | set
  | cur
  | «end»
  deriving DecidableEq

section

variable (f : File)

/-- `lseek`. -/
def File.lseek (offset : Int) (whence : Whence) (fails : Bool) : Int × File :=
  let base : Nat := match whence with
    | .set => 0
    | .cur => f.pos
    | .end => f.data.length
  if fails = true ∨ base + offset < 0 ∨ (longMax : Int) ≤ base + offset then (-1, f)
  else (base + offset, { f with pos := (base + offset).toNat })

/-- `read`: its result and the bytes that it stores. -/
def File.read (count : Nat) (fails : Bool) : (Int × List Byte) × File :=
  if fails then ((-1, []), f) else
  let bs := slice f.data f.pos count
  ((bs.length, bs), { f with pos := f.pos + bs.length })

/-- The bytes that `write` stores. -/
def File.stored (data : List Byte) (room : Nat) : List Byte :=
  data.take (min room (longMax - 1 - f.pos))

theorem File.length_splice_stored (data : List Byte) (room : Nat) :
    (splice f.data f.pos (f.stored data room)).length < longMax := by
  have := f.small
  rw [length_splice, File.stored]
  split
  · exact f.small
  · next h =>
    have hne : data.take (min room (longMax - 1 - f.pos)) ≠ [] := h
    rw [ne_eq, List.take_eq_nil_iff, not_or] at hne
    rw [List.length_take]
    omega

/-- `write`. -/
def File.write (data : List Byte) (room : Option Nat) : Int × File :=
  match room with
  | none => (-1, f)
  | some r =>
    ((f.stored data r).length,
      ⟨splice f.data f.pos (f.stored data r), f.pos + (f.stored data r).length,
        f.length_splice_stored data r⟩)

/-! ### The methods -/

/-- The results of the methods. -/
inductive Rc where
  | ok
  | ioerrRead
  | ioerrShortRead
  | ioerrWrite
  | ioerrFstat
  deriving DecidableEq

/-- The cast of an offset to `long`. -/
def long (iOfst : BitVec 64) : Int := (iOfst.setWidth 32).toInt

/-- `crusadiaRead`: its result and what it stores in the buffer. -/
def crusadiaRead (ft : Faults) (iAmt : BitVec 32) (iOfst : BitVec 64) :
    (Rc × List Byte) × File :=
  let r := f.lseek (long iOfst) .set (ft.lseek 0)
  if r.1 < 0 then ((.ioerrRead, []), r.2) else
  let g := r.2.read iAmt.toNat ft.read
  if g.1.1 < 0 then ((.ioerrRead, g.1.2), g.2) else
  if g.1.1 < iAmt.toInt then
    ((.ioerrShortRead, g.1.2 ++ List.replicate (iAmt.toInt - g.1.1).toNat 0), g.2)
  else ((.ok, g.1.2), g.2)

/-- The bytes of a buffer that `write` is given. -/
def buffer (buf : Nat → Byte) (iAmt : BitVec 32) : List Byte := (List.range iAmt.toNat).map buf

/-- `crusadiaWrite`. -/
def crusadiaWrite (ft : Faults) (buf : Nat → Byte) (iAmt : BitVec 32)
    (iOfst : BitVec 64) : Rc × File :=
  let r := f.lseek (long iOfst) .set (ft.lseek 0)
  if r.1 < 0 then (.ioerrWrite, r.2) else
  let w := r.2.write (buffer buf iAmt) ft.write
  if w.1 ≠ iAmt.toInt then (.ioerrWrite, w.2) else (.ok, w.2)

/-- `crusadiaTruncate`. -/
def crusadiaTruncate (_size : BitVec 64) : Rc × File := (.ok, f)

/-- `crusadiaFileSize`: its result and the size that it stores. -/
def crusadiaFileSize (ft : Faults) : (Rc × Option Int) × File :=
  let cur := f.lseek 0 .cur (ft.lseek 0)
  let «end» := cur.2.lseek 0 .end (ft.lseek 1)
  if «end».1 < 0 then ((.ioerrFstat, none), «end».2) else
  let f := if 0 ≤ cur.1 then («end».2.lseek cur.1 .set (ft.lseek 2)).2 else «end».2
  ((.ok, some «end».1), f)

end

/-- A call of a method. -/
inductive Call where
  | read (iAmt : BitVec 32) (iOfst : BitVec 64)
  | write (buf : Nat → Byte) (iAmt : BitVec 32) (iOfst : BitVec 64)
  | truncate (size : BitVec 64)
  | fileSize

/-- What the caller sees of a call. -/
structure Reply where
  rc : Rc
  /-- What is stored in the buffer of a read. -/
  bytes : List Byte
  /-- What is stored at `pSize`. -/
  size : Option Int
  deriving DecidableEq

/-- One call. -/
def Call.run (f : File) (ft : Faults) : Call → Reply × File
  | .read iAmt iOfst =>
    let r := crusadiaRead f ft iAmt iOfst
    (⟨r.1.1, r.1.2, none⟩, r.2)
  | .write buf iAmt iOfst =>
    let r := crusadiaWrite f ft buf iAmt iOfst
    (⟨r.1, [], none⟩, r.2)
  | .truncate size =>
    let r := crusadiaTruncate f size
    (⟨r.1, [], none⟩, r.2)
  | .fileSize =>
    let r := crusadiaFileSize f ft
    (⟨r.1.1, [], r.1.2⟩, r.2)

/-! ### One array of bytes -/

/-- The answer `r` to a call is that of the array `a`, and `b` is the array after it. Only a method
that answers `SQLITE_OK` or `SQLITE_IOERR_SHORT_READ` promises anything about its result; a write
that fails may have stored the first of its bytes. -/
def Answers (a : List Byte) (r : Reply) (b : List Byte) : Call → Prop
  | .read iAmt iOfst =>
    (r.rc = .ok → 0 ≤ iAmt.toInt ∧ 0 ≤ iOfst.toInt ∧
      r.bytes = slice a iOfst.toInt.toNat iAmt.toInt.toNat ∧
      (r.bytes.length : Int) = iAmt.toInt) ∧
    (r.rc = .ioerrShortRead → 0 ≤ iOfst.toInt ∧
      ((slice a iOfst.toInt.toNat iAmt.toInt.toNat).length : Int) < iAmt.toInt ∧
      r.bytes = resize (slice a iOfst.toInt.toNat iAmt.toInt.toNat) iAmt.toInt.toNat) ∧
    b = a
  | .write buf iAmt iOfst =>
    if r.rc = .ok then
      0 ≤ iAmt.toInt ∧ 0 ≤ iOfst.toInt ∧ b = splice a iOfst.toInt.toNat (buffer buf iAmt)
    else b = a ∨ 0 ≤ iOfst.toInt ∧
      ∃ k, b = splice a iOfst.toInt.toNat ((buffer buf iAmt).take k)
  | .truncate size =>
    if r.rc = .ok then 0 ≤ size.toInt ∧ b = resize a size.toInt.toNat else b = a
  | .fileSize => (r.rc = .ok → r.size = some (a.length : Int)) ∧ b = a

/-- A log of calls and answers that one array explains, from `a` to `b`. -/
inductive Trace : List Byte → List (Call × Reply) → List Byte → Prop where
  | start (a : List Byte) : Trace a [] a
  | call {a b d : List Byte} {log : List (Call × Reply)} (h : Trace a log b) (c : Call) (r : Reply)
      (hr : Answers b r d c) : Trace a (log ++ [(c, r)]) d

/-- Calls one after the other on a file, each of which meets `C`. -/
inductive Run (C : File → Call → Prop) : File → List (Call × Reply) → File → Prop where
  | start (f : File) : Run C f [] f
  | call {f g : File} {log : List (Call × Reply)} (h : Run C f log g) (c : Call) (ft : Faults)
      (hC : C g c) : Run C f (log ++ [(c, (c.run g ft).1)]) (c.run g ft).2

/-- The offset comes to `lseek` as it is, or as one that is refused. -/
def OffsetKept (iOfst : BitVec 64) : Prop := long iOfst = iOfst.toInt ∨ long iOfst < 0

/-- The calls that the methods answer as they should: reads and writes of an amount that is not
negative at an offset that the cast keeps, and a truncation to the size that the file has. -/
def Call.Safe (f : File) : Call → Prop
  | .read iAmt iOfst => 0 ≤ iAmt.toInt ∧ OffsetKept iOfst
  | .write _ iAmt iOfst => 0 ≤ iAmt.toInt ∧ OffsetKept iOfst
  | .truncate size => size.toInt = f.data.length
  | .fileSize => True

/-! ### What the system calls do -/

section

variable (f : File)

@[simp] theorem File.data_lseek (offset : Int) (whence : Whence) (fails : Bool) :
    (f.lseek offset whence fails).2.data = f.data := by
  unfold File.lseek
  simp only
  generalize (match whence with
    | .set => 0
    | .cur => f.pos
    | .end => f.data.length) = base
  split <;> rfl

/-- `lseek` to an offset that the cast keeps fails, or it sets the position. -/
theorem File.lseek_set {iOfst : BitVec 64} (hofst : OffsetKept iOfst) (fails : Bool) :
    (f.lseek (long iOfst) .set fails).1 < 0 ∨ 0 ≤ iOfst.toInt ∧
      ¬ (f.lseek (long iOfst) .set fails).1 < 0 ∧ ∃ g, (f.lseek (long iOfst) .set fails).2 = g ∧
        g.pos = iOfst.toInt.toNat ∧ g.data = f.data := by
  unfold File.lseek
  simp only [Nat.cast_zero, zero_add]
  split
  · exact .inl neg_one_lt_zero
  · next h =>
    rw [not_or, not_or] at h
    have heq : long iOfst = iOfst.toInt := hofst.resolve_right h.2.1
    exact .inr ⟨by omega, h.2.1, _, rfl, congrArg Int.toNat heq, rfl⟩

theorem File.lseek_end (fails : Bool) :
    (f.lseek 0 .end fails).1 < 0 ∨ (f.lseek 0 .end fails).1 = f.data.length := by
  unfold File.lseek
  simp only [add_zero]
  split
  · exact .inl neg_one_lt_zero
  · exact .inr rfl

@[simp] theorem File.data_read (count : Nat) (fails : Bool) :
    (f.read count fails).2.data = f.data := by
  unfold File.read
  split <;> rfl

/-- `read` fails, or it stores the bytes at the position. -/
theorem File.read_cases (count : Nat) (fails : Bool) :
    (f.read count fails).1.1 < 0 ∨
      (f.read count fails).1 = (((slice f.data f.pos count).length : Int),
        slice f.data f.pos count) := by
  unfold File.read
  split
  · exact .inl neg_one_lt_zero
  · exact .inr rfl

/-- What a `write` has stored, by its result. -/
theorem File.write_cases (data : List Byte) (room : Option Nat) :
    (f.write data room).1 = -1 ∧ (f.write data room).2.data = f.data ∨
      ∃ k, (f.write data room).1 = (data.take k).length ∧
        (f.write data room).2.data = splice f.data f.pos (data.take k) := by
  cases room with
  | none => exact .inl ⟨rfl, rfl⟩
  | some r => exact .inr ⟨_, rfl, rfl⟩

end

theorem toNat_of_nonneg {w : Nat} {x : BitVec w} (h : 0 ≤ x.toInt) : x.toInt.toNat = x.toNat := by
  rw [BitVec.toInt_eq_toNat_cond] at h ⊢
  have := x.isLt
  split at h <;> split <;> omega

@[simp] theorem length_buffer (buf : Nat → Byte) (iAmt : BitVec 32) :
    (buffer buf iAmt).length = iAmt.toNat := by simp [buffer]

/-! ### The methods answer as one array -/

theorem answers_read {f : File} {iAmt : BitVec 32} {iOfst : BitVec 64} (hamt : 0 ≤ iAmt.toInt)
    (hofst : OffsetKept iOfst) (ft : Faults) :
    Answers f.data ((Call.read iAmt iOfst).run f ft).1 ((Call.read iAmt iOfst).run f ft).2.data
      (.read iAmt iOfst) := by
  simp only [Call.run, Answers, crusadiaRead]
  rcases f.lseek_set hofst (ft.lseek 0) with hneg | ⟨hpos, hok, g, hg, hat, hdata⟩
  · simp [if_pos hneg]
  · simp only [if_neg hok, hg]
    rcases g.read_cases iAmt.toNat ft.read with hneg | hread
    · simp [if_pos hneg, hdata]
    · have hlen : (slice g.data g.pos iAmt.toNat).length ≤ iAmt.toNat := List.length_take_le _ _
      rw [hat, hdata] at hread hlen
      simp only [hread, toNat_of_nonneg hamt]
      have hn := toNat_of_nonneg hamt
      generalize slice f.data iOfst.toInt.toNat iAmt.toNat = bs at hlen hread
      rw [if_neg (by omega)]
      split
      · next hshort =>
        refine ⟨fun h => Rc.noConfusion h, fun _ => ⟨hpos, hshort, ?_⟩, ?_⟩
        · rw [resize, List.take_of_length_le hlen]
          simp only at hshort ⊢
          rw [show (iAmt.toInt - bs.length).toNat = iAmt.toNat - bs.length by omega]
        · rw [File.data_read, hdata]
      · next hfull =>
        refine ⟨fun _ => ⟨hamt, hpos, rfl, ?_⟩, fun h => Rc.noConfusion h, ?_⟩
        · simp only [not_lt] at hfull ⊢
          omega
        · rw [File.data_read, hdata]

theorem answers_write {f : File} {buf : Nat → Byte} {iAmt : BitVec 32} {iOfst : BitVec 64}
    (hamt : 0 ≤ iAmt.toInt) (hofst : OffsetKept iOfst) (ft : Faults) :
    Answers f.data ((Call.write buf iAmt iOfst).run f ft).1
      ((Call.write buf iAmt iOfst).run f ft).2.data (.write buf iAmt iOfst) := by
  simp only [Call.run, Answers, crusadiaWrite]
  rcases f.lseek_set hofst (ft.lseek 0) with hneg | ⟨hpos, hok, g, hg, hat, hdata⟩
  · simp [if_pos hneg]
  · simp only [if_neg hok, hg]
    rcases g.write_cases (buffer buf iAmt) ft.write with ⟨hres, hkeep⟩ | ⟨k, hres, hkeep⟩
    · have hne : (g.write (buffer buf iAmt) ft.write).1 ≠ iAmt.toInt := by omega
      simp only [if_pos hne, reduceCtorEq, if_false]
      exact .inl (hkeep.trans hdata)
    · rw [hat, hdata] at hkeep
      by_cases hne : (g.write (buffer buf iAmt) ft.write).1 ≠ iAmt.toInt
      · simp only [if_pos hne, reduceCtorEq, if_false]
        exact .inr ⟨hpos, k, hkeep⟩
      · simp only [if_neg hne, if_true]
        refine ⟨hamt, hpos, ?_⟩
        have hn := toNat_of_nonneg hamt
        rw [hkeep, List.take_of_length_le]
        rw [not_ne_iff, hres, List.length_take] at hne
        rw [length_buffer] at hne ⊢
        omega

theorem answers_fileSize (f : File) (ft : Faults) :
    Answers f.data (Call.fileSize.run f ft).1 (Call.fileSize.run f ft).2.data .fileSize := by
  simp only [Call.run, Answers, crusadiaFileSize]
  generalize hg : (f.lseek 0 .cur (ft.lseek 0)).2 = g
  have hdata : g.data = f.data := by rw [← hg, File.data_lseek]
  rcases g.lseek_end (ft.lseek 1) with hneg | hend
  · simp [if_pos hneg, hdata]
  · rw [hend, if_neg (by omega), hdata]
    refine ⟨fun _ => rfl, ?_⟩
    simp only
    split <;> simp [hdata]

/-- A safe call is answered as the contents of the file say. -/
theorem Call.Safe.answers {f : File} {c : Call} (h : c.Safe f) (ft : Faults) :
    Answers f.data (c.run f ft).1 (c.run f ft).2.data c := by
  cases c with
  | read iAmt iOfst => exact answers_read h.1 h.2 ft
  | write buf iAmt iOfst => exact answers_write h.1 h.2 ft
  | truncate size =>
    have hsize : size.toInt = f.data.length := h
    simp only [Call.run, crusadiaTruncate, Answers, if_true, hsize, Int.toNat_natCast,
      resize_length_self]
    exact ⟨by omega, trivial⟩
  | fileSize => exact answers_fileSize f ft

/-- In a run of safe calls, all answers are those of one array: it is the file at the start, and
the file at the end is what the calls have made of it. -/
theorem trace_of_run {f g : File} {log : List (Call × Reply)}
    (h : Run (fun f c => c.Safe f) f log g) : Trace f.data log g.data := by
  induction h with
  | start => exact .start f.data
  | call _ c ft hC ih => exact .call ih c _ (hC.answers ft)

/-- System calls that do not fail. -/
def noFaults : Faults := ⟨fun _ => false, false, some longMax⟩

/-- The empty file. -/
def emptyFile : File := ⟨[], 0, by decide⟩

/-- A file with one byte, written and then read at its end. -/
theorem trace_of_run_writeRead :
    Trace [] [(.write (fun _ => 7) 1 2, ⟨.ok, [], none⟩),
      (.read 2 2, ⟨.ioerrShortRead, [7, 0], none⟩)] [0, 0, 7] :=
  trace_of_run (f := emptyFile)
    (((Run.start emptyFile).call (.write (fun _ => 7) 1 2) noFaults
      ⟨by decide, .inl (by decide)⟩).call (.read 2 2) noFaults ⟨by decide, .inl (by decide)⟩)

theorem Trace.snoc {a d : List Byte} {log : List (Call × Reply)} {c : Call} {r : Reply}
    (h : Trace a (log ++ [(c, r)]) d) : ∃ b, Trace a log b ∧ Answers b r d c := by
  generalize hl : log ++ [(c, r)] = log' at h
  cases h with
  | start => simp at hl
  | call h c' r' hr =>
    obtain ⟨rfl, heq⟩ := List.append_inj' hl rfl
    cases heq
    exact ⟨_, h, hr⟩

/-- No array is cut to nothing and has a byte afterwards. -/
theorem not_trace_truncate {log : List (Call × Reply)} {r : Reply} (hr : r.rc = .ok)
    (a b : List Byte) :
    ¬ Trace a (log ++ [(.truncate 0, r)] ++ [(.fileSize, ⟨.ok, [], some 1⟩)]) b := by
  intro h
  obtain ⟨b1, h, hsize, -⟩ := h.snoc
  obtain ⟨b0, -, hcut⟩ := h.snoc
  simp only [Answers, hr, if_true] at hcut
  have hnil : b1 = [] := hcut.2.trans (by simp [resize])
  simp [hnil] at hsize

/-- A byte is written and the file is cut to nothing, which succeeds. The file still has the
byte. -/
theorem no_trace_truncate : ∃ log g, Run (fun _ _ => True) emptyFile log g ∧
    (∀ e ∈ log, e.2.rc = .ok) ∧ ∀ a b, ¬ Trace a log b :=
  ⟨_, _, (((Run.start emptyFile).call (.write (fun _ => 7) 1 0) noFaults trivial).call
    (.truncate 0) noFaults trivial).call .fileSize noFaults trivial, by decide,
    fun a b => not_trace_truncate rfl a b⟩

/-- The offset 2³² is the offset 0. -/
example : ((Call.write (fun _ => 7) 1 0x100000000).run emptyFile noFaults).2.data = [7] := by decide

end Crusadia.Sqlite
