import Mathlib.Data.BitVec
import Crusadia.Lib.Along

/-!
# Crusadia.Libc.Embedded

The headers that are compiled into the kernel (`tccport/tcc_vfs.c`), opened, read, moved in and
closed through a table of eight descriptors. What is left of a file is an unsigned difference, so a
read behind the end copies what follows the file in memory (`reads_exact_iff`).
-/

namespace Crusadia.Libc.Embedded

/-- `struct tcc_efile`; `data` is the memory from the first byte of the file on. -/
structure EFile where
  name : String
  data : Nat → BitVec 8
  size : BitVec 32

/-- One slot of `vfd`. -/
structure Slot where
  used : Bool
  data : Nat → BitVec 8
  size : BitVec 32
  pos : BitVec 32

/-- `vfd`. -/
abbrev Vfd := Fin 8 → Slot

/-- `SEEK_SET` and `SEEK_CUR`; every other value is taken as `SEEK_END`. -/
inductive Whence
  | set
  | cur
  | fromEnd

/-- The calls on the table. -/
inductive Call
  | osOpen (path : String) (flags : BitVec 32)
  | read (fd : Nat) (n : BitVec 32)
  | lseek (fd : Nat) (off : BitVec 32) (whence : Whence)
  | close (fd : Nat)

/-- `VFD_EMBED_BASE`. -/
def embedBase := 100

/-- `O_WRONLY | O_RDWR | O_CREAT | O_TRUNC | O_APPEND` -/
def writeFlags : BitVec 32 := 0x0643

/-- `find_embedded`. -/
def findEmbedded (files : List EFile) (path : String) : Option EFile :=
  files.find? fun f => "/tcc/include/" ++ f.name = path

/-- The open slot of a descriptor. -/
def slotOf (vfd : Vfd) (fd : Nat) : Option (Fin 8) :=
  if h : embedBase ≤ fd ∧ fd - embedBase < 8 then
    if (vfd ⟨fd - embedBase, h.2⟩).used then some ⟨fd - embedBase, h.2⟩ else none
  else none

/-- `tcc_os_open`. The result is left out, and the files that are not embedded, whose calls go to
the kernel's own. -/
def tccOsOpen (files : List EFile) (vfd : Vfd) (path : String) (flags : BitVec 32) : Vfd :=
  if flags &&& writeFlags ≠ 0 then vfd
  else match findEmbedded files path, (List.finRange 8).find? fun i => ¬ (vfd i).used with
    | some e, some i => Function.update vfd i ⟨true, e.data, e.size, 0⟩
    | _, _ => vfd

/-- The `n` bytes from the position on. -/
def Slot.bytes (s : Slot) (n : Nat) : List (BitVec 8) :=
  (List.range n).map fun k => s.data (s.pos.toNat + k)

/-- The number of bytes that `tcc_os_read` copies. -/
def Slot.count (s : Slot) (n : BitVec 32) : BitVec 32 :=
  let left := s.size - s.pos
  if n > left then left else n

/-- `tcc_os_read`. -/
def tccOsRead (vfd : Vfd) (fd : Nat) (n : BitVec 32) : Option (List (BitVec 8)) × Vfd :=
  match slotOf vfd fd with
  | none => (none, vfd)
  | some i =>
    let s := vfd i
    let n := s.count n
    (some (s.bytes n.toNat), Function.update vfd i { s with pos := s.pos + n })

/-- `tcc_os_close`. -/
def tccOsClose (vfd : Vfd) (fd : Nat) : Vfd :=
  match slotOf vfd fd with
  | none => vfd
  | some i => Function.update vfd i { vfd i with used := false }

/-- Where `tcc_os_lseek` moves to; `long` has 32 bits. -/
def Slot.target (s : Slot) (off : BitVec 32) : Whence → BitVec 32
  | .set => off
  | .cur => s.pos + off
  | .fromEnd => s.size + off

/-- `tcc_os_lseek`. -/
def tccOsLseek (vfd : Vfd) (fd : Nat) (off : BitVec 32) (whence : Whence) : Vfd :=
  match slotOf vfd fd with
  | none => vfd
  | some i =>
    let t := (vfd i).target off whence
    if t.slt 0 then vfd else Function.update vfd i { vfd i with pos := t }

/-- The table after a call. -/
def step (files : List EFile) (vfd : Vfd) : Call → Vfd
  | .osOpen path flags => tccOsOpen files vfd path flags
  | .read fd n => (tccOsRead vfd fd n).2
  | .lseek fd off whence => tccOsLseek vfd fd off whence
  | .close fd => tccOsClose vfd fd

/-- A read gives the bytes from the position on, as many as are asked for and are there. -/
def Exact (vfd : Vfd) : Call → Prop
  | .read fd n => ∀ i ∈ slotOf vfd fd,
    (tccOsRead vfd fd n).1 =
      some ((vfd i).bytes (min n.toNat ((vfd i).size.toNat - (vfd i).pos.toNat)))
  | _ => True

/-- A read of at least one byte finds the position inside the file or at its end. -/
def Inside (vfd : Vfd) : Call → Prop
  | .read fd n => ∀ i ∈ slotOf vfd fd, n = 0#32 ∨ (vfd i).pos ≤ (vfd i).size
  | _ => True

theorem toNat_count_iff (s : Slot) (n : BitVec 32) :
    (s.count n).toNat = min n.toNat (s.size.toNat - s.pos.toNat) ↔ n = 0#32 ∨ s.pos ≤ s.size := by
  simp only [Slot.count]
  have hn : n = 0#32 ↔ n.toNat = 0 := by bv_omega
  rw [hn, BitVec.le_def]
  split <;> bv_omega

theorem exact_iff_inside (vfd : Vfd) (c : Call) : Exact vfd c ↔ Inside vfd c := by
  cases c with
  | read fd n =>
    refine forall₂_congr fun i hi => ?_
    rw [← toNat_count_iff, tccOsRead, Option.mem_def.1 hi]
    -- the lists are equal just when they are equally long
    refine ⟨fun h => ?_, fun h => congrArg _ (congrArg _ h)⟩
    simpa [Slot.bytes] using congrArg (Option.map List.length) h
  | _ => exact Iff.rfl

/-- In every run of calls the reads are exact just when none starts behind the end of its file. -/
theorem reads_exact_iff (files : List EFile) (vfd : Vfd) (calls : List Call) :
    Along (step files) Exact vfd calls ↔ Along (step files) Inside vfd calls :=
  along_congr _ exact_iff_inside vfd calls

/-- A file of one byte, moved to two and read: the byte at two is copied. -/
theorem reads_not_exact :
    let files : List EFile := [⟨"a.h", fun k => BitVec.ofNat 8 k, 1⟩]
    let vfd : Vfd := fun _ => ⟨false, fun _ => 0, 0, 0⟩
    let calls : List Call := [.osOpen "/tcc/include/a.h" 0, .lseek 100 2 .set]
    (tccOsRead (calls.foldl (step files) vfd) 100 1).1 = some [2] ∧
      ¬ Along (step files) Exact vfd (calls ++ [.read 100 1]) := by
  intro files vfd calls
  have hread : (tccOsRead (calls.foldl (step files) vfd) 100 1).1 = some [2] := by decide +kernel
  refine ⟨hread, fun h => ?_⟩
  have hexact := h.2.2.1 0 (by decide +kernel)
  exact absurd (hread.symm.trans hexact) (by decide +kernel)

end Crusadia.Libc.Embedded
