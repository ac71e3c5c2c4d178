import Crusadia.Kernel.Run

/-!
# Crusadia.Kernel.Elf

The **loader of executables**: `elf.c` as it computes.

The file is the list of bytes that `vfs_pread` reads from; `none` stands for a path that
cannot be opened. Loading allocates a frame for every page of every segment, fills it
and maps it in the new task. The frames are the loader's until `task_track_frames` hands
them to the task at the end, so until then they are nobody's in the task table.
-/

namespace Crusadia.Kernel

/-- The values `elf_exec_argv` returns. -/
inductive ElfResult
  | ok
  | errOpen
  | errRead
  | errMagic
  | errClass
  | errType
  | errPhdr
  | errSegment
  | errMem
  deriving Repr, DecidableEq

/-- The fields of `elf32_ehdr_t` that are read. -/
structure Ehdr where
  ident : Nat → Byte
  type : Nat
  machine : Nat
  entry : Nat
  phoff : Nat
  phentsize : Nat
  phnum : Nat

/-- The fields of `elf32_phdr_t` that are read. -/
structure Phdr where
  type : Nat
  offset : Nat
  vaddr : Nat
  filesz : Nat
  memsz : Nat
  deriving Repr, DecidableEq

/-- The bytes of a file from `off` on, at most `count`. -/
def pread (file : List Byte) (off count : Nat) : List Byte := (file.drop off).take count

/-- A buffer read as memory. -/
def bufMem (bs : List Byte) : Mem := fun i => bs.getD i 0

/-- `elf32_ehdr_t`, from its 52 bytes. -/
def Ehdr.ofBytes (bs : List Byte) : Ehdr where
  ident := bufMem bs
  type := (bufMem bs).get16 16
  machine := (bufMem bs).get16 18
  entry := (bufMem bs).get32 24
  phoff := (bufMem bs).get32 28
  phentsize := (bufMem bs).get16 42
  phnum := (bufMem bs).get16 44

/-- `elf32_phdr_t`, from its 32 bytes. -/
def Phdr.ofBytes (bs : List Byte) : Phdr where
  type := (bufMem bs).get32 0
  offset := (bufMem bs).get32 4
  vaddr := (bufMem bs).get32 8
  filesz := (bufMem bs).get32 16
  memsz := (bufMem bs).get32 20

/-- `PT_LOAD` -/
abbrev PT_LOAD : Nat := 1

/-! ### Segments -/

/-- `free_frames` -/
def freeFrames (k : State) (frames : List Nat) : State :=
  { k with pmm := frames.foldl Pmm.freeBlock k.pmm }

/-- `start` of `load_segment`. -/
def Phdr.start (ph : Phdr) : Nat := pageOf ph.vaddr

/-- `end` of `load_segment`, a sum of 32-bit numbers. -/
def Phdr.stop (ph : Phdr) : Nat := pageOf (wrap (ph.vaddr + ph.memsz + 4095))

/-- `file_end` of `load_segment`. -/
def Phdr.fileEnd (ph : Phdr) : Nat := wrap (ph.vaddr + ph.filesz)

/-- The part of the page at `va` that the file provides: its first address and its length.
Nothing is read when the length is 0. -/
def Phdr.overlap (ph : Phdr) (va : Nat) : Nat × Nat :=
  let ovStart := if ph.vaddr > va then ph.vaddr else va
  let ovEnd := if ph.fileEnd < wrap (va + 4096) then ph.fileEnd else wrap (va + 4096)
  (ovStart, ovEnd - ovStart)

/-- What `load_segment` reads for the page at `va`. -/
def Phdr.pageBytes (file : List Byte) (ph : Phdr) (va : Nat) : List Byte :=
  pread file (wrap (ph.offset + ((ph.overlap va).1 - ph.vaddr))) (ph.overlap va).2

/-- Clear the frame at `phys` and read into it what the file has for the page at `va`. -/
def loadPage (file : List Byte) (ph : Phdr) (va phys : Nat) (m : Mem) : Mem :=
  let bytes := ph.pageBytes file va
  (m.fill phys 4096 0).store (phys + ((ph.overlap va).1 - va)) bytes.length fun i => bytes.getD i 0

/-- The loop of `load_segment`, `n` pages from `va` on. `frames` are those tracked so far. -/
def loadPages (file : List Byte) (ph : Phdr) (slot : Int) :
    Nat → Nat → List Nat → State → ElfResult × List Nat × State
  | 0, _, frames, k => (.ok, frames, k)
  | n + 1, va, frames, k =>
    let (phys, pmm) := k.pmm.allocBlock
    let k := { k with pmm }
    if phys = 0 then (.errMem, frames, k)
    else if frames.length ≥ TASK_MAX_OWNED_FRAMES then
      (.errMem, frames, { k with pmm := k.pmm.freeBlock phys })
    else
      let frames := frames ++ [phys]
      let k := { k with mem := loadPage file ph va phys k.mem }
      if (ph.pageBytes file va).length ≠ (ph.overlap va).2 then (.errRead, frames, k)
      else loadPages file ph slot n (va + 4096) frames (taskMapUserPage k slot phys va 0x07).2

/-- `load_segment` -/
def loadSegment (file : List Byte) (ph : Phdr) (slot : Int) (frames : List Nat) (k : State) :
    ElfResult × List Nat × State :=
  if ph.filesz > ph.memsz then (.errSegment, frames, k)
  else if ph.offset > file.length then (.errSegment, frames, k)
  else if ph.filesz > file.length - ph.offset then (.errSegment, frames, k)
  else if ph.memsz = 0 then (.ok, frames, k)
  else if ph.stop ≤ ph.start then (.errSegment, frames, k)
  else loadPages file ph slot ((ph.stop - ph.start) / 4096) ph.start frames k

/-- Program header `i`, if it lies inside the file. -/
def Ehdr.phdr (eh : Ehdr) (file : List Byte) (i : Nat) : Option Phdr :=
  let off := wrap (eh.phoff + i * eh.phentsize)
  if off > file.length ∨ 32 > file.length - off then none
  else some (Phdr.ofBytes (pread file off 32))

/-- The loop of `elf_exec_argv` over the program headers, `n` of them from `i` on. -/
def loadHeaders (file : List Byte) (eh : Ehdr) (slot : Int) :
    Nat → Nat → List Nat → State → ElfResult × List Nat × State
  | 0, _, frames, k => (.ok, frames, k)
  | n + 1, i, frames, k =>
    match eh.phdr file i with
    | none => (.errPhdr, frames, k)
    | some ph =>
      if ph.type ≠ PT_LOAD then loadHeaders file eh slot n (i + 1) frames k
      else
        match loadSegment file ph slot frames k with
        | (.ok, frames, k) => loadHeaders file eh slot n (i + 1) frames k
        | (e, frames, k) => (e, frames, k)

/-! ### Arguments -/

/-- `ELF_MAX_ARGV` -/
abbrev ELF_MAX_ARGV : Nat := 32
/-- `ELF_MAX_ENV` -/
abbrev ELF_MAX_ENV : Nat := 16
/-- `ELF_MAX_ARGV_BYTES` -/
abbrev ELF_MAX_ARGV_BYTES : Nat := 4096

/-- Strings, the first one first, pushed below `sp` with their terminators: their
addresses, in front of `addrs`, the stack pointer and the bytes used. -/
def pushStrings (slot : Int) :
    List (List Byte) → List Nat → Nat → Nat → State → Option (List Nat × Nat × Nat) × State
  | [], addrs, sp, used, k => (some (addrs, sp, used), k)
  | str :: strs, addrs, sp, used, k =>
    let len := str.length + 1
    if used + len > ELF_MAX_ARGV_BYTES then (none, k)
    else
      match taskWriteUserMem k slot (sp - len) (str ++ [0]) with
      | (false, k) => (none, k)
      | (true, k) => pushStrings slot strs ((sp - len) :: addrs) (sp - len) (used + len) k

/-- Words written from `addr` on. -/
def writeWords (slot : Int) : List Nat → Nat → State → Bool × State
  | [], _, k => (true, k)
  | w :: ws, addr, k =>
    match taskWriteUserMem k slot addr ((List.range 4).map (Buf.leByte w)) with
    | (false, k) => (false, k)
    | (true, k) => writeWords slot ws (addr + 4) k

/-- A table of words pushed below `sp`, if the budget allows it. -/
def pushWordTable (slot : Int) (ws : List Nat) (sp used : Nat) (k : State) :
    Option (Nat × Nat) × State :=
  let used := used + 4 * ws.length
  if used > ELF_MAX_ARGV_BYTES then (none, k)
  else
    match writeWords slot ws (sp - 4 * ws.length) k with
    | (false, k) => (none, k)
    | (true, k) => (some (sp - 4 * ws.length, used), k)

/-- `push_argv`: the stack pointer, `none` for `-1`. `env` holds the entries that
`env_entry` returns. -/
def pushArgv (slot : Int) (env argv : List (List Byte)) (k : State) : Option Nat × State :=
  if argv.length > ELF_MAX_ARGV then (none, k)
  else
    let env := env.take ELF_MAX_ENV
    match pushStrings slot env.reverse [] USER_STACK_TOP 0 k with
    | (none, k) => (none, k)
    | (some (envAddrs, sp, used), k) =>
      match pushStrings slot argv.reverse [] sp used k with
      | (none, k) => (none, k)
      | (some (argvAddrs, sp, used), k) =>
        match pushWordTable slot (envAddrs ++ [0]) (sp / 4 * 4) used k with
        | (none, k) => (none, k)
        | (some (sp, used), k) =>
          match pushWordTable slot (argvAddrs ++ [0]) sp used k with
          | (none, k) => (none, k)
          | (some (sp, used), k) =>
            match pushWordTable slot [argv.length] sp used k with
            | (none, k) => (none, k)
            | (some (sp, _), k) => (some sp, k)

/-! ### elf_exec_argv -/

/-- The checks `elf_exec_argv` makes before it creates a task: the file header, or the
error. A size that is negative as a `long` is a read error. -/
def checkHeader (file : List Byte) : ElfResult × Ehdr :=
  let bs := pread file 0 52
  let eh := Ehdr.ofBytes bs
  if bs.length ≠ 52 then (.errRead, eh)
  else if eh.ident 0 ≠ 0x7F ∨ eh.ident 1 ≠ 0x45 ∨ eh.ident 2 ≠ 0x4C ∨ eh.ident 3 ≠ 0x46 then
    (.errMagic, eh)
  else if eh.ident 4 ≠ 1 ∨ eh.ident 5 ≠ 1 ∨ eh.machine ≠ 3 then (.errClass, eh)
  else if eh.type ≠ 2 ∨ eh.phnum = 0 ∨ eh.phentsize < 32 then (.errType, eh)
  else if file.length ≥ 2 ^ 31 then (.errRead, eh)
  else (.ok, eh)

/-- Giving up: the frames of the loader and the task. -/
def giveUp (slot : Int) (frames : List Nat) (k : State) : State :=
  taskAbortUser (freeFrames k frames) slot

section

variable (I : Image) (env : List (List Byte)) (k : State) (file : Option (List Byte))

/-- `elf_exec_argv`. A task is created only for a header that passes the checks. -/
def elfExecArgv (argv : List (List Byte)) (priority : Nat) : ElfResult × State :=
  match file with
  | none => (.errOpen, k)
  | some file =>
    match checkHeader file with
    | (.ok, eh) =>
      match taskCreateUser I k priority with
      | (none, k) => (.errMem, k)
      | (some slot, k) =>
        match loadHeaders file eh slot eh.phnum 0 [] k with
        | (.ok, frames, k) =>
          match taskTrackFrames k slot frames with
          | (false, k) => (.errMem, giveUp slot frames k)
          | (true, k) =>
            match pushArgv slot env argv k with
            | (none, k) => (.errMem, taskAbortUser k slot)
            | (some sp, k) => (.ok, taskStartUser I k slot eh.entry sp)
        | (e, frames, k) => (e, giveUp slot frames k)
    | (e, _) => (e, k)

/-- `elf_exec`: the path is the only argument. -/
def elfExec (path : List Byte) (priority : Nat) : ElfResult × State :=
  elfExecArgv I env k file [path] priority

end

end Crusadia.Kernel
