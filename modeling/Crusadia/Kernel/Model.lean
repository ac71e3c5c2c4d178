import Crusadia.Kernel.Boot

/-!
# Crusadia.Kernel.Model

The **page tables and tasks** of the kernel: `paging.c` and `task.c` as they compute.

The kernel reaches page tables, directories and user frames through their physical
addresses (the kernel directory maps every page to itself), so the state is physical
memory, the frame bitmap and the task table; a directory or table is an address, read
with `Mem.entry`. Every C function is a function on that state. Console output, the
control registers and the translation cache are left out; so are the fields of `task_t`
that no function here reads.
-/

namespace Crusadia.Kernel

/-! ### State -/

/-- `task_state_t` -/
inductive TaskState
  | ready
  | running
  | sleeping
  | dead
  deriving Repr, DecidableEq

/-- `heap_arena_t`: the addresses of the first and the last block header. -/
structure Arena where
  head : Nat
  tail : Nat
  deriving Repr, DecidableEq

/-- `task_t` -/
structure Task where
  esp : Nat
  pid : Nat
  state : TaskState
  /-- The address of the page directory; `0` for none. -/
  pageDirectory : Nat
  priority : Nat
  kernelStackTop : Nat
  isUser : Bool
  /-- `owned_frames[0 .. owned_frame_count)` -/
  ownedFrames : List Nat
  heap : Arena
  heapVirtNext : Nat

/-- Physical memory with the bitmap that accounts for its frames. -/
structure Phys where
  mem : Mem
  pmm : Pmm

/-- The state of the kernel. -/
structure State extends Phys where
  tasks : Nat → Task
  numTasks : Nat
  currentTask : Nat
  nextPid : Nat
  /-- `ticks_left_on_current` -/
  ticksLeft : Nat

/-- `MAX_TASKS` -/
abbrev MAX_TASKS : Nat := 32
/-- `TASK_MAX_OWNED_FRAMES` -/
abbrev TASK_MAX_OWNED_FRAMES : Nat := 256
/-- `USER_STACK_TOP` -/
abbrev USER_STACK_TOP : Nat := 0x90000000
/-- `USER_STACK_SIZE` and `TASK_STACK_SIZE` -/
abbrev USER_STACK_SIZE : Nat := 16384
/-- `TASK_KSTACK_SIZE` -/
abbrev TASK_KSTACK_SIZE : Nat := 8192
/-- `TASK_GUARD_SIZE` -/
abbrev TASK_GUARD_SIZE : Nat := 4096
/-- `USER_HEAP_BASE` -/
abbrev USER_HEAP_BASE : Nat := 0x40000000
/-- `USER_HEAP_MAX` -/
abbrev USER_HEAP_MAX : Nat := 0x80000000

/-- `page_directory`, the directory of the kernel. -/
abbrev pageDirectory : Nat := 0x10000

/-! ### paging.c -/

/-- `e & ~0xFFF` -/
def pageOf (e : Nat) : Nat := e / 4096 * 4096

/-- `virt >> 22` -/
def pdIndex (virt : Nat) : Nat := virt / 4194304

/-- `(virt >> 12) & 0x03FF` -/
def ptIndex (virt : Nat) : Nat := virt / 4096 % 1024

/-- `e & 0x01` -/
def present (e : Nat) : Bool := e.testBit 0

/-- `protect_table_frame`: map a frame that holds a table to itself in the directory of
the kernel. -/
def protectTableFrame (s : Phys) (phys : Nat) : Phys :=
  let pd := pdIndex phys
  let setPte (s : Phys) : Phys :=
    let table := pageOf (s.mem.entry pageDirectory pd)
    { s with mem := s.mem.setEntry table (ptIndex phys) (pageOf phys ||| 0x03) }
  if present (s.mem.entry pageDirectory pd) then setPte s
  else
    let (t, pmm) := s.pmm.allocBlock
    if t = 0 then { s with pmm }
    else
      setPte
        { mem := (s.mem.fill t 4096 0).setEntry pageDirectory pd (t ||| 0x07)
          pmm := pmm }

/-- `map_page_dir`. Without a frame for a missing table it does nothing. -/
def mapPageDir (s : Phys) (dir phys virt flags : Nat) : Phys :=
  let pd := pdIndex virt
  let setPte (s : Phys) : Phys :=
    let table := pageOf (s.mem.entry dir pd)
    { s with mem := s.mem.setEntry table (ptIndex virt) (pageOf phys ||| flags) }
  if present (s.mem.entry dir pd) then setPte s
  else
    let (newTable, pmm) := s.pmm.allocBlock
    if newTable = 0 then { s with pmm }
    else
      let s := protectTableFrame { mem := s.mem.fill newTable 4096 0, pmm := pmm } newTable
      setPte { s with mem := s.mem.setEntry dir pd (newTable ||| (flags &&& 0x07) ||| 0x01) }

/-- `map_page` -/
def mapPage (s : Phys) (phys virt flags : Nat) : Phys := mapPageDir s pageDirectory phys virt flags

/-- `unmap_page_dir`: give the directory a copy of the table without the page. The old
table is not freed; without a frame for the copy nothing happens. -/
def unmapPageDir (s : Phys) (dir virt : Nat) : Phys :=
  let pd := pdIndex virt
  if present (s.mem.entry dir pd) then
    let oldTable := pageOf (s.mem.entry dir pd)
    let (newTable, pmm) := s.pmm.allocBlock
    if newTable = 0 then { s with pmm }
    else
      let s := protectTableFrame { s with pmm } newTable
      let mem := (s.mem.copy newTable oldTable 4096).setEntry newTable (ptIndex virt) 0
      { s with mem := mem.setEntry dir pd (newTable ||| mem.entry dir pd % 4096) }
  else s

/-- `clone_kernel_page_directory`: the new directory, `0` when no frame is free. -/
def cloneKernelPageDirectory (s : Phys) : Nat × Phys :=
  let (newDir, pmm) := s.pmm.allocBlock
  if newDir = 0 then (0, { s with pmm })
  else
    let s := protectTableFrame { s with pmm } newDir
    (newDir, { s with mem := s.mem.copy newDir pageDirectory 4096 })

/-- `for (i = 0; i < size; i += 4096) map_page(base + i, base + i, flags)` -/
def mapRange (s : Phys) (base size flags : Nat) : Phys :=
  (List.range ((size + 4095) / 4096)).foldl
    (fun s i => mapPage s (wrap (base + i * 4096)) (wrap (base + i * 4096)) flags) s

/-- What `init_paging` learns from the processor: whether it has a page attribute table,
and whether the write-combining fills were more than twice as fast. -/
structure FbProbe where
  pat : Bool
  wcWins : Bool

/-- `pick_fb_flags`. Each trial maps the probed range and fills it with `0xAA`. -/
def pickFbFlags (probe : FbProbe) (s : Phys) (fbAddr fbSize : Nat) : Nat × Phys :=
  let testSize := if fbSize < 2 ^ 20 then fbSize else 2 ^ 20
  if !probe.pat then (0x03, s)
  else if testSize < 4096 then (0x03, s)
  else
    let trial (flags : Nat) (s : Phys) : Phys :=
      let s := mapRange s fbAddr testSize flags
      { s with mem := s.mem.fill fbAddr testSize 0xAA }
    let s := (trial 0x0B)^[5] s
    let s := (trial 0x03)^[5] s
    (if probe.wcWins then 0x0B else 0x03, s)

/-- `init_paging` -/
def initPaging (probe : FbProbe) (s : Phys) (fbAddr fbWidth fbHeight fbBpp : Nat) : Phys :=
  let s := { s with mem := s.mem.fill pageDirectory 4096 0 }
  let s := (List.range 1048576).foldl (fun s i => mapPage s (i * 4096) (i * 4096) 0x03) s
  let fbSize := wrap (fbWidth * fbHeight * (fbBpp / 8))
  let (fbFlags, s) := pickFbFlags probe s fbAddr fbSize
  let s := mapRange s fbAddr fbSize fbFlags
  let s := mapPage s 0 0 0x02
  mapPage s 0x10000 0x10000 0x03

/-! ### task.c -/

/-- An update of `tasks[s]`. -/
def State.setTask (k : State) (s : Nat) (f : Task → Task) : State :=
  { k with tasks := Function.update k.tasks s (f (k.tasks s)) }

section

variable (k : State) (s : Nat) (f : Task → Task)

theorem State.tasks_setTask (t : Nat) :
    (k.setTask s f).tasks t = if t = s then f (k.tasks s) else k.tasks t :=
  Function.update_apply _ _ _ _

@[simp] theorem State.numTasks_setTask : (k.setTask s f).numTasks = k.numTasks := rfl

@[simp] theorem State.toPhys_setTask : (k.setTask s f).toPhys = k.toPhys := rfl

theorem State.state_setTask (t : Nat) : ((k.setTask s f).tasks t).state =
      if t = s then (f (k.tasks s)).state else (k.tasks t).state := by
  rw [State.tasks_setTask]
  split <;> rfl

end

variable (k : State)

/-- `find_dead_slot` -/
def findDeadSlot : Option Nat :=
  (List.range k.numTasks).find? fun i => (k.tasks i).state = .dead

/-- `free_task_address_space`: the tables the directory does not share with the kernel,
the directory, and the frames the task owns. -/
def freeTaskAddressSpace (s : Nat) : State :=
  let dir := (k.tasks s).pageDirectory
  if dir = 0 ∨ dir = pageDirectory then k
  else
    let pmm := (List.range 1024).foldl (fun pmm i =>
      let entry := k.mem.entry dir i
      let globalEntry := k.mem.entry pageDirectory i
      if !present entry then pmm
      else if present globalEntry && pageOf entry == pageOf globalEntry then pmm
      else pmm.freeBlock (pageOf entry)) k.pmm
    let pmm := pmm.freeBlock (pageOf dir)
    let pmm := (k.tasks s).ownedFrames.foldl Pmm.freeBlock pmm
    { k with pmm }.setTask s fun t => { t with ownedFrames := [], pageDirectory := 0 }

/-- `task_track_frames`; `false` is `-1`. -/
def taskTrackFrames (slot : Int) (frames : List Nat) : Bool × State :=
  if slot < 0 ∨ slot ≥ k.numTasks then (false, k)
  else
    let s := slot.toNat
    if (k.tasks s).ownedFrames.length + frames.length > TASK_MAX_OWNED_FRAMES then (false, k)
    else (true, k.setTask s fun t => { t with ownedFrames := t.ownedFrames ++ frames })

/-- Removing the first occurrence of a frame: the last one takes its place. -/
def untrack (frames : List Nat) (frame : Nat) : Option (List Nat) :=
  match frames.findIdx? (· = frame) with
  | none => none
  | some i => some ((frames.set i (frames.getD (frames.length - 1) 0)).dropLast)

/-- `task_untrack_frame` -/
def taskUntrackFrame (slot : Int) (frame : Nat) : Bool × State :=
  if slot < 0 ∨ slot ≥ k.numTasks then (false, k)
  else
    let s := slot.toNat
    match untrack (k.tasks s).ownedFrames frame with
    | none => (false, k)
    | some frames => (true, k.setTask s fun t => { t with ownedFrames := frames })

/-- `task_map_user_page`; `false` is `-1`. -/
def taskMapUserPage (slot : Int) (phys virt flags : Nat) : Bool × State :=
  if slot < 0 ∨ slot ≥ k.numTasks then (false, k)
  else
    let dir := (k.tasks slot.toNat).pageDirectory
    if dir = 0 then (false, k)
    else
      (true, { k with toPhys := mapPageDir (unmapPageDir k.toPhys dir virt) dir phys virt flags })

/-- `task_translate_user_ptr` -/
def taskTranslateUserPtr (slot : Int) (virt : Nat) : Nat :=
  if slot < 0 ∨ slot ≥ k.numTasks then 0
  else
    let dir := (k.tasks slot.toNat).pageDirectory
    if dir = 0 then 0
    else
      let pde := k.mem.entry dir (pdIndex virt)
      if !present pde then 0
      else
        let pte := k.mem.entry (pageOf pde) (ptIndex virt)
        if !present pte then 0
        else pageOf pte ||| virt % 4096

/-- The loop of `task_write_user_mem`, one page at a time. -/
def writePages (k : State) (slot : Int) (uva : Nat) (data : List Byte) : Bool × State :=
  match data with
  | [] => (true, k)
  | b :: bs =>
    let phys := taskTranslateUserPtr k slot uva
    if phys = 0 then (false, k)
    else
      let chunk := min (4096 - uva % 4096) (bs.length + 1)
      writePages { k with mem := k.mem.store phys chunk fun i => (b :: bs).getD i 0 } slot
        (wrap (uva + chunk)) ((b :: bs).drop chunk)
  termination_by data.length
  decreasing_by
    have := Nat.mod_lt uva (show 4096 > 0 by decide)
    simp only [List.length_drop, List.length_cons]
    omega

/-- `task_write_user_mem`; `false` is `-1`. Bytes written before a failure stay written. -/
def taskWriteUserMem (slot : Int) (uva : Nat) (data : List Byte) : Bool × State :=
  if slot < 0 ∨ slot ≥ k.numTasks then (false, k) else writePages k slot uva data

/-- The current break of a task. -/
def heapBreak (t : Task) : Nat :=
  if t.heapVirtNext < USER_HEAP_BASE then USER_HEAP_BASE else t.heapVirtNext

/-- `task_get_heap_break` -/
def taskGetHeapBreak (slot : Int) : Nat :=
  if slot < 0 ∨ slot ≥ k.numTasks then 0 else heapBreak (k.tasks slot.toNat)

/-- The loop that both roll-backs and the shrinking branch of `task_set_heap_break` run:
`n` pages from `va` on are unmapped, untracked and freed. -/
def releasePages (slot : Int) : Nat → Nat → State → State
  | 0, _, k => k
  | n + 1, va, k =>
    let p := taskTranslateUserPtr k slot va
    let k := { k with toPhys := unmapPageDir k.toPhys (k.tasks slot.toNat).pageDirectory va }
    let k :=
      if p ≠ 0 then
        let k := (taskUntrackFrame k slot p).2
        { k with pmm := k.pmm.freeBlock p }
      else k
    releasePages slot n (va + PMM_BLOCK_SIZE) k

/-- The growing branch of `task_set_heap_break`: `n` more pages, of which the next one
is at `va`. `false` when it has rolled back to `start`. -/
def growPages (slot : Int) (start : Nat) : Nat → Nat → State → Bool × State
  | 0, _, k => (true, k)
  | n + 1, va, k =>
    let rollback (k : State) : State :=
      releasePages slot ((va - start) / PMM_BLOCK_SIZE) start k
    let (frame, pmm) := k.pmm.allocBlock
    let k := { k with pmm }
    if frame = 0 then (false, rollback k)
    else
      let (tracked, k) := taskTrackFrames k slot [frame]
      if !tracked then (false, rollback { k with pmm := k.pmm.freeBlock frame })
      else growPages slot start n (va + PMM_BLOCK_SIZE) (taskMapUserPage k slot frame va 0x07).2

/-- `(x + (PMM_BLOCK_SIZE - 1)) & ~(PMM_BLOCK_SIZE - 1)` -/
def pageUp (x : Nat) : Nat := pageOf (wrap (x + 4095))

/-- `task_set_heap_break` -/
def taskSetHeapBreak (slot : Int) (newBreak : Nat) : Nat × State :=
  if slot < 0 ∨ slot ≥ k.numTasks then (0, k)
  else
    let s := slot.toNat
    let cur := heapBreak (k.tasks s)
    if newBreak = 0 ∨ newBreak < USER_HEAP_BASE ∨ newBreak > USER_HEAP_MAX then (cur, k)
    else
      let curAligned := pageUp cur
      let newAligned := pageUp newBreak
      let done (k : State) : Nat × State :=
        (newBreak, k.setTask s fun t => { t with heapVirtNext := newBreak })
      if newAligned > curAligned then
        match growPages slot curAligned
          ((newAligned - curAligned) / PMM_BLOCK_SIZE) curAligned k with
        | (true, k) => done k
        | (false, k) => (cur, k)
      else if newAligned < curAligned then
        done (releasePages slot ((curAligned - newAligned) / PMM_BLOCK_SIZE) newAligned k)
      else done k

/-- `task_exit`, up to the loop that waits for the scheduler. -/
def taskExit : State :=
  (freeTaskAddressSpace k k.currentTask).setTask k.currentTask fun t => { t with state := .dead }

/-- What `fault_handler` does to a task whose user code raised an exception. -/
def killTask : State := k.setTask k.currentTask fun t => { t with state := .dead }

/-- `init_multitasking` -/
def initMultitasking : State :=
  { k.setTask 0 fun t => { t with pid := 0, state := .running, pageDirectory := pageDirectory } with
    numTasks := 1, currentTask := 0, nextPid := 1 }

/-- Words pushed on a stack, the first one at the highest address: the memory and the
stack pointer after them. -/
def pushWords (m : Mem) (sp : Nat) : List Nat → Mem × Nat
  | [] => (m, sp)
  | w :: ws => pushWords (m.put32 (sp - 4) w) (sp - 4) ws

/-- The slot a creation uses, and the task count it leaves. -/
def claimSlot : Option (Nat × State) :=
  match findDeadSlot k with
  | some s => some (s, k)
  | none =>
    if k.numTasks ≥ MAX_TASKS then none else some
      (k.numTasks, { k with numTasks := k.numTasks + 1 })

/-- The top of the kernel stack of slot `s`, which its guard page precedes. -/
def kstackTop (I : Image) (s : Nat) : Nat :=
  I.taskKstacks + s * (TASK_GUARD_SIZE + TASK_KSTACK_SIZE) + (TASK_GUARD_SIZE + TASK_KSTACK_SIZE)

/-- The fields `create_task` fills in. -/
def Task.initKernel (I : Image) (s esp pid priority : Nat) (t : Task) : Task :=
  { t with
    ownedFrames := [], heap := ⟨0, 0⟩, esp, pid, state := .ready, priority, isUser := false
    kernelStackTop := kstackTop I s }

/-- The fields `task_create_user` fills in. -/
def Task.initUser (I : Image) (s priority : Nat) (t : Task) : Task :=
  { t with
    ownedFrames := [], state := .dead, priority, isUser := true, heap := ⟨0, 0⟩
    heapVirtNext := USER_HEAP_BASE, kernelStackTop := kstackTop I s }

/-- `create_task`; `none` is `-1`. -/
def createTask (I : Image) (k : State) (entry priority : Nat) : Option Nat × State :=
  match claimSlot k with
  | none => (none, k)
  | some (s, k) =>
    let stackTop := I.taskStacks + s * (TASK_GUARD_SIZE + USER_STACK_SIZE)
      + (TASK_GUARD_SIZE + USER_STACK_SIZE)
    let (mem, esp) := pushWords k.mem stackTop
      ([0x0202, 0x10, entry, 0, 32] ++ List.replicate 8 0 ++ List.replicate 4 0x18)
    let k := { k with mem, nextPid := wrap (k.nextPid + 1) }.setTask s
      (Task.initKernel I s esp k.nextPid priority)
    let (dir, phys) := cloneKernelPageDirectory k.toPhys
    let k := { k with toPhys := phys }
    if dir = 0 then (none, k.setTask s fun t => { t with state := .dead })
    else
      let phys := unmapPageDir k.toPhys dir (I.taskStacks + s * (TASK_GUARD_SIZE + USER_STACK_SIZE))
      let phys := unmapPageDir phys dir (I.taskKstacks + s * (TASK_GUARD_SIZE + TASK_KSTACK_SIZE))
      (some s, { k with toPhys := phys }.setTask s fun t => { t with pageDirectory := dir })

/-- `task_abort_user` -/
def taskAbortUser (slot : Int) : State :=
  if slot < 0 ∨ slot ≥ k.numTasks then k
  else
    (freeTaskAddressSpace k slot.toNat).setTask slot.toNat fun t => { t with state := .dead }

/-- The loop of `task_create_user` that maps the user stack, `n` pages from `va` on. -/
def mapUserStack (s : Nat) : Nat → Nat → State → Option Nat × State
  | 0, _, k => (some s, k)
  | n + 1, va, k =>
    let (frame, pmm) := k.pmm.allocBlock
    let k := { k with pmm }
    if frame = 0 then (none, taskAbortUser k s)
    else
      let (tracked, k) := taskTrackFrames k s [frame]
      if !tracked then (none, taskAbortUser { k with pmm := k.pmm.freeBlock frame } s)
      else mapUserStack s n (va + PMM_BLOCK_SIZE) (taskMapUserPage k s frame va 0x07).2

/-- `task_create_user`; `none` is `-1`. The task stays in state `TASK_DEAD`. -/
def taskCreateUser (I : Image) (k : State) (priority : Nat) : Option Nat × State :=
  match claimSlot k with
  | none => (none, k)
  | some (s, k) =>
    let k := k.setTask s (Task.initUser I s priority)
    let (dir, phys) := cloneKernelPageDirectory k.toPhys
    let k := { k with toPhys := phys }
    if dir = 0 then (none, k)
    else
      let k := k.setTask s fun t => { t with pageDirectory := dir }
      mapUserStack s (USER_STACK_SIZE / PMM_BLOCK_SIZE) (USER_STACK_TOP - USER_STACK_SIZE) k

/-- `GDT_USER_DATA_SEL` -/
abbrev GDT_USER_DATA_SEL : Nat := 0x2B
/-- `GDT_USER_CODE_SEL` -/
abbrev GDT_USER_CODE_SEL : Nat := 0x23

/-- `task_start_user` -/
def taskStartUser (I : Image) (k : State) (slot : Int) (entry userEsp : Nat) : State :=
  if slot < 0 ∨ slot ≥ k.numTasks then k
  else
    let s := slot.toNat
    let userStackTop := if userEsp ≠ 0 then userEsp else USER_STACK_TOP
    let (mem, esp) := pushWords k.mem (k.tasks s).kernelStackTop
      ([GDT_USER_DATA_SEL, userStackTop, 0x0202, GDT_USER_CODE_SEL, entry, 0, 128]
        ++ List.replicate 8 0 ++ List.replicate 4 GDT_USER_DATA_SEL)
    let k := { k with mem, nextPid := wrap (k.nextPid + 1) }.setTask s fun t =>
      { t with esp, pid := k.nextPid, state := .ready }
    { k with
      toPhys := unmapPageDir k.toPhys (k.tasks s).pageDirectory
        (I.taskKstacks + s * (TASK_GUARD_SIZE + TASK_KSTACK_SIZE)) }

/-- `create_user_task` -/
def createUserTask (I : Image) (k : State) (entry priority : Nat) : Option Nat × State :=
  match taskCreateUser I k priority with
  | (none, k) => (none, k)
  | (some s, k) => (some s, taskStartUser I k s entry 0)

/-- The round of `schedule_handler` that looks for the next runnable task, at most `n`
steps from `cur` on. -/
def nextRunnable (k : State) : Nat → Nat → Option Nat
  | 0, _ => none
  | n + 1, cur =>
    let cur := if cur + 1 ≥ k.numTasks then 0 else cur + 1
    if (k.tasks cur).state = .ready ∨ (k.tasks cur).state = .running then some cur
    else nextRunnable k n cur

/-- `schedule_handler`: the stack pointer to return to, and the state. -/
def scheduleHandler (esp : Nat) : Nat × State :=
  if k.numTasks ≤ 1 then (esp, k)
  else
    let k := k.setTask k.currentTask fun t => { t with esp }
    if k.ticksLeft > 0 then
      ((k.tasks k.currentTask).esp, { k with ticksLeft := k.ticksLeft - 1 })
    else
      let k : State :=
        match nextRunnable k k.numTasks k.currentTask with
        | some cur => { k with currentTask := cur }
        | none =>
          if (k.tasks 0).state ≠ .dead then
            { k.setTask 0 fun t => { t with state := .running } with currentTask := 0 }
          else if k.currentTask < k.numTasks then k
          else { k with currentTask := 0 }
      ((k.tasks k.currentTask).esp,
        { k with ticksLeft := (k.tasks k.currentTask).priority - 1 })

end Crusadia.Kernel
