import Crusadia.Lib.Blocks
import Crusadia.Kernel.Model

/-!
# Crusadia.Kernel.Heap

The **heap arenas** of the kernel: `heap.c` as it computes.

An arena is a doubly linked list of blocks, each a header with its bytes behind it. The
headers lie in physical memory among the bytes they describe, so every field is read from
and written to memory where the source does. `grow_heap` takes frames from the bitmap and
tells the task table about them when a task owns the arena. Switching interrupts off and
the debug output are left out.
-/

namespace Crusadia.Kernel

/-- `HEAP_MAGIC` -/
abbrev HEAP_MAGIC : Nat := 0x5A4C534A
/-- `ALIGN` -/
abbrev ALIGN : Nat := 8
/-- `SIZE_MAX_LOCAL` -/
abbrev SIZE_MAX_LOCAL : Nat := 2 ^ 32 - 1

/-- `ALIGN_UP` -/
def alignUp (x : Nat) : Nat := wrap (x + (ALIGN - 1)) / ALIGN * ALIGN

/-- `HEADER_SIZE`: the 20 bytes of `block_header_t`, aligned. -/
abbrev HEADER_SIZE : Nat := 24

/-! ### The fields of a header -/

namespace Hdr

variable (m : Mem)

def magic (b : Nat) : Nat := m.get32 b
def size (b : Nat) : Nat := m.get32 (b + 4)
def free (b : Nat) : Bool := m (b + 8) != 0
def next (b : Nat) : Nat := m.get32 (b + 12)
def prev (b : Nat) : Nat := m.get32 (b + 16)

def setMagic (b v : Nat) : Mem := m.put32 b v
def setSize (b v : Nat) : Mem := m.put32 (b + 4) v
def setFree (b : Nat) (v : Bool) : Mem := m.put8 (b + 8) (if v then 1 else 0)
def setNext (b v : Nat) : Mem := m.put32 (b + 12) v
def setPrev (b v : Nat) : Mem := m.put32 (b + 16) v

end Hdr

open Hdr

/-! ### Growing, splitting and merging -/

/-- `if (owner_slot >= 0) task_track_frames(owner_slot, &f, 1)`; its result is not looked at. -/
def trackFor (owner : Int) (frame : Nat) (k : State) : State :=
  if owner ≥ 0 then (taskTrackFrames k owner [frame]).2 else k

/-- The loop of `grow_heap`: up to `n` more frames, as long as each is the one at
`region_end`. A frame from elsewhere is given back. -/
def growRegion (owner : Int) : Nat → Nat → State → Nat × State
  | 0, regionEnd, k => (regionEnd, k)
  | n + 1, regionEnd, k =>
    let (nextPage, pmm) := k.pmm.allocBlock
    let k := { k with pmm }
    if nextPage = 0 then (regionEnd, k)
    else if nextPage = regionEnd then
      growRegion owner n (wrap (regionEnd + PMM_BLOCK_SIZE)) (trackFor owner nextPage k)
    else (regionEnd, { k with pmm := k.pmm.freeBlock nextPage })

variable (arena : Arena)

/-- `grow_heap`: the header of the new block, `0` for none. -/
def growHeap (minSize : Nat) (owner : Int) (k : State) : Nat × Arena × State :=
  if minSize > SIZE_MAX_LOCAL - HEADER_SIZE then (0, arena, k)
  else
    let needed := HEADER_SIZE + minSize
    if needed > SIZE_MAX_LOCAL - (PMM_BLOCK_SIZE - 1) then (0, arena, k)
    else
      let pagesNeeded := (needed + PMM_BLOCK_SIZE - 1) / PMM_BLOCK_SIZE
      let (first, pmm) := k.pmm.allocBlock
      let k := { k with pmm }
      if first = 0 then (0, arena, k)
      else
        let (regionEnd, k) := growRegion owner (pagesNeeded - 1) (wrap (first + PMM_BLOCK_SIZE))
          (trackFor owner first k)
        let m := setMagic k.mem first HEAP_MAGIC
        let m := setSize m first (wrap (regionEnd + 2 ^ 32 - first) - HEADER_SIZE)
        let m := setFree m first true
        let m := setNext m first 0
        let m := setPrev m first arena.tail
        if arena.tail ≠ 0 then
          (first, { arena with tail := first }, { k with mem := setNext m arena.tail first })
        else (first, ⟨first, first⟩, { k with mem := m })

/-- `split_block` -/
def splitBlock (m : Mem) (block size : Nat) : Arena × Mem :=
  if size > Hdr.size m block then (arena, m)
  else if Hdr.size m block - size < HEADER_SIZE + ALIGN then (arena, m)
  else
    let newBlock := wrap (block + HEADER_SIZE + size)
    let m := setMagic m newBlock HEAP_MAGIC
    let m := setSize m newBlock (Hdr.size m block - size - HEADER_SIZE)
    let m := setFree m newBlock true
    let m := setNext m newBlock (next m block)
    let m := setPrev m newBlock block
    let (arena, m) :=
      if next m block ≠ 0 then (arena, setPrev m (next m block) newBlock)
      else ({ arena with tail := newBlock }, m)
    let m := setNext m block newBlock
    (arena, setSize m block size)

/-- The first half of `coalesce`: the block takes the one behind it. -/
def mergeNext (m : Mem) (block : Nat) : Arena × Mem :=
  if next m block ≠ 0 ∧ Hdr.free m (next m block) ∧
      wrap (block + HEADER_SIZE + Hdr.size m block) = next m block then
    let dead := next m block
    let m := setSize m block (Hdr.size m block + (HEADER_SIZE + Hdr.size m dead))
    let m := setNext m block (next m dead)
    if next m dead ≠ 0 then (arena, setPrev m (next m dead) block)
    else ({ arena with tail := block }, m)
  else (arena, m)

/-- The second half: the block before it takes the block. -/
def mergePrev (m : Mem) (block : Nat) : Arena × Mem :=
  if prev m block ≠ 0 ∧ Hdr.free m (prev m block) ∧
      wrap (prev m block + HEADER_SIZE + Hdr.size m (prev m block)) = block then
    let before := prev m block
    let m := setSize m before (Hdr.size m before + (HEADER_SIZE + Hdr.size m block))
    let m := setNext m before (next m block)
    if next m block ≠ 0 then (arena, setPrev m (next m block) before)
    else ({ arena with tail := before }, m)
  else (arena, m)

/-- `coalesce` -/
def coalesce (m : Mem) (block : Nat) : Arena × Mem :=
  let (arena, m) := mergeNext arena m block
  mergePrev arena m block

/-! ### The interface -/

/-- `heap_arena_init` -/
def heapArenaInit : Arena := ⟨0, 0⟩

/-- How the search of `heap_arena_alloc` ends. -/
inductive Fit
  /-- it gave up after a million blocks -/
  | stuck
  /-- no block is large enough -/
  | absent
  | block (b : Nat)

/-- The search of `heap_arena_alloc` from `cur` on, with `n` more blocks to look at. -/
def findFit (m : Mem) (size : Nat) : Nat → Nat → Fit
  | 0, cur => if cur = 0 then .absent else .stuck
  | n + 1, cur =>
    if cur = 0 then .absent
    else if Hdr.free m cur ∧ Hdr.size m cur ≥ size then .block cur
    else findFit m size n (next m cur)

/-- `split_block(arena, b, size); b->free = 0; return b + HEADER_SIZE` -/
def takeBlock (k : State) (b size : Nat) : Nat × Arena × State :=
  let (arena, m) := splitBlock arena k.mem b size
  (b + HEADER_SIZE, arena, { k with mem := setFree m b false })

/-- `heap_arena_alloc`; `0` is `NULL`. -/
def heapArenaAlloc (k : State) (size : Nat) (owner : Int) : Nat × Arena × State :=
  if size = 0 then (0, arena, k)
  else if size > SIZE_MAX_LOCAL - (ALIGN - 1) then (0, arena, k)
  else
    let size := alignUp size
    match findFit k.mem size 1000000 arena.head with
    | .stuck => (0, arena, k)
    | .block cur => takeBlock arena k cur size
    | .absent =>
      let (fresh, arena, k) := growHeap arena size owner k
      if fresh = 0 then (0, arena, k)
      else if Hdr.size k.mem fresh < size then (0, arena, k)
      else takeBlock arena k fresh size

/-- `(block_header_t*)((uint8_t*)ptr - HEADER_SIZE)` -/
def headerOf (ptr : Nat) : Nat :=
  if ptr < HEADER_SIZE then 2 ^ 32 - (HEADER_SIZE - ptr) else ptr - HEADER_SIZE

/-- `heap_arena_free` -/
def heapArenaFree (k : State) (ptr : Nat) : Arena × State :=
  if ptr = 0 then (arena, k)
  else if ptr % ALIGN ≠ 0 then (arena, k)
  else
    let block := headerOf ptr
    if magic k.mem block ≠ HEAP_MAGIC then (arena, k)
    else if Hdr.free k.mem block then (arena, k)
    else
      let (arena, m) := coalesce arena (setFree k.mem block true) block
      (arena, { k with mem := m })

/-- `heap_arena_calloc` -/
def heapArenaCalloc (k : State) (nmemb size : Nat) (owner : Int) :
    Nat × Arena × State :=
  if nmemb = 0 ∨ size = 0 then (0, arena, k)
  else if nmemb > SIZE_MAX_LOCAL / size then (0, arena, k)
  else
    let total := nmemb * size
    let (ptr, arena, k) := heapArenaAlloc arena k total owner
    if ptr ≠ 0 then (ptr, arena, { k with mem := k.mem.fill ptr total 0 }) else (ptr, arena, k)

/-- `heap_arena_realloc` -/
def heapArenaRealloc (k : State) (ptr size : Nat) (owner : Int) :
    Nat × Arena × State :=
  if ptr = 0 then heapArenaAlloc arena k size owner
  else if size = 0 then (0, heapArenaFree arena k ptr)
  else if ptr % ALIGN ≠ 0 then (0, arena, k)
  else
    let block := headerOf ptr
    if magic k.mem block ≠ HEAP_MAGIC then (0, arena, k)
    else if Hdr.free k.mem block then (0, arena, k)
    else if size > SIZE_MAX_LOCAL - (ALIGN - 1) then (0, arena, k)
    else if Hdr.size k.mem block ≥ alignUp size then
      let (arena, m) := splitBlock arena k.mem block (alignUp size)
      (ptr, arena, { k with mem := m })
    else
      let oldSize := Hdr.size k.mem block
      let (newPtr, arena, k) := heapArenaAlloc arena k size owner
      if newPtr = 0 then (0, arena, k)
      else (newPtr, heapArenaFree arena { k with mem := k.mem.copy newPtr ptr oldSize } ptr)

end Crusadia.Kernel
