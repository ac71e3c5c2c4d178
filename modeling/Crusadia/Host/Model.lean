import Crusadia.Cos.Model

/-!
# Crusadia.Host.Model

The **host tool for COS images** (`driveutil.c`) as functions on an explicit state.

`cosutil` opens an image file and works on it with its own copy of the driver. It is the driver of
`fs.c` in most places, and the on-disk records are the same, so they are taken from there. What
differs is where the bitmaps are: the tool loads both of them into arrays of fixed size and writes
the whole of a bitmap back after every change. Reads past the end of the image file give zeros, as
those of a `Disk` do.
-/

namespace Crusadia

/-- The globals of `driveutil.c` and the image file. -/
structure Host where
  image : Disk
  gSb : Superblock
  gBlockBitmap : Buf 32768
  gInodeBitmap : Buf 32768
  gBlockBitmapBytes : Nat
  gBlockBitmapSectors : Nat
  gInodeBitmapSectors : Nat

namespace Host

variable (h : Host)

/-- `BLOCK_BITMAP_MAX_SIZE`. -/
def blockBitmapMaxSize : Nat := 32768

/-- `block_read`. -/
def blockRead (lba : Nat) : Sector := h.image.read lba

/-- `block_write`. -/
def blockWrite (lba : Nat) (buf : Sector) : Host :=
  { h with image := h.image.write lba buf }

/-- `zero_block`. -/
def zeroBlock (lba : Nat) : Host := h.blockWrite lba Buf.zero

/-! ### Bitmaps -/

/-- `get_block_bit`. -/
def getBlockBit (idx : Nat) : Bool :=
  if idx ≥ h.gSb.totalBlocks then true else h.gBlockBitmap.bit idx

/-- `set_block_bit`. -/
def setBlockBit (idx : Nat) : Host :=
  if idx ≥ h.gSb.totalBlocks then h else { h with gBlockBitmap := h.gBlockBitmap.setBit idx }

/-- `clear_block_bit`. -/
def clearBlockBit (idx : Nat) : Host :=
  if idx ≥ h.gSb.totalBlocks then h else { h with gBlockBitmap := h.gBlockBitmap.clearBit idx }

/-- The byte of `g_block_bitmap` that the three above look at, if any. -/
def blockBitByte (idx : Nat) : Option Nat :=
  if idx ≥ h.gSb.totalBlocks then none else some (idx / 8)

/-- The loop of `load_block_bitmap` from sector `i` on, with `count` sectors to go: the bitmap and
the number of bytes that were stored in it. -/
def loadBlockBitmapFrom (h : Host) : (count i left dst : Nat) → Buf 32768 → Buf 32768 × Nat
  | 0, _, _, dst, bm => (bm, dst)
  | count + 1, i, left, dst, bm =>
    let tmp := h.blockRead (h.gSb.bitmapStart + i)
    let n := if left > sectorSize then sectorSize else left
    loadBlockBitmapFrom h count (i + 1) (if left > sectorSize then left - sectorSize else 0)
      (dst + n) (bm.splice dst n tmp.get)

/-- `load_block_bitmap`. -/
def loadBlockBitmap : Host :=
  { h with gBlockBitmap :=
      (h.loadBlockBitmapFrom h.gBlockBitmapSectors 0 h.gBlockBitmapBytes 0 h.gBlockBitmap).1 }

/-- The loop of `save_block_bitmap` from sector `i` on, with `count` sectors to go. -/
def saveBlockBitmapFrom : (count i left src : Nat) → Host → Host
  | 0, _, _, _, h => h
  | count + 1, i, left, src, h =>
    let n := if left > sectorSize then sectorSize else left
    let tmp : Sector := Buf.zero.splice 0 n fun j => h.gBlockBitmap.get (src + j)
    saveBlockBitmapFrom count (i + 1) (if left > sectorSize then left - sectorSize else 0)
      (src + n) (h.blockWrite (h.gSb.bitmapStart + i) tmp)

/-- `save_block_bitmap`. -/
def saveBlockBitmap : Host :=
  saveBlockBitmapFrom h.gBlockBitmapSectors 0 h.gBlockBitmapBytes 0 h

/-- `load_inode_bitmap`. -/
def loadInodeBitmap : Host :=
  let start := h.gSb.bitmapStart + h.gBlockBitmapSectors
  (List.range h.gInodeBitmapSectors).foldl
    (fun h i => { h with
      gInodeBitmap := h.gInodeBitmap.splice (i * sectorSize) 512 (h.blockRead (start + i)).get }) h

/-- `save_inode_bitmap`. -/
def saveInodeBitmap : Host :=
  let start := h.gSb.bitmapStart + h.gBlockBitmapSectors
  (List.range h.gInodeBitmapSectors).foldl
    (fun h i => h.blockWrite (start + i) (h.gInodeBitmap.slice (i * sectorSize) 512)) h

/-- `alloc_block`; 0 is the failure value. -/
def allocBlock : Nat × Host :=
  let startIdx := if h.gSb.magic = fsMagic ∧ h.gSb.dataStart > 1 then h.gSb.dataStart else 1
  match (List.range' startIdx (h.gSb.totalBlocks - startIdx)).find? fun i => !h.getBlockBit i with
  | some i => (i, (h.setBlockBit i).saveBlockBitmap)
  | none => (0, h)

/-- `free_block`. -/
def freeBlock (idx : Nat) : Host := (h.clearBlockBit idx).saveBlockBitmap

/-- `alloc_inode`. -/
def allocInode : Option Nat × Host :=
  match (List.range' 0 h.gSb.inodeCount).find? fun i => !h.gInodeBitmap.bit i with
  | some i => (some i, { h with gInodeBitmap := h.gInodeBitmap.setBit i }.saveInodeBitmap)
  | none => (none, h)

/-- `free_inode`. -/
def freeInode (idx : Nat) : Host :=
  if idx ≥ h.gSb.inodeCount then h else
  { h with gInodeBitmap := h.gInodeBitmap.clearBit idx }.saveInodeBitmap

/-! ### Inodes and directories -/

/-- `read_inode`. -/
def readInode (idx : Nat) : Inode :=
  let block := h.gSb.inodeStart + idx / inodesPerBlock
  let off := idx % inodesPerBlock * inodeSize
  ⟨(h.blockRead block).slice off 128⟩

/-- `write_inode`. -/
def writeInode (idx : Nat) (node : Inode) : Host :=
  let block := h.gSb.inodeStart + idx / inodesPerBlock
  let off := idx % inodesPerBlock * inodeSize
  h.blockWrite block ((h.blockRead block).splice off 128 node.raw.get)

/-- The sector buffer that `dir_add` searches for block `b` of a directory. -/
def dirAddBlock (dirInodeId : Nat) (dir : Inode) (b : Nat) :
    Option Sector × Inode × Host :=
  if dir.ptr b = 0 then
    let (nb, h) := h.allocBlock
    if nb = 0 then (none, dir, h) else
    let dir := dir.setPtr b nb
    (some Buf.zero, dir, h.writeInode dirInodeId dir)
  else (some (h.blockRead (dir.ptr b)), dir, h)

/-- The loop over `direct[b..11]` in `dir_add`. -/
def dirAddFrom (dirInodeId : Nat) (name : CStr) (inodeIdx : Nat) :
    Nat → Nat → Inode → Host → Int × Host
  | 0, _, _, h => (-1, h)
  | count + 1, b, dir, h =>
    match h.dirAddBlock dirInodeId dir b with
    | (none, _, h) => (-1, h)
    | (some buf, dir, h) =>
      match (List.range 16).find? fun i => entInode buf i == 0 with
      | some i => (0, h.blockWrite (dir.ptr b) (putEnt buf i inodeIdx name))
      | none => dirAddFrom dirInodeId name inodeIdx count (b + 1) dir h

/-- `dir_add`. -/
def dirAdd (dirInodeId : Nat) (dir : Inode) (name : CStr) (inodeIdx : Nat) :
    Int × Host :=
  dirAddFrom dirInodeId name inodeIdx 12 0 dir h

/-- The loop over `direct[b..11]` in `dir_lookup`. -/
def dirLookupFrom (h : Host) (dir : Inode) (name : CStr) : Nat → Nat → Option Nat
  | 0, _ => none
  | count + 1, b =>
    let lba := dir.ptr b
    if lba = 0 then none else
    let buf := h.blockRead lba
    match (List.range 16).find? fun i =>
        entInode buf i != 0 && decide (entInode buf i < h.gSb.inodeCount) &&
        strEq (entName buf i) name with
    | some i => some (entInode buf i)
    | none => dirLookupFrom h dir name count (b + 1)

/-- `dir_lookup`. -/
def dirLookup (dir : Inode) (name : CStr) : Option Nat :=
  if dir.type ≠ 2 then none else dirLookupFrom h dir name 12 0

/-- The loop over `direct[b..11]` in `dir_remove`. -/
def dirRemoveFrom (h : Host) (dir : Inode) (name : CStr) : Nat → Nat → Int × Host
  | 0, _ => (-1, h)
  | count + 1, b =>
    if dir.ptr b = 0 then dirRemoveFrom h dir name count (b + 1) else
    let buf := h.blockRead (dir.ptr b)
    match (List.range 16).find? fun i => entInode buf i != 0 && strEq (entName buf i) name with
    | some i => (0, h.blockWrite (dir.ptr b) (clearEnt buf i))
    | none => dirRemoveFrom h dir name count (b + 1)

/-- `dir_remove`. -/
def dirRemove (dir : Inode) (name : CStr) : Int × Host :=
  if dir.type ≠ 2 then (-1, h) else dirRemoveFrom h dir name 12 0

/-- One round of `resolve_path`: all parts of a path but the last are directories. -/
def resolveStep (cur : Nat) (tok : CStr) (last : Bool) : Option Nat :=
  match h.dirLookup (h.readInode cur) tok with
  | none => none
  | some found => if last = false ∧ (h.readInode found).type ≠ 2 then none else some found

/-- The loop of `resolve_path` over the parts of a path: the inode that it ends at. -/
def resolveFrom (h : Host) : List CStr → Nat → Option Nat
  | [], cur => some cur
  | tok :: rest, cur => (h.resolveStep cur tok rest.isEmpty).bind (resolveFrom h rest)

/-- `resolve_path`, of a path that is already split at its slashes. -/
def resolvePath (path : List CStr) : Option Nat := h.resolveFrom path 0

/-! ### The block map of an inode -/

/-- Root pointer `r` of `node`, allocated when it is missing; `direct[r]` is not zeroed, the three
indirect blocks (`inner`) are. -/
def rootBlock (inodeIdx : Nat) (node : Inode) (r : Nat) (inner doAlloc : Bool) :
    Nat × Inode × Host :=
  if node.ptr r = 0 ∧ doAlloc = true then
    let (nb, h) := h.allocBlock
    let node := node.setPtr r nb
    let h := if inner then h.zeroBlock nb else h
    (nb, node, h.writeInode inodeIdx node)
  else (node.ptr r, node, h)

/-- The descent through pointer blocks; a new block is zeroed unless it is a leaf. -/
def descend (doAlloc : Bool) : List Nat → Nat → Host → Nat × Host
  | [], b, h => (b, h)
  | k :: ks, b, h =>
    if b = 0 then (0, h) else
    let ptrs := h.blockRead b
    if ptrs.get32 (4 * k) = 0 ∧ doAlloc = true then
      let (nb, h) := h.allocBlock
      let h := if ks = [] then h else h.zeroBlock nb
      descend doAlloc ks nb (h.blockWrite b (ptrs.put32 (4 * k) nb))
    else descend doAlloc ks (ptrs.get32 (4 * k)) h

/-- `get_physical_block`. The limits of the four ranges are those of the driver. -/
def getPhysicalBlock (inodeIdx : Nat) (node : Inode) (logicalIdx : Nat)
    (doAlloc : Bool) : Nat × Inode × Host :=
  match Cos.blockPath logicalIdx with
  | none => (0, node, h)
  | some (r, path) =>
    let (b, node, h) := h.rootBlock inodeIdx node r (!path.isEmpty) doAlloc
    let (b, h) := descend doAlloc path b h
    (b, node, h)

/-- `free_indirect_tree`. -/
def freeIndirectTree : Nat → Nat → Host → Host
  | 0, lba, h => if lba = 0 then h else h.freeBlock lba
  | depth + 1, lba, h =>
    if lba = 0 then h else
    let ptrs := h.blockRead lba
    ((List.range ptrsPerBlock).foldl
      (fun h i => if ptrs.get32 (4 * i) ≠ 0
        then freeIndirectTree depth (ptrs.get32 (4 * i)) h else h) h).freeBlock lba

/-! ### File data -/

/-- The loop of `fs_read`: the bytes it still stores in the buffer. -/
def fsReadLoop (h : Host) (inodeIdx : Nat) (node : Inode) (offset size bytesRead : Nat) :
    List Byte :=
  if bytesRead < size then
    let goff := (offset + bytesRead) % 2 ^ 32
    let boff := goff % sectorSize
    let phys := (h.getPhysicalBlock inodeIdx node (goff / sectorSize) false).1
    let sbuf : Sector := if phys = 0 then Buf.zero else h.blockRead phys
    let chunk := min (sectorSize - boff) (size - bytesRead)
    (List.range chunk).map (fun j => sbuf.get (boff + j)) ++
      fsReadLoop h inodeIdx node offset size (bytesRead + chunk)
  else []
termination_by size - bytesRead
decreasing_by
  have : (offset + bytesRead) % 2 ^ 32 % sectorSize < sectorSize := Nat.mod_lt _ (by decide)
  omega

/-- `fs_read`: the bytes stored in the buffer; their number is the return value. -/
def fsRead (inodeIdx : Nat) (node : Inode) (offset size : Nat) : List Byte :=
  if offset > node.size then [] else
  let size := if (offset + size) % 2 ^ 32 > node.size then node.size - offset else size
  fsReadLoop h inodeIdx node offset size 0

/-- What the loop of `fs_write` ends with. -/
structure WriteRun where
  ok : Bool
  written : Nat
  node : Inode
  state : Host

/-- The loop of `fs_write`; `written` is a `size_t` of 64 bits. -/
def fsWriteLoop (inodeIdx offset : Nat) (data : List Byte) (written : Nat) (node : Inode)
    (buf : Sector) (h : Host) : WriteRun :=
  if written < data.length then
    let goff := (offset + written) % 2 ^ 32
    let boff := goff % sectorSize
    let g := h.getPhysicalBlock inodeIdx node (goff / sectorSize) true
    if g.1 = 0 then ⟨false, written, g.2.1, g.2.2⟩ else
    let buf := if boff > 0 ∨ data.length - written < sectorSize
      then g.2.2.blockRead g.1 else buf
    let chunk := min (sectorSize - boff) (data.length - written)
    let buf := buf.splice boff chunk fun j => data.getD (written + j) 0
    fsWriteLoop inodeIdx offset data (written + chunk) g.2.1 buf (g.2.2.blockWrite g.1 buf)
  else ⟨true, written, node, h⟩
termination_by data.length - written
decreasing_by
  have : (offset + written) % 2 ^ 32 % sectorSize < sectorSize := Nat.mod_lt _ (by decide)
  omega

/-- `fs_write`; `offset + written` has 64 bits here. -/
def fsWrite (inodeIdx offset : Nat) (data : List Byte) : Int × Host :=
  let w := fsWriteLoop inodeIdx offset data 0 (h.readInode inodeIdx) Buf.zero h
  if !w.ok then (-1, w.state) else
  if offset + w.written > w.node.size then
    (Cos.asInt w.written,
      w.state.writeInode inodeIdx (w.node.setSize ((offset + w.written) % 2 ^ 32)))
  else (Cos.asInt w.written, w.state)

/-! ### Commands

A command is given the parts of its path. The result says whether it went through; `die` leaves the
image as it is at that point. -/

/-- The inode that `cmd_put` writes: `strncpy`, then the last byte of `main_tag` is cleared. -/
def putNode (tag : CStr) : Inode :=
  Inode.setTag0 ⟨((Inode.blank 1).setMainTag tag).raw.put8 76 0⟩ Cos.normalTag

/-- The directory that `cmd_put` and `cmd_mkdir` make an entry in. -/
def target (dirpart : List CStr) (base : CStr) : Option Nat :=
  if base.length = 0 ∨ base.length > 27 then none else
  match h.resolvePath dirpart with
  | none => none
  | some p =>
    if (h.readInode p).type ≠ 2 then none else
    if (h.dirLookup (h.readInode p) base).isSome then none else some p

/-- The end of `cmd_put`: the data is written, then the entry is made. -/
def putData (p idx : Nat) (base : CStr) (data : List Byte) : Bool × Host :=
  let w := if data.length > 0 then h.fsWrite idx 0 data else (0, h)
  if w.1 < 0 then (false, w.2) else
  let r := w.2.dirAdd p (w.2.readInode p) base idx
  (r.1 == 0, r.2)

/-- The tag that `cmd_put` uses. -/
def useTag : Option CStr → CStr
  | some tag => if tag.length > 0 then tag else Cos.normalTag
  | none => Cos.normalTag

/-- `cmd_put`, of a local file with contents `data`. -/
def cmdPut (dirpart : List CStr) (base : CStr) (tag : Option CStr) (data : List Byte) :
    Bool × Host :=
  match h.target dirpart base with
  | none => (false, h)
  | some p =>
    match h.allocInode with
    | (none, h) => (false, h)
    | (some idx, h) =>
      let (b, h) := h.allocBlock
      if b = 0 then (false, h.freeInode idx) else
      (h.writeInode idx ((putNode (useTag tag)).setPtr 0 b)).putData p idx base data

/-- `cmd_mkdir`. -/
def cmdMkdir (dirpart : List CStr) (base : CStr) : Bool × Host :=
  match h.target dirpart base with
  | none => (false, h)
  | some p =>
    let parentDir := h.readInode p
    match h.allocInode with
    | (none, h) => (false, h)
    | (some idx, h) =>
      let (b, h) := h.allocBlock
      if b = 0 then (false, h.freeInode idx) else
      let h := (h.writeInode idx ((Inode.blank 2).setPtr 0 b)).zeroBlock b
      let (rc, h) := h.dirAdd p parentDir base idx
      (rc == 0, h)

/-- The part of `cmd_rm` that frees a file's blocks. -/
def freeInodeData (node : Inode) : Host :=
  let h := (List.range inodeDirect).foldl
    (fun h i => if node.ptr i ≠ 0 then h.freeBlock (node.ptr i) else h) h
  let h := if node.ptr 12 ≠ 0 then freeIndirectTree 1 (node.ptr 12) h else h
  let h := if node.ptr 13 ≠ 0 then freeIndirectTree 2 (node.ptr 13) h else h
  if node.ptr 14 ≠ 0 then freeIndirectTree 3 (node.ptr 14) h else h

/-- `cmd_rm`. -/
def cmdRm (dirpart : List CStr) (base : CStr) : Bool × Host :=
  match h.resolvePath dirpart with
  | none => (false, h)
  | some p =>
    let parentDir := h.readInode p
    match h.dirLookup parentDir base with
    | none => (false, h)
    | some idx =>
      let node := h.readInode idx
      if node.type = 2 then (false, h) else
      (true, (((h.freeInodeData node).freeInode idx).dirRemove parentDir base).2)

/-! ### Opening and making an image -/

/-- The zeroed globals and an image file. -/
def start (image : Disk) : Host :=
  ⟨image, Superblock.decode Buf.zero, Buf.zero, Buf.zero, 0, 0, 0⟩

/-- `g_block_bitmap_bytes`; the number of blocks has 64 bits. -/
def bitmapBytes (totalBlocks : Nat) : Nat := (totalBlocks + 7) / 8 % 2 ^ 32

/-- `g_block_bitmap_sectors`. -/
def bitmapSectors (bytes : Nat) : Nat := (bytes + sectorSize - 1) % 2 ^ 32 / sectorSize

/-- `g_inode_bitmap_sectors`. -/
def inodeSectors (inodeCount : Nat) : Nat :=
  ((inodeCount + 7) % 2 ^ 32 / 8 + sectorSize - 1) / sectorSize

/-- `g_inode_table_blocks`. -/
def tableBlocks (inodeCount : Nat) : Nat :=
  (inodeCount * inodeSize + sectorSize - 1) % 2 ^ 32 / sectorSize

/-- What `mount_image` takes from the superblock. -/
def geometry (sb : Superblock) : Host :=
  { h with
    gSb := sb
    gBlockBitmapBytes := bitmapBytes sb.totalBlocks
    gBlockBitmapSectors := bitmapSectors (bitmapBytes sb.totalBlocks)
    gInodeBitmapSectors := inodeSectors sb.inodeCount }

/-- `mount_image`; `none` is the exit on a bad magic number. -/
def mountImage (image : Disk) : Option Host :=
  let sb := Superblock.decode (image.read 0)
  if sb.magic ≠ fsMagic then none else
  some ((start image).geometry sb).loadBlockBitmap.loadInodeBitmap

/-- The superblock that `cmd_mkfs` computes. -/
def mkfsSuperblock (totalSectors inodeCountHint : Nat) : Superblock :=
  let totalBlocks := if totalSectors > blockBitmapMaxSize * 8 then blockBitmapMaxSize * 8
    else totalSectors
  let totalBlocks := if totalBlocks / 4 > inodeBitmapSize * 8 then inodeBitmapSize * 8 * 4
    else totalBlocks
  let inodeCount := if inodeCountHint ≠ 0 then inodeCountHint else totalBlocks / 4
  let inodeCount := (inodeCount + 7) % 2 ^ 32 / 8 * 8
  let inodeCount := if inodeCount = 0 then 8 else inodeCount
  let inodeStart := 1 + bitmapSectors (bitmapBytes totalBlocks) + inodeSectors inodeCount
  { magic := fsMagic, blockSize := sectorSize, totalBlocks, inodeCount, bitmapStart := 1,
    inodeStart, dataStart := inodeStart + tableBlocks inodeCount }

/-- One of the default directories of `cmd_mkfs`; `none` is the exit when nothing is free. -/
def mkfsDir (name : CStr) : Option Host :=
  match h.allocInode with
  | (none, _) => none
  | (some idx, h) =>
    let (b, h) := h.allocBlock
    if b = 0 then none else
    let h := (h.writeInode idx ((Inode.blank 2).setPtr 0 b)).zeroBlock b
    some (h.dirAdd 0 (h.readInode 0) name idx).2

/-- The root directory of `cmd_mkfs`. -/
def mkfsRoot : Option Host :=
  let h := { h with gInodeBitmap :=
    h.gInodeBitmap.put8 0 (h.gInodeBitmap.get 0 ||| 1) }.saveInodeBitmap
  let (rb, h) := h.allocBlock
  if rb = 0 then none else
  some ((h.writeInode 0 ((Inode.blank 2).setPtr 0 rb)).zeroBlock rb)

/-- What `cmd_mkfs` does up to the root directory. -/
def mkfsEmpty (image : Disk) (sb : Superblock) : Host :=
  let h := ((start image).geometry sb).blockWrite 0 sb.encode
  let h := (List.range sb.dataStart).foldl setBlockBit h
  h.saveBlockBitmap.saveInodeBitmap

/-- `cmd_mkfs` on a fresh file. -/
def cmdMkfs (image : Disk) (totalSectors inodeCountHint : Nat) : Option Host := do
  let h ← (mkfsEmpty image (mkfsSuperblock totalSectors inodeCountHint)).mkfsRoot
  Cos.defaultDirs.foldlM mkfsDir h

end Host

end Crusadia
