import Crusadia.Lib.Disk

/-!
# Crusadia.Cos.Model

The **COS filesystem driver** (`fs.c`) as functions on an explicit state.

`Cos` holds the driver's globals and the selected drive. The drive is an error-free
array of sectors (`Disk`), so `block_read` and `block_write` are `Disk.read` and
`Disk.write`; everything else is translated statement by statement under the
source's names. Functions that return a C status and change the state return a pair;
functions whose `-1` means *nothing there* return an `Option`.

On-disk records stay raw bytes: an inode is its 128-byte slot, a directory entry is
32 bytes of its sector, a pointer block is 128 little-endian words. A block that
changes its role (data, pointers, directory) therefore needs no conversion.
-/

namespace Crusadia

/-! ### Constants of `fs.h` and `fs.c` -/

/-- `FS_MAGIC`. -/
def fsMagic : Nat := 0x5A4C534A
/-- `SECTOR_SIZE`. -/
def sectorSize : Nat := 512
/-- `INODE_SIZE`. -/
def inodeSize : Nat := 128
/-- `INODES_PER_BLOCK`. -/
def inodesPerBlock : Nat := 4
/-- `INODE_DIRECT`. -/
def inodeDirect : Nat := 12
/-- `PTRS_PER_BLOCK`. -/
def ptrsPerBlock : Nat := 128
/-- `INODE_BITMAP_SIZE`. -/
def inodeBitmapSize : Nat := 32768

/-! ### On-disk records -/

/-- `superblock_t`. -/
structure Superblock where
  magic : Nat
  blockSize : Nat
  totalBlocks : Nat
  inodeCount : Nat
  bitmapStart : Nat
  inodeStart : Nat
  dataStart : Nat
  deriving DecidableEq

/-- The superblock sector: the packed record at offset 0 of a zeroed buffer.
`total_blocks` is the only 64-bit field. -/
def Superblock.encode (sb : Superblock) : Sector :=
  (((((((Buf.zero.put32 0 sb.magic).put32 4 sb.blockSize).put32 8 sb.totalBlocks).put32 12
    (sb.totalBlocks / 2 ^ 32)).put32 16 sb.inodeCount).put32 20 sb.bitmapStart).put32 24
    sb.inodeStart).put32 28 sb.dataStart

/-- `memcpy(&g_superblock, sb_buf, sizeof(superblock_t))`. -/
def Superblock.decode (sec : Sector) : Superblock where
  magic := sec.get32 0
  blockSize := sec.get32 4
  totalBlocks := sec.get32 8 + 2 ^ 32 * sec.get32 12
  inodeCount := sec.get32 16
  bitmapStart := sec.get32 20
  inodeStart := sec.get32 24
  dataStart := sec.get32 28

/-- `inode_t`, as its 128 bytes: `size` at 0, the fifteen block pointers at 4
(`direct[0..11]`, then `single_indirect`, `double_indirect`, `triple_indirect`),
`type` at 64, `main_tag` at 65, `tags` at 77, padding from 113. -/
structure Inode where
  raw : Buf 128
  deriving DecidableEq

namespace Inode

variable (n : Inode)

/-- `node->size`. -/
def size : Nat := n.raw.get32 0

/-- Block pointer `r`: `direct[r]` for `r < 12`, then the three indirect blocks. -/
def ptr (r : Nat) : Nat := n.raw.get32 (4 + 4 * r)

/-- `node->type`: 1 is a file, 2 a directory. -/
def type : Byte := n.raw.get 64

/-- `node->size = v`. -/
def setSize (v : Nat) : Inode := ⟨n.raw.put32 0 v⟩

/-- Store block pointer `r`. -/
def setPtr (r v : Nat) : Inode := ⟨n.raw.put32 (4 + 4 * r) v⟩

/-- `memset(&node, 0, sizeof(node)); node.type = t`. -/
def blank (t : Byte) : Inode := ⟨(Buf.zero : Buf 128).put8 64 t⟩

/-- `strncpy(node.main_tag, tag, TAG_LEN)`. -/
def setMainTag (tag : CStr) : Inode := ⟨n.raw.splice 65 12 tag.at'⟩

/-- `strncpy(node.tags[0], tag, TAG_LEN)`. -/
def setTag0 (tag : CStr) : Inode := ⟨n.raw.splice 77 12 tag.at'⟩

end Inode

/-- `entries[i].inode` in a directory sector. -/
def entInode (buf : Sector) (i : Nat) : Nat := buf.get32 (32 * i)

/-- The bytes at `entries[i].name`. -/
def entName (buf : Sector) (i j : Nat) : Byte := buf.get (32 * i + 4 + j)

/-- Fill `entries[i]`: the inode number, `strncpy(name, 27)` and the terminator. -/
def putEnt (buf : Sector) (i inodeIdx : Nat) (name : CStr) : Sector :=
  (buf.put32 (32 * i) inodeIdx).splice (32 * i + 4) 28
    fun j => if j < 27 then name.at' j else 0

/-- Clear `entries[i]`: the inode number and the whole name field. -/
def clearEnt (buf : Sector) (i : Nat) : Sector := buf.splice (32 * i) 32 fun _ => 0

/-! ### The driver's state -/

/-- The globals of `fs.c` and the selected drive (`driveSectors` is its
`total_sectors`). -/
structure Cos where
  disk : Disk
  driveSectors : Nat
  inodeBitmap : Buf 32768
  gSuperblock : Superblock
  blockBitmapSectors : Nat
  inodeBitmapSectors : Nat
  gCurrentDir : Nat

namespace Cos

variable (s : Cos)

/-- `block_read`. -/
def blockRead (lba : Nat) : Sector := s.disk.read lba

/-- `block_write`. -/
def blockWrite (lba : Nat) (buf : Sector) : Cos :=
  { s with disk := s.disk.write lba buf }

/-! ### Bitmaps -/

/-- `set_block_bitmap_bit`. -/
def setBlockBitmapBit (idx : Nat) : Cos :=
  if idx ≥ s.gSuperblock.totalBlocks then s else
  let byteOff := idx / 8
  let sector := byteOff / sectorSize
  let inSector := byteOff % sectorSize
  let sec := s.blockRead (s.gSuperblock.bitmapStart + sector)
  s.blockWrite (s.gSuperblock.bitmapStart + sector) (sec.setBit (8 * inSector + idx % 8))

/-- `clear_block_bitmap_bit`, which is also `free_block`. -/
def clearBlockBitmapBit (idx : Nat) : Cos :=
  if idx ≥ s.gSuperblock.totalBlocks then s else
  let byteOff := idx / 8
  let sector := byteOff / sectorSize
  let inSector := byteOff % sectorSize
  let sec := s.blockRead (s.gSuperblock.bitmapStart + sector)
  s.blockWrite (s.gSuperblock.bitmapStart + sector) (sec.clearBit (8 * inSector + idx % 8))

/-- `free_block`. -/
def freeBlock (idx : Nat) : Cos := s.clearBlockBitmapBit idx

/-- `flush_inode_bitmap_sector`. -/
def flushInodeBitmapSector (idx : Nat) : Cos :=
  let sector := idx / 8 / sectorSize
  if sector ≥ s.inodeBitmapSectors then s else
  s.blockWrite (s.gSuperblock.bitmapStart + s.blockBitmapSectors + sector)
    (s.inodeBitmap.slice (sector * sectorSize) 512)

/-- One bit of the scan in `alloc_block`: past the last block the scan returns 0
(`some none`), a clear bit is taken (`some (some bit)`), a set bit is skipped. -/
def allocBit (sec : Sector) (baseIdx totalBlocks bit : Nat) : Option (Option Nat) :=
  if baseIdx + bit ≥ totalBlocks then some none
  else if sec.bit bit then none
  else some (some bit)

/-- The scan of one bitmap sector in `alloc_block`. -/
def allocSector (startIdx startSector sector : Nat) : Option (Option (Nat × Nat)) :=
  let sec := s.blockRead (s.gSuperblock.bitmapStart + sector)
  let baseIdx := sector * sectorSize * 8
  let bitStart := if sector = startSector ∧ startIdx > baseIdx then startIdx - baseIdx else 0
  ((List.range' bitStart (sectorSize * 8 - bitStart)).findSome?
    (allocBit sec baseIdx s.gSuperblock.totalBlocks)).map fun hit => hit.map fun bit =>
    (sector, bit)

/-- `alloc_block`; 0 is the failure value. -/
def allocBlock : Nat × Cos :=
  let startIdx := if s.gSuperblock.magic = fsMagic ∧ s.gSuperblock.dataStart > 1
    then s.gSuperblock.dataStart else 1
  let startSector := startIdx / 8 / sectorSize
  match (List.range' startSector (s.blockBitmapSectors - startSector)).findSome?
      (s.allocSector startIdx startSector) with
  | some (some (sector, bit)) =>
    let sec := s.blockRead (s.gSuperblock.bitmapStart + sector)
    (sector * sectorSize * 8 + bit,
      s.blockWrite (s.gSuperblock.bitmapStart + sector) (sec.setBit bit))
  | _ => (0, s)

/-- `load_inode_bitmap`. With more than 262144 inodes the source writes behind the array; those
bytes are dropped here. -/
def loadInodeBitmap : Cos :=
  let start := s.gSuperblock.bitmapStart + s.blockBitmapSectors
  (List.range s.inodeBitmapSectors).foldl
    (fun s i => { s with
      inodeBitmap := s.inodeBitmap.splice (i * sectorSize) 512 (s.blockRead (start + i)).get }) s

/-- `save_inode_bitmap`. -/
def saveInodeBitmap : Cos :=
  let start := s.gSuperblock.bitmapStart + s.blockBitmapSectors
  (List.range s.inodeBitmapSectors).foldl
    (fun s i => s.blockWrite (start + i) (s.inodeBitmap.slice (i * sectorSize) 512)) s

/-- `alloc_inode`. -/
def allocInode : Option Nat × Cos :=
  match (List.range' 0 s.gSuperblock.inodeCount).find? fun i => !s.inodeBitmap.bit i with
  | some i => (some i, { s with inodeBitmap := s.inodeBitmap.setBit i }.flushInodeBitmapSector i)
  | none => (none, s)

/-- `free_inode`. -/
def freeInode (idx : Nat) : Cos :=
  if idx ≥ s.gSuperblock.inodeCount then s else
  { s with inodeBitmap := s.inodeBitmap.clearBit idx }.flushInodeBitmapSector idx

/-! ### Inodes -/

/-- `read_inode`. -/
def readInode (idx : Nat) : Inode :=
  let block := s.gSuperblock.inodeStart + idx / inodesPerBlock
  let offset := idx % inodesPerBlock * inodeSize
  ⟨(s.blockRead block).slice offset 128⟩

/-- `write_inode`. -/
def writeInode (idx : Nat) (node : Inode) : Cos :=
  let block := s.gSuperblock.inodeStart + idx / inodesPerBlock
  let offset := idx % inodesPerBlock * inodeSize
  s.blockWrite block ((s.blockRead block).splice offset 128 node.raw.get)

/-- `create_root`. -/
def createRoot : Cos :=
  let s := { s with
    inodeBitmap := s.inodeBitmap.put8 0 (s.inodeBitmap.get 0 ||| 1) }.saveInodeBitmap
  let (b, s) := s.allocBlock
  if b = 0 then s else
  let s := s.writeInode 0 ((Inode.blank 2).setPtr 0 b)
  s.blockWrite b Buf.zero

/-! ### Directories -/

/-- The loop over `direct[b..11]` in `dir_lookup`. -/
def dirLookupFrom (s : Cos) (dir : Inode) (name : CStr) : Nat → Nat → Option Nat
  | 0, _ => none
  | count + 1, b =>
    let lba := dir.ptr b
    if lba = 0 then none else
    let buf := s.blockRead lba
    match (List.range 16).find? fun i =>
        entInode buf i != 0 && decide (entInode buf i < s.gSuperblock.inodeCount) &&
        strEq (entName buf i) name with
    | some i => some (entInode buf i)
    | none => dirLookupFrom s dir name count (b + 1)

/-- `dir_lookup`. -/
def dirLookup (dir : Inode) (name : CStr) : Option Nat :=
  if dir.type ≠ 2 then none else dirLookupFrom s dir name 12 0

/-- The sector buffer `dir_add` searches for block `b` of a directory: the block itself, or
zeroes for one that it has just allocated. -/
def dirAddBlock (dirInodeId : Nat) (dir : Inode) (b : Nat) :
    Option Sector × Inode × Cos :=
  if dir.ptr b = 0 then
    let (newBlock, s) := s.allocBlock
    if newBlock = 0 then (none, dir, s) else
    let dir := dir.setPtr b newBlock
    (some Buf.zero, dir, s.writeInode dirInodeId dir)
  else (some (s.blockRead (dir.ptr b)), dir, s)

/-- The loop over `direct[b..11]` in `dir_add`: the first free entry of the first
block that has one. -/
def dirAddFrom (dirInodeId : Nat) (name : CStr) (inodeIdx : Nat) :
    Nat → Nat → Inode → Cos → Int × Cos
  | 0, _, _, s => (-1, s)
  | count + 1, b, dir, s =>
    match s.dirAddBlock dirInodeId dir b with
    | (none, _, s) => (-1, s)
    | (some buf, dir, s) =>
      match (List.range 16).find? fun i => entInode buf i == 0 with
      | some i => (0, s.blockWrite (dir.ptr b) (putEnt buf i inodeIdx name))
      | none => dirAddFrom dirInodeId name inodeIdx count (b + 1) dir s

/-- `dir_add`. -/
def dirAdd (dirInodeId : Nat) (dir : Inode) (name : CStr) (inodeIdx : Nat) : Int × Cos :=
  dirAddFrom dirInodeId name inodeIdx 12 0 dir s

/-- The loop over `direct[b..11]` in `dir_remove`. -/
def dirRemoveFrom (s : Cos) (dir : Inode) (name : CStr) : Nat → Nat → Int × Cos
  | 0, _ => (-1, s)
  | count + 1, b =>
    if dir.ptr b = 0 then dirRemoveFrom s dir name count (b + 1) else
    let buf := s.blockRead (dir.ptr b)
    match (List.range 16).find? fun i => entInode buf i != 0 && strEq (entName buf i) name with
    | some i => (0, s.blockWrite (dir.ptr b) (clearEnt buf i))
    | none => dirRemoveFrom s dir name count (b + 1)

/-- `dir_remove`. -/
def dirRemove (dir : Inode) (name : CStr) : Int × Cos :=
  if dir.type ≠ 2 then (-1, s) else dirRemoveFrom s dir name 12 0

/-- `fs_dir_is_empty`. -/
def fsDirIsEmpty (inodeIdx : Nat) : Bool :=
  let dir := s.readInode inodeIdx
  if dir.type ≠ 2 then false else
  (List.range inodeDirect).all fun b =>
    if dir.ptr b = 0 then true else
    let buf := s.blockRead (dir.ptr b)
    (List.range 16).all fun i =>
      !(entInode buf i != 0 && decide (entInode buf i < s.gSuperblock.inodeCount))

/-! ### The block map of an inode -/

/-- `zero_block`. -/
def zeroBlock (lba : Nat) : Cos := s.blockWrite lba Buf.zero

/-- Root pointer `r` of `node`, allocated when it is missing. The source spells this
out four times: `direct[r]` is not zeroed, the three indirect blocks (`inner`) are,
and the inode is written after that. -/
def rootBlock (inodeIdx : Nat) (node : Inode) (r : Nat) (inner doAlloc : Bool) :
    Nat × Inode × Cos :=
  if node.ptr r = 0 ∧ doAlloc = true then
    let (nb, s) := s.allocBlock
    let node := node.setPtr r nb
    let s := if inner then s.zeroBlock nb else s
    (nb, node, s.writeInode inodeIdx node)
  else (node.ptr r, node, s)

/-- The descent through pointer blocks. One round is the source's
`block_read; if (ptrs[k] == 0 && do_alloc) { alloc; zero; block_write }`: a new block is
zeroed unless it is a leaf, and the row is written back after that. -/
def descend (doAlloc : Bool) : List Nat → Nat → Cos → Nat × Cos
  | [], b, s => (b, s)
  | k :: ks, b, s =>
    if b = 0 then (0, s) else
    let ptrs := s.blockRead b
    if ptrs.get32 (4 * k) = 0 ∧ doAlloc = true then
      let (nb, s) := s.allocBlock
      let s := if ks = [] then s else s.zeroBlock nb
      descend doAlloc ks nb (s.blockWrite b (ptrs.put32 (4 * k) nb))
    else descend doAlloc ks (ptrs.get32 (4 * k)) s

/-- The root pointer and the slots that lead to a logical block, `none` past the
triple indirect range. -/
def blockPath (logicalIdx : Nat) : Option (Nat × List Nat) :=
  if logicalIdx < inodeDirect then some (logicalIdx, [])
  else
    let l := logicalIdx - inodeDirect
    if l < ptrsPerBlock then some (12, [l])
    else
      let l := l - ptrsPerBlock
      if l < ptrsPerBlock * ptrsPerBlock then some (13, [l / ptrsPerBlock, l % ptrsPerBlock])
      else
        let l := l - ptrsPerBlock * ptrsPerBlock
        if l < ptrsPerBlock * ptrsPerBlock * ptrsPerBlock then
          let rem := l % (ptrsPerBlock * ptrsPerBlock)
          some (14, [l / (ptrsPerBlock * ptrsPerBlock), rem / ptrsPerBlock, rem % ptrsPerBlock])
        else none

/-- `get_physical_block`. -/
def getPhysicalBlock (inodeIdx : Nat) (node : Inode) (logicalIdx : Nat)
    (doAlloc : Bool) : Nat × Inode × Cos :=
  match blockPath logicalIdx with
  | none => (0, node, s)
  | some (r, path) =>
    let (b, node, s) := s.rootBlock inodeIdx node r (!path.isEmpty) doAlloc
    let (b, s) := descend doAlloc path b s
    (b, node, s)

/-! ### File data -/

/-- What the loop of `fs_write` ends with: whether every block was there, the bytes
stored, and the inode and state at that point. -/
structure WriteRun where
  ok : Bool
  written : Nat
  node : Inode
  state : Cos

/-- The loop of `fs_write`. `buf` is the sector buffer, kept from round to round. -/
def fsWriteLoop (inodeIdx offset : Nat) (data : List Byte) (written : Nat) (node : Inode)
    (buf : Sector) (s : Cos) : WriteRun :=
  if written < data.length then
    let cur := (offset + written) % 2 ^ 32
    let offsetInBlock := cur % sectorSize
    let g := s.getPhysicalBlock inodeIdx node (cur / sectorSize) true
    if g.1 = 0 then ⟨false, written, g.2.1, g.2.2⟩ else
    let buf := if offsetInBlock > 0 ∨ data.length - written < sectorSize
      then g.2.2.blockRead g.1 else buf
    let chunk := min (sectorSize - offsetInBlock) (data.length - written)
    let buf := buf.splice offsetInBlock chunk fun j => data.getD (written + j) 0
    fsWriteLoop inodeIdx offset data (written + chunk) g.2.1 buf (g.2.2.blockWrite g.1 buf)
  else ⟨true, written, node, s⟩
termination_by data.length - written
decreasing_by
  have : (offset + written) % 2 ^ 32 % sectorSize < sectorSize := Nat.mod_lt _ (by decide)
  omega

/-- A 32-bit value read as a C `int`. -/
def asInt (n : Nat) : Int := if n % 2 ^ 32 < 2 ^ 31 then n % 2 ^ 32 else n % 2 ^ 32 - 2 ^ 32

/-- `fs_write`. -/
def fsWrite (inodeIdx offset : Nat) (data : List Byte) : Int × Cos :=
  let w := fsWriteLoop inodeIdx offset data 0 (s.readInode inodeIdx) Buf.zero s
  if !w.ok then (-1, w.state) else
  let newEnd := (offset + w.written) % 2 ^ 32
  if newEnd > w.node.size then
    (asInt w.written, w.state.writeInode inodeIdx (w.node.setSize newEnd))
  else (asInt w.written, w.state)

/-- The loop of `fs_read`: the bytes it still stores in the buffer. -/
def fsReadLoop (s : Cos) (inodeIdx : Nat) (node : Inode) (offset size bytesRead : Nat) :
    List Byte :=
  if bytesRead < size then
    let cur := (offset + bytesRead) % 2 ^ 32
    let offsetInBlock := cur % sectorSize
    let phys := (s.getPhysicalBlock inodeIdx node (cur / sectorSize) false).1
    let sec : Sector := if phys = 0 then Buf.zero else s.blockRead phys
    let chunk := min (sectorSize - offsetInBlock) (size - bytesRead)
    (List.range chunk).map (fun j => sec.get (offsetInBlock + j)) ++
      fsReadLoop s inodeIdx node offset size (bytesRead + chunk)
  else []
termination_by size - bytesRead
decreasing_by
  have : (offset + bytesRead) % 2 ^ 32 % sectorSize < sectorSize := Nat.mod_lt _ (by decide)
  omega

/-- `fs_read`: the bytes stored in the buffer; their number is the return value. -/
def fsRead (inodeIdx : Nat) (node : Inode) (offset size : Nat) : List Byte :=
  if offset ≥ node.size then [] else
  let size := if (offset + size) % 2 ^ 32 > node.size then node.size - offset else size
  fsReadLoop s inodeIdx node offset size 0

/-! ### Deletion -/

/-- `free_indirect_tree`. -/
def freeIndirectTree : Nat → Nat → Cos → Cos
  | 0, b, s => if b = 0 then s else s.freeBlock b
  | depth + 1, b, s =>
    if b = 0 then s else
    let ptrs := s.blockRead b
    ((List.range ptrsPerBlock).foldl
      (fun s i => if ptrs.get32 (4 * i) ≠ 0
        then freeIndirectTree depth (ptrs.get32 (4 * i)) s else s) s).freeBlock b

/-- `fs_free_inode_data`. -/
def fsFreeInodeData (node : Inode) : Cos :=
  let s := (List.range inodeDirect).foldl
    (fun s i => if node.ptr i ≠ 0 then s.freeBlock (node.ptr i) else s) s
  let s := if node.ptr 12 ≠ 0 then freeIndirectTree 1 (node.ptr 12) s else s
  let s := if node.ptr 13 ≠ 0 then freeIndirectTree 2 (node.ptr 13) s else s
  if node.ptr 14 ≠ 0 then freeIndirectTree 3 (node.ptr 14) s else s

/-- `fs_delete_in`. -/
def fsDeleteIn (parentInodeIdx : Nat) (name : CStr) : Int × Cos :=
  let parent := s.readInode parentInodeIdx
  if parent.type ≠ 2 then (-1, s) else
  match s.dirLookup parent name with
  | none => (-1, s)
  | some 0 => (-1, s)
  | some (i + 1) =>
    let inodeNum := i + 1
    let node := s.readInode inodeNum
    if node.type = 2 ∧ s.fsDirIsEmpty inodeNum = false then (-1, s) else
    let (rc, s) := s.dirRemove parent name
    if rc < 0 then (-1, s) else
    (0, (s.fsFreeInodeData node).freeInode inodeNum)

/-! ### Creation -/

/-- The string `"normal"`. -/
def normalTag : CStr := ⟨[0x6E, 0x6F, 0x72, 0x6D, 0x61, 0x6C], by decide⟩

/-- `fs_create_file`; `none` is `(uint32_t)-1`. -/
def fsCreateFile (name mainTag : CStr) : Option Nat × Cos :=
  if mainTag.length = 0 then (none, s) else
  if (s.dirLookup (s.readInode s.gCurrentDir) name).isSome then (none, s) else
  match s.allocInode with
  | (none, s) => (none, s)
  | (some idx, s) =>
    let node := ((Inode.blank 1).setMainTag mainTag).setTag0 normalTag
    let (b, s) := s.allocBlock
    if b = 0 then (none, s.freeInode idx) else
    let s := s.writeInode idx (node.setPtr 0 b)
    (some idx, (s.dirAdd s.gCurrentDir (s.readInode s.gCurrentDir) name idx).2)

/-- `fs_create_dir`; `none` is `-1`. -/
def fsCreateDir (name : CStr) (parentInodeIdx : Nat) : Option Nat × Cos :=
  if (s.dirLookup (s.readInode parentInodeIdx) name).isSome then (none, s) else
  match s.allocInode with
  | (none, s) => (none, s)
  | (some idx, s) =>
    let (b, s) := s.allocBlock
    if b = 0 then (none, s.freeInode idx) else
    let s := s.writeInode idx ((Inode.blank 2).setPtr 0 b)
    let s := s.blockWrite b Buf.zero
    (some idx, (s.dirAdd parentInodeIdx (s.readInode parentInodeIdx) name idx).2)

/-! ### Formatting and mounting -/

/-- `"user"`, `"data"`, `"mount"`, `"lock"` and `"cosfiles"`. -/
def defaultDirs : List CStr :=
  [⟨[0x75, 0x73, 0x65, 0x72], by decide⟩, ⟨[0x64, 0x61, 0x74, 0x61], by decide⟩,
   ⟨[0x6D, 0x6F, 0x75, 0x6E, 0x74], by decide⟩, ⟨[0x6C, 0x6F, 0x63, 0x6B], by decide⟩,
   ⟨[0x63, 0x6F, 0x73, 0x66, 0x69, 0x6C, 0x65, 0x73], by decide⟩]

/-- `create_defdirs`. -/
def createDefdirs : Cos :=
  defaultDirs.foldl (fun s name => (s.fsCreateDir name s.gCurrentDir).2) s

/-- `block_bitmap_sectors`, as `qformat_fs` and `init_fs` compute it. -/
def bitmapSectors (totalBlocks : Nat) : Nat := ((totalBlocks + 7) / 8 + sectorSize - 1) / sectorSize

/-- `inode_bitmap_sectors`. -/
def inodeSectors (inodeCount : Nat) : Nat := ((inodeCount + 7) / 8 + sectorSize - 1) / sectorSize

/-- `inode_table_blocks`. -/
def tableBlocks (inodeCount : Nat) : Nat := (inodeCount * inodeSize + sectorSize - 1) / sectorSize

/-- `init_fs` on an existing drive, once the superblock `sb` has been read. -/
def loadFs (sb : Superblock) : Cos :=
  if sb.magic = fsMagic then
    let s := { s with
      gSuperblock := sb
      blockBitmapSectors := bitmapSectors sb.totalBlocks
      inodeBitmapSectors := inodeSectors sb.inodeCount }.loadInodeBitmap
    if (s.readInode 0).type = 2 then s else s.createRoot
  else { s with gSuperblock := sb }

/-- `init_fs` on an existing drive. -/
def initFs : Cos := s.loadFs (Superblock.decode (s.blockRead 0))

/-- The superblock `qformat_fs` computes for a drive of `n` sectors. -/
def formatSuperblock (n : Nat) : Superblock :=
  let totalBlocks := if n > 0xFFFFFFFE then 0xFFFFFFFE else n
  let inodeCount := if totalBlocks / 4 > inodeBitmapSize * 8 then inodeBitmapSize * 8
    else totalBlocks / 4
  let inodeCount := (inodeCount + 7) / 8 * 8
  let inodeCount := if inodeCount = 0 then 8 else inodeCount
  let inodeStart := 1 + bitmapSectors totalBlocks + inodeSectors inodeCount
  { magic := fsMagic, blockSize := sectorSize, totalBlocks, inodeCount, bitmapStart := 1,
    inodeStart, dataStart := inodeStart + tableBlocks inodeCount }

/-- The part of `qformat_fs` that clears the drive's metadata and writes the superblock.
Only the first 64 sectors of the inode table are cleared. -/
def wipeFs (sb : Superblock) : Cos :=
  let bbs := bitmapSectors sb.totalBlocks
  let ibs := inodeSectors sb.inodeCount
  let disk := Disk.fill Buf.zero sb.bitmapStart bbs s.disk
  let disk := Disk.fill Buf.zero (sb.bitmapStart + bbs) ibs disk
  let disk := Disk.fill Buf.zero sb.inodeStart (min 64 (tableBlocks sb.inodeCount)) disk
  { s with gCurrentDir := 0, gSuperblock := sb, blockBitmapSectors := bbs,
           inodeBitmapSectors := ibs, disk := disk.write 0 sb.encode, inodeBitmap := Buf.zero }

/-- `qformat_fs`. -/
def qformatFs : Cos :=
  let sb := formatSuperblock s.driveSectors
  let s := (List.range sb.dataStart).foldl setBlockBitmapBit (s.wipeFs sb)
  s.createRoot.createDefdirs.initFs

end Cos

end Crusadia
