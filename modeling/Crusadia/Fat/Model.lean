import Crusadia.Vfs.Path
import Crusadia.Lib.Disk

/-!
# Crusadia.Fat.Model

The **FAT32 driver** (`fat32.c`) as functions on an explicit state.

`Fat` holds the selected drive and `g_fat32`. LBAs are `uint32_t`, so `block_read` and
`block_write` reduce them modulo `2 ^ 32`, and the address arithmetic above them is on `Nat`.
A directory record is its 32 bytes and a short name its 11 bytes, as on the drive.

A walk along a chain of clusters ends only if the chain does. Walks that write nothing take
a bound on their rounds and return `none` when it is used up, which is a chain that comes
back to itself: there are fewer than `2 ^ 28` cluster numbers.
-/

namespace Crusadia

/-! ### Constants of `fat32.h` -/

/-- `FAT32_MAX_NAME`. -/
def fat32MaxName : Nat := 13
/-- `FAT32_ATTR_VOLID`. -/
def fat32AttrVolid : Byte := 0x08
/-- `FAT32_ATTR_DIR`. -/
def fat32AttrDir : Byte := 0x10
/-- `FAT32_ATTR_ARCHIVE`. -/
def fat32AttrArchive : Byte := 0x20
/-- `FAT32_ATTR_LFN`. -/
def fat32AttrLfn : Byte := 0x0F
/-- `FAT32_MAX_LFN_ENTRIES`. -/
def fat32MaxLfnEntries : Nat := 20
/-- `FAT32_CLUSTER_EOC`. -/
def fat32ClusterEoc : Nat := 0x0FFFFFF8
/-- `DIRENTS_PER_SECTOR`. -/
def direntsPerSector : Nat := 16
/-- More rounds than there are cluster numbers. -/
def walkBound : Nat := 2 ^ 28
/-- `'.'`. -/
def dot : Byte := 0x2E
/-- `' '`. -/
def blank : Byte := 0x20
/-- The first byte of a deleted directory record. -/
def deletedMark : Byte := 0xE5

/-! ### Directory records -/

/-- `fat32_direntry_t` or `fat32_lfnentry_t`, as its 32 bytes. -/
abbrev Dirent := Buf 32

namespace Dirent

variable (e : Dirent)

/-- `de->name`. -/
def name : Buf 11 := e.slice 0 11

/-- `de->attr`. -/
def attr : Byte := e.get 11

/-- `(de->first_cluster_hi << 16) | de->first_cluster_lo`. -/
def firstCluster : Nat := e.get16 20 * 2 ^ 16 + e.get16 26

/-- `de->file_size`. -/
def fileSize : Nat := e.get32 28

/-- `attr & FAT32_ATTR_DIR`. -/
def isDir : Bool := e.attr &&& fat32AttrDir != 0

/-- `attr & FAT32_ATTR_VOLID`. -/
def isVolid : Bool := e.attr &&& fat32AttrVolid != 0

/-- Store `attr`, the first cluster and the size. -/
def setFields (attr : Byte) (firstCluster size : Nat) : Dirent :=
  (((e.put8 11 attr).put16 20 (firstCluster / 2 ^ 16)).put16 26 firstCluster).put32 28 size

/-- `memcpy(de->name, short11, 11)`. -/
def setName (short11 : Buf 11) : Dirent := e.splice 0 11 short11.get

/-- `le->order`. -/
def lfnOrder : Byte := e.get 0

/-- `le->checksum`. -/
def lfnChk : Byte := e.get 13

/-- `units[i]`: the thirteen characters lie in three pieces. -/
def lfnUnit (i : Nat) : Nat :=
  e.get16 (if i < 5 then 1 + 2 * i else if i < 11 then 14 + 2 * (i - 5) else 28 + 2 * (i - 11))

end Dirent

/-- `ents[i]` of a directory sector. -/
def direntAt (sec : Sector) (i : Nat) : Dirent := sec.slice (32 * i) 32

/-- Store `ents[i]`. -/
def putDirent (sec : Sector) (i : Nat) (e : Dirent) : Sector := sec.splice (32 * i) 32 e.get

/-! ### Short names -/

/-- `up`. -/
def up (c : Byte) : Byte := if 0x61 ≤ c ∧ c ≤ 0x7A then c - 32 else c

/-- `name_from_83`. -/
def nameFrom83 (raw : Buf 11) : CStr :=
  let base := ((List.range 8).map raw.get).takeWhile (· ≠ blank)
  let ext := (List.range 3).map fun i => raw.get (8 + i)
  CStr.ofBytes (base ++ if ext.any (· ≠ blank) then dot :: ext.takeWhile (· ≠ blank) else [])

/-- The part of a name before its first dot. -/
def baseOf (name : CStr) : List Byte := name.chars.takeWhile (· ≠ dot)

/-- The first dot of a name and what follows it. -/
def restOf (name : CStr) : List Byte := name.chars.dropWhile (· ≠ dot)

/-- Eight characters and three characters, padded with blanks. -/
def pad83 (base ext : List Byte) : Buf 11 :=
  Buf.ofFn fun i => if i < 8 then base.getD i blank else ext.getD (i - 8) blank

/-- `name_to_83`. -/
def nameTo83 (name : CStr) : Buf 11 :=
  pad83 (((baseOf name).take 8).map up) ((((restOf name).drop 1).take 3).map up)

/-- `is_valid_83_char`. -/
def isValid83Char (c : Byte) : Bool :=
  (0x41 ≤ c && c ≤ 0x5A) || (0x30 ≤ c && c ≤ 0x39) ||
    [0x24, 0x25, 0x27, 0x2D, 0x5F, 0x40, 0x7E, 0x60, 0x21, 0x28, 0x29, 0x7B, 0x7D, 0x5E, 0x23,
      0x26].contains c

/-- A character that `name_needs_lfn` does not let pass. -/
def lfnChar (c : Byte) : Bool := (0x61 ≤ c && c ≤ 0x7A) || !isValid83Char (up c)

/-- `name_needs_lfn`. -/
def nameNeedsLfn (name : CStr) : Bool :=
  let base := baseOf name
  let rest := restOf name
  let ext := rest.drop 1
  base.any lfnChar || base.length == 0 || decide (base.length > 8) ||
    (!rest.isEmpty &&
      (ext.any (fun c => c == dot || lfnChar c) || ext.length == 0 || decide (ext.length > 3)))

/-- A character as `base_ext_from_name` stores it. -/
def shortChar (c : Byte) : Byte := if isValid83Char (up c) then up c else 0x5F

/-- `base_ext_from_name`, and the base that `gen_short_name` puts in place of an empty one. -/
def baseExtFromName (name : CStr) : List Byte × List Byte :=
  let base := ((baseOf name).take 8).map shortChar
  (if base = [] then [0x5F] else base, (((restOf name).drop 1).take 3).map shortChar)

/-- The decimal digits of `n`. -/
def digits (n : Nat) : List Byte := (Nat.toDigits 10 n).map fun c => BitVec.ofNat 8 c.toNat

/-- The name that `gen_short_name` tries in round `n`. -/
def shortCandidate (base ext : List Byte) (n : Nat) : Buf 11 :=
  let tail := 0x7E :: digits n
  pad83 (base.take (max 1 (8 - tail.length)) ++ tail) ext

/-- `lfn_checksum`. -/
def lfnChecksum (shortName : Buf 11) : Byte :=
  (List.range 11).foldl (fun sum i => ((sum &&& 1) <<< 7) + (sum >>> 1) + shortName.get i) 0

/-! ### Long names -/

/-- `lfn_state_t`. The positions of the records are left out: only `erase_lfn_run` reads
them, which nothing calls. -/
structure LfnState where
  buf : Buf 13
  len : Nat
  chk : Byte
  have' : Bool
  count : Nat

namespace LfnState

/-- `memset(s, 0, sizeof(*s))`. -/
def zero : LfnState := ⟨Buf.zero, 0, 0, false, 0⟩

/-- `lfn_reset`. -/
def reset (s : LfnState) : LfnState := ⟨s.buf.put8 0 0, 0, 0, false, 0⟩

/-- The loop of `lfn_add` over the characters of a record, from character `i` on. -/
def addUnits (e : Dirent) (pos len : Nat) : Nat → Nat → Buf 13 → Buf 13
  | 0, _, buf => buf
  | rounds + 1, i, buf =>
    if pos + i < fat32MaxName - 1 then
      let u := e.lfnUnit i
      if u = 0 then (if pos + i < len then buf.put8 (pos + i) 0 else buf)
      else if u = 0xFFFF then addUnits e pos len rounds (i + 1) buf
      else addUnits e pos len rounds (i + 1)
        (buf.put8 (pos + i) (if u < 0x80 then BitVec.ofNat 8 u else 0x3F))
    else buf

/-- The characters and the count, once `lfn_add` has accepted a record. -/
def addRecord (s : LfnState) (e : Dirent) (ord : Nat) : LfnState :=
  { s with
    count := max s.count ord
    buf := addUnits e ((ord - 1) * 13) s.len 13 0 s.buf }

/-- `lfn_add`. -/
def add (s : LfnState) (e : Dirent) : LfnState :=
  let ord := (e.lfnOrder &&& 0x1F).toNat
  if ord < 1 ∨ ord > fat32MaxLfnEntries then s.reset else
  if e.lfnOrder &&& 0x40 ≠ 0 then
    let len := min (ord * 13) (fat32MaxName - 1)
    let s := s.reset
    addRecord ⟨s.buf.put8 len 0, len, e.lfnChk, true, s.count⟩ e ord
  else if !s.have' || e.lfnChk ≠ s.chk then s.reset
  else s.addRecord e ord

/-- `lfn_take`: the name of a record, given the long-name records before it. -/
def take (s : LfnState) (e : Dirent) : CStr :=
  if s.have' && s.chk == lfnChecksum e.name && decide (s.count > 0) && s.buf.get 0 != 0 then
    CStr.ofBytes ((List.range 12).map s.buf.get)
  else nameFrom83 e.name

end LfnState

/-! ### The driver's state -/

/-- `fat32_fs_t`. -/
structure Fat32Fs where
  bytesPerSector : Nat
  sectorsPerCluster : Nat
  reservedSectors : Nat
  numFats : Nat
  fatSizeSectors : Nat
  totalSectors : Nat
  rootCluster : Nat
  fsinfoSector : Nat
  partitionLba : Nat
  fatBeginLba : Nat
  clusterBeginLba : Nat
  dataClusters : Nat
  freeClusterHint : Nat
  mounted : Bool
  deriving DecidableEq

/-- The selected drive and `g_fat32`. -/
structure Fat where
  disk : Disk
  gFat32 : Fat32Fs

namespace Fat

variable (s : Fat)

/-- `block_read`. -/
def blockRead (lba : Nat) : Sector := s.disk.read (lba % 2 ^ 32)

/-- `block_write`. -/
def blockWrite (lba : Nat) (buf : Sector) : Fat :=
  { s with disk := s.disk.write (lba % 2 ^ 32) buf }

/-- `cluster_to_lba`; every caller has `cluster >= 2`. -/
def clusterToLba (cluster : Nat) : Nat :=
  s.gFat32.clusterBeginLba + (cluster - 2) * s.gFat32.sectorsPerCluster

/-- The sector of FAT copy `f` that holds the entry of `cluster`. -/
def fatSector (f cluster : Nat) : Nat :=
  s.gFat32.fatBeginLba + f * s.gFat32.fatSizeSectors + cluster * 4 % 2 ^ 32 / 512

/-- `fat_entry_get`. -/
def fatEntryGet (cluster : Nat) : Nat :=
  (s.blockRead (s.fatSector 0 cluster)).get32 (cluster * 4 % 512) % 2 ^ 28

/-- One round of `fat_entry_set`: FAT copy `f`. -/
def fatEntrySetCopy (cluster value : Nat) (s : Fat) (f : Nat) : Fat :=
  let buf := s.blockRead (s.fatSector f cluster)
  let old := buf.get32 (cluster * 4 % 512)
  s.blockWrite (s.fatSector f cluster)
    (buf.put32 (cluster * 4 % 512) (old / 2 ^ 28 * 2 ^ 28 + value % 2 ^ 28))

/-- `fat_entry_set`. -/
def fatEntrySet (cluster value : Nat) : Fat :=
  (List.range s.gFat32.numFats).foldl (fatEntrySetCopy cluster value) s

/-- `fat_is_eoc`. -/
def fatIsEoc (v : Nat) : Bool := decide (v ≥ fat32ClusterEoc) || v == 0

/-- The condition of the loops that follow a chain. -/
def inChain (cluster : Nat) : Bool := decide (cluster ≥ 2) && !fatIsEoc cluster

/-- `block_write(cluster_to_lba(c) + s, zero)` for every sector of a cluster. -/
def zeroCluster (c : Nat) : Fat :=
  (List.range s.gFat32.sectorsPerCluster).foldl
    (fun t k => t.blockWrite (s.clusterToLba c + k) Buf.zero) s

/-- The cluster that `alloc_cluster` finds: from the hint to the end, then up to the hint. -/
def freeCluster : Option Nat :=
  let total := (s.gFat32.dataClusters + 2) % 2 ^ 32
  let start := max 2 s.gFat32.freeClusterHint
  ((List.range' start (total - start)).find? fun c => s.fatEntryGet c == 0) <|>
    (List.range' 2 (start - 2)).find? fun c => s.fatEntryGet c == 0

/-- `alloc_cluster`. -/
def allocCluster : Nat × Fat :=
  match s.freeCluster with
  | none => (0, s)
  | some c =>
    let s := s.fatEntrySet c fat32ClusterEoc
    (c, { s with gFat32 := { s.gFat32 with freeClusterHint := c + 1 } }.zeroCluster c)

/-- The loop of `free_chain`. Each round clears an entry that is not 0, and a cleared entry
ends the loop. -/
def freeChainLoop : Nat → Nat → Fat → Fat
  | 0, _, s => s
  | rounds + 1, cluster, s =>
    if inChain cluster then
      freeChainLoop rounds (s.fatEntryGet cluster) (s.fatEntrySet cluster 0)
    else s

/-- `free_chain`. -/
def freeChain (cluster : Nat) : Fat := freeChainLoop walkBound cluster s

/-! ### Directories -/

/-- A directory slot: the LBA of its sector and its index there. -/
abbrev SlotPos := Nat × Nat

/-- The slots of a cluster in the order of `for_each_dirent`. -/
def clusterSlots (cluster : Nat) : List SlotPos :=
  (List.range s.gFat32.sectorsPerCluster).flatMap fun k =>
    (List.range direntsPerSector).map fun i => (s.clusterToLba cluster + k, i)

/-- The record in a slot. -/
def dirent (p : SlotPos) : Dirent := direntAt (s.blockRead p.1) p.2

/-- Store a record. -/
def setDirent (p : SlotPos) (e : Dirent) : Fat :=
  s.blockWrite p.1 (putDirent (s.blockRead p.1) p.2 e)

/-- Run a callback along a list until it asks to stop. -/
def runUntil {α σ : Type} (cb : α → σ → Bool × σ) : List α → σ → Bool × σ
  | [], ctx => (false, ctx)
  | a :: as, ctx =>
    let r := cb a ctx
    if r.1 then r else runUntil cb as r.2

/-- The loop of `for_each_dirent`. -/
def forEachLoop {σ : Type} (s : Fat) (cb : Dirent → SlotPos → σ → Bool × σ) :
    Nat → Nat → σ → Option σ
  | 0, _, _ => none
  | rounds + 1, cluster, ctx =>
    if inChain cluster then
      let r := runUntil (fun p => cb (s.dirent p) p) (s.clusterSlots cluster) ctx
      if r.1 then some r.2 else forEachLoop s cb rounds (s.fatEntryGet cluster) r.2
    else some ctx

/-- `dir_cluster == 0` stands for the root. -/
def dirHead (dirCluster : Nat) : Nat :=
  if dirCluster = 0 then s.gFat32.rootCluster else dirCluster

/-- `for_each_dirent`. -/
def forEachDirent {σ : Type} (s : Fat) (dirCluster : Nat) (cb : Dirent → SlotPos → σ → Bool × σ)
    (ctx : σ) : Option σ := s.forEachLoop cb walkBound (s.dirHead dirCluster) ctx

/-- `short_exists_cb`. -/
def shortExistsCb (target11 : Buf 11) (e : Dirent) (_ : SlotPos) (ctx : Bool) : Bool × Bool :=
  if e.get 0 = 0 then (true, ctx) else
  if e.get 0 = deletedMark then (false, ctx) else
  if e.attr = fat32AttrLfn then (false, ctx) else
  if e.name = target11 then (true, true) else (false, ctx)

/-- `short_name_exists`. -/
def shortNameExists (dirCluster : Nat) (name11 : Buf 11) : Option Bool :=
  s.forEachDirent dirCluster (shortExistsCb name11) false

/-- The loop of `gen_short_name` from round `n` on; the last name tried stays if all exist. -/
def genShortNameLoop (s : Fat) (dirCluster : Nat) (base ext : List Byte) :
    Nat → Nat → Option (Buf 11)
  | 0, n => some (shortCandidate base ext (n - 1))
  | rounds + 1, n => do
      if ← s.shortNameExists dirCluster (shortCandidate base ext n)
      then genShortNameLoop s dirCluster base ext rounds (n + 1)
      else some (shortCandidate base ext n)

/-- `gen_short_name`. -/
def genShortName (dirCluster : Nat) (name : CStr) : Option (Buf 11) :=
  let be := baseExtFromName name
  s.genShortNameLoop dirCluster be.1 be.2 999999 1

/-- Equal when both are folded by `up`. -/
def ciEq (a b : CStr) : Bool := a.chars.map up == b.chars.map up

/-- `find_ctx`: the record found and its slot, and the long-name state. -/
structure FindCtx where
  found : Option (Dirent × SlotPos)
  lfn : LfnState

/-- `find_cb`. -/
def findCb (target : CStr) (e : Dirent) (p : SlotPos) (ctx : FindCtx) : Bool × FindCtx :=
  if e.get 0 = 0 then (true, ctx) else
  if e.get 0 = deletedMark then (false, { ctx with lfn := ctx.lfn.reset }) else
  if e.attr = fat32AttrLfn then (false, { ctx with lfn := ctx.lfn.add e }) else
  if ciEq (ctx.lfn.take e) target then (true, { ctx with found := some (e, p) })
  else (false, { ctx with lfn := ctx.lfn.reset })

/-- `find_in_dir`; the inner `none` is `-1`. -/
def findInDir (dirCluster : Nat) (name : CStr) : Option (Option (Dirent × SlotPos)) :=
  (s.forEachDirent dirCluster (findCb name) ⟨none, LfnState.zero⟩).map (·.found)

/-- `fat32_dirent_t`. -/
structure FatDirent where
  name : CStr
  attr : Byte
  firstCluster : Nat
  size : Nat

/-- `list_ctx`. -/
structure ListCtx where
  out : List FatDirent
  lfn : LfnState

/-- `list_cb`. -/
def listCb (max : Nat) (e : Dirent) (_ : SlotPos) (ctx : ListCtx) : Bool × ListCtx :=
  if e.get 0 = 0 then (true, ctx) else
  if e.get 0 = deletedMark then (false, { ctx with lfn := ctx.lfn.reset }) else
  if e.attr = fat32AttrLfn then (false, { ctx with lfn := ctx.lfn.add e }) else
  if e.isVolid then (false, { ctx with lfn := ctx.lfn.reset }) else
  if ctx.out.length ≥ max then (true, ctx) else
  (false, ⟨ctx.out ++ [⟨ctx.lfn.take e, e.attr, e.firstCluster, e.fileSize⟩], ctx.lfn.reset⟩)

/-- `fat32_list_dir`; the inner `none` is `-1`. -/
def fat32ListDir (dirCluster outMax : Nat) : Option (Option (List FatDirent)) :=
  if !s.gFat32.mounted then some none else
  (s.forEachDirent dirCluster (listCb outMax) ⟨[], LfnState.zero⟩).map fun ctx => some ctx.out

/-! ### Paths -/

/-- `'/'` or `'>'`. -/
def isSep (c : Byte) : Bool := c == slash || c == 0x3E

/-- One component of `fat32_stat`: at most twelve characters, and what is left of the path
after the separator that follows it. -/
def nextComp (p : List Byte) : List Byte × List Byte :=
  let comp := (p.take (fat32MaxName - 1)).takeWhile fun c => !isSep c
  let rest := p.drop comp.length
  (comp, match rest with
    | c :: cs => if isSep c then cs else c :: cs
    | [] => [])

/-- The loop of `fat32_stat`; the path gets shorter in every round. -/
def statLoop (s : Fat) : Nat → List Byte → Nat → Option Dirent → Option (Option Dirent)
  | 0, _, _, last => some last
  | rounds + 1, p, dir, last =>
    if p = [] then some last else
    let c := nextComp p
    if c.1 = [] then statLoop s rounds c.2 dir last else do
      match ← s.findInDir dir (CStr.ofBytes c.1) with
      | none => some none
      | some (e, _) =>
        if c.2 ≠ [] ∧ !e.isDir then some none
        else statLoop s rounds c.2 (if c.2 ≠ [] then e.firstCluster else dir) (some e)

/-- `fat32_stat`; the inner `none` is `-1`. -/
def fat32Stat (path : CStr) : Option (Option FatDirent) :=
  if !s.gFat32.mounted then some none else
  let p := match path.chars with
    | c :: cs => if isSep c then cs else c :: cs
    | [] => []
  (s.statLoop (p.length + 1) p s.gFat32.rootCluster none).map fun r =>
    r.map fun e => ⟨nameFrom83 e.name, e.attr, e.firstCluster, e.fileSize⟩

/-! ### Reading a file -/

/-- The clusters in a chain are skipped one by one. -/
def skipClusters (s : Fat) : Nat → Nat → Nat
  | 0, cluster => cluster
  | n + 1, cluster =>
    if inChain cluster then skipClusters s n (s.fatEntryGet cluster) else cluster

/-- `sectors_per_cluster * FAT32_SECTOR_SIZE`. -/
def clusterBytes : Nat := s.gFat32.sectorsPerCluster * 512

/-- The bytes of a cluster in order. -/
def clusterData (cluster : Nat) : List Byte :=
  (List.range s.gFat32.sectorsPerCluster).flatMap fun k =>
    (List.range 512).map (s.blockRead (s.clusterToLba cluster + k)).get

/-- The loop of `fat32_read`: `size` bytes are still wanted, from `off` in `cluster` on. Every
round but the first starts a cluster. -/
def readLoop (s : Fat) : Nat → Nat → Nat → Nat → List Byte
  | 0, _, _, _ => []
  | rounds + 1, size, cluster, off =>
    if 0 < size ∧ inChain cluster then
      let chunk := ((s.clusterData cluster).drop off).take size
      chunk ++ readLoop s rounds (size - chunk.length) (s.fatEntryGet cluster) 0
    else []

/-- `fat32_read`: the bytes put in `buffer`. With clusters of at least one byte there are no
more than `size + 1` rounds. -/
def fat32Read (firstCluster fileSize offset size : Nat) : List Byte :=
  if !s.gFat32.mounted then [] else
  if offset ≥ fileSize then [] else
  let size := if (offset + size) % 2 ^ 32 > fileSize then fileSize - offset else size
  let cluster := s.skipClusters (offset / s.clusterBytes) firstCluster
  s.readLoop (size + 1) size cluster (offset % s.clusterBytes)

/-! ### New directory records -/

/-- `slot_run_cb`; the context is the run of free slots found so far. -/
def slotRunCb (need : Nat) (e : Dirent) (p : SlotPos) (ctx : List SlotPos) :
    Bool × List SlotPos :=
  if e.get 0 = 0 ∨ e.get 0 = deletedMark then
    (decide (ctx.length + 1 ≥ need), ctx ++ [p])
  else (false, [])

/-- `while (!fat_is_eoc(fat_entry_get(cluster))) cluster = fat_entry_get(cluster)`. -/
def chainEnd (s : Fat) : Nat → Nat → Option Nat
  | 0, _ => none
  | rounds + 1, cluster =>
    if fatIsEoc (s.fatEntryGet cluster) then some cluster
    else chainEnd s rounds (s.fatEntryGet cluster)

/-- `alloc_dirent_slots`; the inner `none` is `-1`. -/
def allocDirentSlots (dirCluster need : Nat) : Option (Option (List SlotPos) × Fat) := do
  let run ← s.forEachDirent dirCluster (slotRunCb need) []
  if run.length ≥ need then return (some (run.take need), s) else
  let last ← s.chainEnd walkBound (s.dirHead dirCluster)
  let r := s.allocCluster
  if r.1 = 0 then return (none, r.2) else
  let t := r.2.fatEntrySet last r.1
  let slots := run ++ (t.clusterSlots r.1).take (need - run.length)
  return (if slots.length < need then none else some slots, t)

/-- `update_dirent_fields`. -/
def updateDirentFields (p : SlotPos) (attr : Byte) (firstCluster size : Nat) : Fat :=
  s.setDirent p ((s.dirent p).setFields attr firstCluster size)

/-- `units[i]` of the record with number `order` for a long name. -/
def lfnUnitOf (name : CStr) (order i : Nat) : Nat :=
  let ci := (order - 1) * 13 + i
  if ci < name.length then (name.at' ci).toNat else if ci = name.length then 0 else 0xFFFF

/-- Where the bytes of `units` lie in a record. -/
def lfnUnitIndex (k : Nat) : Option (Nat × Nat) :=
  if 1 ≤ k ∧ k < 11 then some ((k - 1) / 2, (k - 1) % 2)
  else if 14 ≤ k ∧ k < 26 then some (5 + (k - 14) / 2, (k - 14) % 2)
  else if 28 ≤ k then some (11 + (k - 28) / 2, (k - 28) % 2)
  else none

/-- The long-name record with number `order` out of `count`. -/
def lfnRecord (name : CStr) (chk : Byte) (count order : Nat) : Dirent :=
  Buf.ofFn fun k =>
    if k = 0 then BitVec.ofNat 8 order ||| (if order = count then 0x40 else 0)
    else if k = 11 then fat32AttrLfn
    else if k = 13 then chk
    else match lfnUnitIndex k with
      | some (i, b) => Buf.leByte (lfnUnitOf name order i) b
      | none => 0

/-- The loop of `create_new_dirent`: the records go into the slots, the last one first. -/
def writeLfns (name : CStr) (chk : Byte) (count : Nat) : List SlotPos → Nat → Fat → Fat
  | [], _, s => s
  | p :: ps, order, s =>
    writeLfns name chk count ps (order - 1) (s.setDirent p (lfnRecord name chk count order))

/-- The short record of a new entry. -/
def newDirent (short11 : Buf 11) (attr : Byte) (firstCluster size : Nat) : Dirent :=
  (Dirent.setName Buf.zero short11).setFields attr firstCluster size

/-- The number of long-name records of a new entry. -/
def lfnCount (name : CStr) : Nat :=
  if nameNeedsLfn name then min ((name.length + 12) / 13) fat32MaxLfnEntries else 0

/-- `create_new_dirent`. -/
def createNewDirent (dirCluster : Nat) (name : CStr) (attr : Byte)
    (firstCluster size : Nat) : Option (Int × Fat) := do
  let short11 ← if nameNeedsLfn name then s.genShortName dirCluster name else some (nameTo83 name)
  let count := lfnCount name
  match ← s.allocDirentSlots dirCluster (count + 1) with
  | (none, s) => return (-1, s)
  | (some slots, s) =>
    let s := writeLfns name (lfnChecksum short11) count (slots.take count) count s
    return (0, s.setDirent (slots.getD count (0, 0)) (newDirent short11 attr firstCluster size))

/-! ### Writing a file -/

/-- A sector with the first 512 of the bytes, padded with zeros. -/
def padSector (l : List Byte) : Sector := Buf.ofFn fun i => l.getD i 0

/-- The inner loop of `fat32_write_file`: the sectors of one cluster. -/
def writeSectors (cluster : Nat) (data : List Byte) : Fat :=
  (List.range (min s.gFat32.sectorsPerCluster ((data.length + 511) / 512))).foldl
    (fun t k => t.blockWrite (s.clusterToLba cluster + k) (padSector (data.drop (512 * k)))) s

/-- The outer loop of `fat32_write_file`. Every round but the first has taken a free cluster. -/
def writeLoop : Nat → Nat → List Byte → Fat → Fat
  | 0, _, _, s => s
  | rounds + 1, cluster, data, s =>
    let t := s.writeSectors cluster data
    let rest := data.drop s.clusterBytes
    if rest = [] then t else
    let r := t.allocCluster
    if r.1 = 0 then r.2 else writeLoop rounds r.1 rest (r.2.fatEntrySet cluster r.1)

/-- Store the data of a file in new clusters: the first cluster, 0 for none; `none` is `-1`. -/
def storeData (data : List Byte) : Option Nat × Fat :=
  if data = [] then (some 0, s) else
  let r := s.allocCluster
  if r.1 = 0 then (none, r.2) else (some r.1, writeLoop walkBound r.1 data r.2)

/-- `fat32_write_file`. -/
def fat32WriteFile (dirCluster : Nat) (name : CStr) (data : List Byte) :
    Option (Int × Fat) := do
  if !s.gFat32.mounted then return (-1, s) else
  match ← s.findInDir dirCluster name with
  | some (e, p) =>
    let t := if e.firstCluster ≥ 2 then s.freeChain e.firstCluster else s
    match t.storeData data with
    | (none, t) => return (-1, t)
    | (some first, t) => return (0, t.updateDirentFields p fat32AttrArchive first data.length)
  | none =>
    match s.storeData data with
    | (none, t) => return (-1, t)
    | (some first, t) =>
      match ← t.createNewDirent dirCluster name fat32AttrArchive first data.length with
      | (0, t) => return (0, t)
      | (_, t) => return (-1, if first ≥ 2 then t.freeChain first else t)

/-- `write_dirent`; every caller passes a name. -/
def writeDirent (p : SlotPos) (name : CStr) (attr : Byte) (firstCluster size : Nat) :
    Fat :=
  s.setDirent p (((s.dirent p).setName (nameTo83 name)).setFields attr firstCluster size)

/-- The loop of `fat32_append_file`: the last cluster and the bytes that are not written. Each
round writes at least one byte. -/
def appendLoop : Nat → Nat → Nat → List Byte → Fat → Nat × List Byte × Fat
  | 0, cluster, _, data, s => (cluster, data, s)
  | rounds + 1, cluster, off, data, s =>
    if data = [] then (cluster, data, s) else
    if off ≥ s.clusterBytes then
      let r := s.allocCluster
      if r.1 = 0 then (cluster, data, r.2) else
      let t := r.2.fatEntrySet cluster r.1
      let lba := t.clusterToLba r.1
      let chunk := min 512 data.length
      appendLoop rounds r.1 chunk (data.drop chunk)
        (t.blockWrite lba ((t.blockRead lba).splice 0 chunk fun j => data.getD j 0))
    else
      let lba := s.clusterToLba cluster + off / 512
      let chunk := min (512 - off % 512) data.length
      appendLoop rounds cluster (off + chunk) (data.drop chunk)
        (s.blockWrite lba ((s.blockRead lba).splice (off % 512) chunk fun j => data.getD j 0))

/-- The offset in the last cluster at which `fat32_append_file` goes on. -/
def appendOffset (oldSize : Nat) : Nat :=
  if oldSize > 0 ∧ oldSize % s.clusterBytes = 0 then s.clusterBytes else oldSize % s.clusterBytes

/-- `fat32_append_file`. -/
def fat32AppendFile (dirCluster : Nat) (name : CStr) (data : List Byte) :
    Option (Int × Fat) := do
  if data = [] then return (0, s) else
  if !s.gFat32.mounted then return (-1, s) else
  match ← s.findInDir dirCluster name with
  | none => s.fat32WriteFile dirCluster name data
  | some (e, p) =>
    let start : Option (Nat × Fat) ←
      if e.firstCluster < 2 then
        let r := s.allocCluster
        some (if r.1 = 0 then none
          else some (r.1, r.2.updateDirentFields p e.attr r.1 e.fileSize))
      else (s.chainEnd walkBound e.firstCluster).map fun c => some (c, s)
    match start with
    | none => return (-1, s)
    | some (cluster, t) =>
      let r := appendLoop data.length cluster (s.appendOffset e.fileSize) data t
      let written := data.length - r.2.1.length
      return (if written = data.length then 0 else -1,
        r.2.2.writeDirent p name e.attr (if r.1 ≥ 2 then r.1 else 0) (e.fileSize + written))

/-! ### Directories and deletion -/

/-- The record `"."` or `".."`. -/
def dotDirent (dots cluster : Nat) : Dirent :=
  (Dirent.setName Buf.zero (Buf.ofFn fun i => if i < dots then dot else blank)).setFields
    fat32AttrDir cluster 0

/-- `fat32_create_dir`. -/
def fat32CreateDir (dirCluster : Nat) (name : CStr) : Option (Int × Fat) := do
  if !s.gFat32.mounted then return (-1, s) else
  match ← s.findInDir dirCluster name with
  | some _ => return (-1, s)
  | none =>
    let r := s.allocCluster
    if r.1 = 0 then return (-1, r.2) else
    let parent := if dirCluster = s.gFat32.rootCluster then 0 else dirCluster
    let t := r.2.blockWrite (r.2.clusterToLba r.1)
      (putDirent (putDirent Buf.zero 0 (dotDirent 1 r.1)) 1 (dotDirent 2 parent))
    match ← t.allocDirentSlots dirCluster 1 with
    | (none, t) => return (-1, t.freeChain r.1)
    | (some slots, t) =>
      return (0, t.writeDirent (slots.getD 0 (0, 0)) name fat32AttrDir r.1 0)

/-- `ents[slot].name[0] = 0xE5`. -/
def eraseDirent (p : SlotPos) : Fat := s.setDirent p ((s.dirent p).put8 0 deletedMark)

/-- `fat32_delete_file`. -/
def fat32DeleteFile (dirCluster : Nat) (name : CStr) : Option (Int × Fat) := do
  if !s.gFat32.mounted then return (-1, s) else
  match ← s.findInDir dirCluster name with
  | none => return (-1, s)
  | some (e, p) =>
    if e.isDir then return (-1, s) else
    let t := if e.firstCluster ≥ 2 then s.freeChain e.firstCluster else s
    return (0, t.eraseDirent p)

/-- `dir_empty_cb`; the context is `nonempty`. -/
def dirEmptyCb (e : Dirent) (_ : SlotPos) (ctx : Bool) : Bool × Bool :=
  if e.get 0 = 0 then (true, ctx) else
  if e.get 0 = deletedMark ∨ e.attr = fat32AttrLfn ∨ e.isVolid then (false, ctx) else
  if e.get 0 = dot ∧ (e.get 1 = blank ∨ e.get 1 = dot) then (false, ctx) else (true, true)

/-- `fat32_remove_dir`. -/
def fat32RemoveDir (dirCluster : Nat) (name : CStr) : Option (Int × Fat) := do
  if !s.gFat32.mounted then return (-1, s) else
  match ← s.findInDir dirCluster name with
  | none => return (-1, s)
  | some (e, p) =>
    if !e.isDir then return (-1, s) else
    let cluster := e.firstCluster
    if cluster < 2 ∨ cluster = s.gFat32.rootCluster then return (-1, s) else
    if ← s.forEachDirent cluster dirEmptyCb false then return (-2, s)
    else return (0, (s.freeChain cluster).eraseDirent p)

/-! ### Mounting and formatting -/

/-- One round of `fat32_set_shutdown_bit`. -/
def setShutdownCopy (clean : Bool) (s : Fat) (f : Nat) : Fat :=
  let buf := s.blockRead (s.fatSector f 1)
  let val := buf.get32 4
  s.blockWrite (s.fatSector f 1)
    (buf.put32 4 (if clean then val ||| 0x08000000 else val &&& 0xF7FFFFFF))

/-- `fat32_set_shutdown_bit`. -/
def setShutdownBit (clean : Bool) : Fat :=
  (List.range s.gFat32.numFats).foldl (setShutdownCopy clean) s

/-- What `fat32_mount` puts in `g_fat32`, from the boot sector and the FSInfo sector. -/
def decodeBpb (partitionLba : Nat) (sec fi : Sector) : Fat32Fs :=
  let reserved := sec.get16 14
  let fats := (sec.get 16).toNat
  let fatSize := sec.get32 36
  let total := if sec.get32 32 ≠ 0 then sec.get32 32 else sec.get16 19
  let spc := (sec.get 13).toNat
  let fatBegin := (partitionLba + reserved) % 2 ^ 32
  let clusterBegin := (fatBegin + fats * fatSize) % 2 ^ 32
  let dataSectors := (total + 2 ^ 32 - (clusterBegin + 2 ^ 32 - partitionLba) % 2 ^ 32) % 2 ^ 32
  { bytesPerSector := sec.get16 11
    sectorsPerCluster := spc
    reservedSectors := reserved
    numFats := fats
    fatSizeSectors := fatSize
    totalSectors := total
    rootCluster := sec.get32 44
    fsinfoSector := sec.get16 48
    partitionLba := partitionLba
    fatBeginLba := fatBegin
    clusterBeginLba := clusterBegin
    dataClusters := dataSectors / spc
    freeClusterHint :=
      if sec.get16 48 ≠ 0 ∧ fi.get32 0 = 0x41615252 ∧ fi.get32 492 ≠ 0xFFFFFFFF ∧ fi.get32 492 ≥ 2
      then fi.get32 492 else 2
    mounted := true }

/-- `fat32_mount`. -/
def fat32Mount (partitionLba : Nat) : Int × Fat :=
  let sec := s.blockRead partitionLba
  if sec.get16 11 ≠ 512 then (-1, s) else
  if sec.get32 36 = 0 then (-1, s) else
  if sec.get 510 ≠ 0x55 ∨ sec.get 511 ≠ 0xAA then (-1, s) else
  let fi := s.blockRead (partitionLba + sec.get16 48)
  (0, { s with gFat32 := decodeBpb partitionLba sec fi }.setShutdownBit false)

/-- `fat32_unmount`. -/
def fat32Unmount : Fat :=
  let s := if s.gFat32.mounted then s.setShutdownBit true else s
  { s with gFat32 := { s.gFat32 with mounted := false } }

/-- `pick_spc`. -/
def pickSpc (totalSectors : Nat) : Nat :=
  let bytes := totalSectors * 512
  if bytes ≤ 8 * 1024 * 1024 * 1024 then 8 else
  if bytes ≤ 16 * 1024 * 1024 * 1024 then 16 else
  if bytes ≤ 32 * 1024 * 1024 * 1024 then 32 else 64

/-- Bytes of a text at an offset. -/
def putBytes {n : Nat} (b : Buf n) (off : Nat) (l : List Byte) : Buf n :=
  b.splice off l.length fun i => l.getD i 0

/-- The boot sector of `fat32_format`. -/
def bootSector (partitionLba totalSectors spc fatSize : Nat) : Sector :=
  let b : Sector := Buf.zero
  let b := putBytes b 0 [0xEB, 0x58, 0x90]
  let b := putBytes b 3 [0x43, 0x52, 0x55, 0x53, 0x41, 0x44, 0x45, 0x52]
  let b := (b.put16 11 512).put8 13 (BitVec.ofNat 8 spc)
  let b := (b.put16 14 32).put8 16 2
  let b := b.put8 21 0xF8
  let b := ((b.put16 24 63).put16 26 255).put32 28 partitionLba
  let b := (b.put32 32 totalSectors).put32 36 fatSize
  let b := ((b.put32 44 2).put16 48 1).put16 50 6
  let b := ((b.put8 64 0x80).put8 66 0x29).put32 67 0x12345678
  let b := putBytes b 71 [0x4E, 0x4F, 0x20, 0x4E, 0x41, 0x4D, 0x45, 0x20, 0x20, 0x20, 0x20]
  let b := putBytes b 82 [0x46, 0x41, 0x54, 0x33, 0x32, 0x20, 0x20, 0x20]
  (b.put8 510 0x55).put8 511 0xAA

/-- The FSInfo sector of `fat32_format`. -/
def fsinfoSector (dataClusters : Nat) : Sector :=
  let b : Sector := Buf.zero
  let b := (b.put32 0 0x41615252).put32 484 0x61417272
  let b := (b.put32 488 (dataClusters - 1)).put32 492 3
  ((b.put32 508 0xAA550000).put8 510 0x55).put8 511 0xAA

/-- The first FAT sector of `fat32_format`. -/
def fat0Sector : Sector :=
  ((Buf.zero.put32 0 0x0FFFFFF8).put32 4 0x0FFFFFFF).put32 8 0x0FFFFFFF

/-- Write `sec` to `count` sectors from `lba` on. -/
def fillSectors (lba count : Nat) (sec : Sector) : Fat :=
  (List.range count).foldl (fun t i => t.blockWrite (lba + i) sec) s

/-- The size of a FAT copy that `fat32_format` computes. -/
def formatFatSize (totalSectors spc : Nat) : Nat :=
  let tmpval2 := (256 * spc + 2) / 2
  (totalSectors - 32 + tmpval2 - 1) % 2 ^ 32 / tmpval2

/-- The sectors that `fat32_format` writes. -/
def writeFormat (partitionLba totalSectors spc fatSize dataClusters : Nat) : Fat :=
  let boot := bootSector partitionLba totalSectors spc fatSize
  let s := (s.blockWrite partitionLba boot).blockWrite (partitionLba + 6) boot
  let fi := fsinfoSector dataClusters
  let s := (s.blockWrite (partitionLba + 1) fi).blockWrite (partitionLba + 7) fi
  let fatBegin := partitionLba + 32
  let s := (s.fillSectors fatBegin fatSize Buf.zero).fillSectors (fatBegin + fatSize) fatSize
    Buf.zero
  let s := (s.blockWrite fatBegin fat0Sector).blockWrite (fatBegin + fatSize) fat0Sector
  s.fillSectors (fatBegin + 2 * fatSize) spc Buf.zero

/-- `fat32_format`. -/
def fat32Format (partitionLba totalSectors sectorsPerCluster : Nat) : Int × Fat :=
  if totalSectors < 66600 then (-1, s) else
  let spc := if sectorsPerCluster = 0 then pickSpc totalSectors else sectorsPerCluster
  let fatSize := formatFatSize totalSectors spc
  let clusterBeginRel := (32 + 2 * fatSize) % 2 ^ 32
  if clusterBeginRel ≥ totalSectors then (-1, s) else
  let dataClusters := (totalSectors - clusterBeginRel) / spc
  if dataClusters < 65525 then (-1, s) else
  (s.writeFormat partitionLba totalSectors spc fatSize dataClusters).fat32Mount partitionLba

end Fat

end Crusadia
