import Crusadia.Vfs.Backend

/-!
# Crusadia.Vfs.Model

The **VFS layer** (`vfs.c`): drives, the mount table, the descriptor table, and the calls on
them, as functions on an explicit state.

The drives are numbered as in `g_drives`. The COS driver's globals (`CosGlobals`) and
`g_fat32` are shared by all drives: a call on a COS drive runs the driver on that drive's
disk and whatever the globals hold (`Vfs.cosOn`), which is what `ctx_enter` is there to get
right. An outer `none` is a walk on a FAT32 volume that does not end. The calls hold the VFS
lock from beginning to end, so one call is one step.
-/

namespace Crusadia

/-! ### Constants of `vfs.h` and `vfs.c` -/

/-- `VFS_PATH_MAX`. -/
def vfsPathMax : Nat := 128
/-- `VFS_MOUNT_PATH_MAX`. -/
def vfsMountPathMax : Nat := 48
/-- `VFS_MAX_FDS`. -/
def vfsMaxFds : Nat := 32
/-- `HDR_MAX_MOUNTS`. -/
def hdrMaxMounts : Nat := 6
/-- `VFS_MAX_MOUNTS`. -/
def vfsMaxMounts : Nat := hdrMaxMounts + 1
/-- `HDR_COS_OFFSET`. -/
def hdrCosOffset : Nat := 64
/-- `HDR_FAT_SECTOR`. -/
def hdrFatSector : Nat := 12
/-- `HDR_MAGIC`. -/
def hdrMagic : Nat := 0x56465332
/-- `HDR_MAGIC_V1`. -/
def hdrMagicV1 : Nat := 0x56465331

/-- `VFS_E_NODRIVE`. -/
def vfsENodrive : Int := -1
/-- `VFS_E_NOFS`. -/
def vfsENofs : Int := -2
/-- `VFS_E_MOUNTED`. -/
def vfsEMounted : Int := -3
/-- `VFS_E_NOROOT`. -/
def vfsENoroot : Int := -4
/-- `VFS_E_TARGET`. -/
def vfsETarget : Int := -5
/-- `VFS_E_NOTMOUNTED`. -/
def vfsENotmounted : Int := -7
/-- `VFS_E_FSNAME`. -/
def vfsEFsname : Int := -9
/-- `VFS_E_TOOSMALL`. -/
def vfsEToosmall : Int := -10
/-- `VFS_E_NOHDR`. -/
def vfsENohdr : Int := -11
/-- `VFS_E_ISDIR`. -/
def vfsEIsdir : Int := -16
/-- `VFS_E_PATH`. -/
def vfsEPath : Int := -17
/-- `VFS_E_MFILE`. -/
def vfsEMfile : Int := -19
/-- `VFS_E_BADF`. -/
def vfsEBadf : Int := -20

/-! ### Paths -/

/-- `lc`, and `tolower`. -/
def lc (c : Byte) : Byte := if 0x41 ≤ c ∧ c ≤ 0x5A then c + 32 else c

/-- `strcasecmp(a, b) == 0`. -/
def strcaseEq (a b : CStr) : Bool := a.chars.map lc == b.chars.map lc

/-- `path_within`: `path` is `base` or below it. -/
def pathWithin (path base : CStr) : Bool :=
  base.length == 1 ||
    ((path.chars.take base.length).map lc == base.chars.map lc &&
      (path.at' base.length == 0 || path.at' base.length == slash))

/-- The path in `out` of `normalize`, for the components it has kept. -/
def absPath (comps : List (List Byte)) : List Byte :=
  if comps = [] then [slash] else comps.flatMap fun c => slash :: c

/-- One component in `normalize`; `none` is `VFS_E_PATH`. -/
def normalizeComp (kept : List (List Byte)) (comp : List Byte) : Option (List (List Byte)) :=
  if comp.length ≥ vfsPathMax then none else
  if comp = [dot] then some kept else
  if comp = [dot, dot] then some kept.dropLast else
  if (absPath kept).length + comp.length + 2 ≥ vfsPathMax then none else some (kept ++ [comp])

/-- `normalize`; `none` is `VFS_E_PATH`. -/
def normalize (cwd input : CStr) : Option CStr :=
  let inp := if input.chars = [] then [dot] else input.chars
  let full := if inp.head? = some slash then inp else cwd.chars ++ slash :: inp
  if full.length + (if inp.head? = some slash then 0 else 1) ≥ 2 * vfsPathMax then none else
  (((full.splitOnP (· == slash)).filter (· ≠ [])).foldlM normalizeComp []).map fun kept =>
    CStr.ofBytes (absPath kept)

/-- `target_ok`. -/
def targetOk (t : CStr) : Bool :=
  decide (t.length > 1) && decide (t.length < vfsMountPathMax) && t.at' 0 == slash

/-- `"/mount"`. -/
def mountDir : CStr := CStr.ofBytes [0x2F, 0x6D, 0x6F, 0x75, 0x6E, 0x74]

/-- `"/user"`. -/
def userDir : CStr := CStr.ofBytes [0x2F, 0x75, 0x73, 0x65, 0x72]

/-! ### The header of the root drive -/

/-- `vfs_hdr_t`, as its 320 bytes: `magic`, `is_root`, `count`, and from byte 8 on six records
of 52 bytes. -/
abbrev Hdr := Buf 320

namespace Hdr

variable (h : Hdr)

/-- `hdr.magic`. -/
def magic : Nat := h.get32 0
/-- `hdr.is_root`. -/
def isRoot : Bool := h.get 4 != 0
/-- `hdr.count`. -/
def count : Nat := (h.get 5).toNat
/-- `hdr.mounts[k].ata_base`. -/
def ataBase (k : Nat) : Nat := h.get16 (8 + 52 * k)
/-- `hdr.mounts[k].is_slave`. -/
def isSlave (k : Nat) : Nat := (h.get (10 + 52 * k)).toNat
/-- `hdr.mounts[k].used`. -/
def used (k : Nat) : Bool := h.get (11 + 52 * k) != 0
/-- `hdr.mounts[k].path`, cut to the buffer that `vfs_init` copies it to. -/
def path (k : Nat) : CStr :=
  CStr.ofBytes ((List.range (vfsMountPathMax - 1)).map fun i => h.get (12 + 52 * k + i))

/-- Fill `h.mounts[k]`. -/
def putMount (k ataBase isSlave : Nat) (path : CStr) : Hdr :=
  (((h.put16 (8 + 52 * k) ataBase).put8 (10 + 52 * k) (BitVec.ofNat 8 isSlave)).put8 (11 + 52 * k)
    1).splice (12 + 52 * k) (path.length + 1) path.at'

/-- The conversion of a version 1 header in `vfs_init`: its records have 20 bytes. -/
def ofV1 : Hdr :=
  let out : Hdr := ((Buf.zero.put32 0 hdrMagic).put8 4 (h.get 4)).put8 5 (h.get 5)
  (List.range hdrMaxMounts).foldl (fun out k =>
    let name := CStr.ofBytes (mountDir.chars ++ slash ::
      (List.range 15).map fun c => h.get (12 + 20 * k + c))
    (((out.put16 (8 + 52 * k) (h.get16 (8 + 20 * k))).put8 (10 + 52 * k)
      (h.get (10 + 20 * k))).put8 (11 + 52 * k) (h.get (11 + 20 * k))).splice (12 + 52 * k)
      (name.length + 1) name.at') out

end Hdr

/-! ### The state -/

/-- `fs_device_t` and the contents of the drive. -/
structure FsDevice where
  ataBase : Nat
  isSlave : Nat
  totalSectors : Nat
  disk : Disk

/-- `vfs_mount_t`. -/
structure VfsMount where
  used : Bool
  drive : Nat
  fs : FsType
  isRoot : Bool
  partLba : Nat
  seq : Nat
  openCount : Int
  mountpoint : CStr
  fat : Fat32Fs

/-- `vfs_file_t`. -/
structure VfsFile where
  used : Bool
  mount : Nat
  writable : Bool
  append : Bool
  pos : Nat
  size : Nat
  id : Nat
  rel : CStr

/-- The globals of `fs.c` that are not per drive. -/
structure CosGlobals where
  inodeBitmap : Buf 32768
  gSuperblock : Superblock
  blockBitmapSectors : Nat
  inodeBitmapSectors : Nat
  gCurrentDir : Nat

/-- The globals of `vfs.c`, the two drivers' globals and the drives. -/
structure Vfs where
  activeDrives : Nat
  drives : Nat → FsDevice
  cos : CosGlobals
  gFat32 : Fat32Fs
  mounts : Nat → VfsMount
  root : Option Nat
  files : Nat → VfsFile
  cwd : CStr
  cosLoaded : Option Nat
  seq : Nat

namespace Vfs

variable (v : Vfs)

/-- The zeroed `g_fat32`. -/
def zeroFat32 : Fat32Fs := ⟨0, 0, 0, 0, 0, 0, 0, 0, 0, 0, 0, 0, 0, false⟩

/-- A zeroed mount slot. -/
def zeroMount : VfsMount := ⟨false, 0, .cosfs, false, 0, 0, 0, ⟨[], CStr.nz_nil⟩, zeroFat32⟩

/-- A zeroed descriptor slot. -/
def zeroFile : VfsFile := ⟨false, 0, false, false, 0, 0, 0, ⟨[], CStr.nz_nil⟩⟩

/-- Replace a drive's contents. -/
def setDisk (d : Nat) (disk : Disk) : Vfs :=
  { v with drives := Function.update v.drives d { v.drives d with disk } }

/-- Replace a mount slot. -/
def setMount (i : Nat) (m : VfsMount) : Vfs :=
  { v with mounts := Function.update v.mounts i m }

/-- Replace a descriptor slot. -/
def setFile (fd : Nat) (f : VfsFile) : Vfs :=
  { v with files := Function.update v.files fd f }

/-- `block_read` on a drive. -/
def readSector (d lba : Nat) : Sector := (v.drives d).disk.read lba

/-- `block_write` on a drive. -/
def writeSector (d lba : Nat) (sec : Sector) : Vfs :=
  v.setDisk d ((v.drives d).disk.write lba sec)

/-- The COS driver with drive `d` selected. -/
def cosOn (d : Nat) : Cos where
  disk := (v.drives d).disk
  driveSectors := (v.drives d).totalSectors
  inodeBitmap := v.cos.inodeBitmap
  gSuperblock := v.cos.gSuperblock
  blockBitmapSectors := v.cos.blockBitmapSectors
  inodeBitmapSectors := v.cos.inodeBitmapSectors
  gCurrentDir := v.cos.gCurrentDir

/-- What the COS driver leaves behind on drive `d`. -/
def putCos (d : Nat) (s : Cos) : Vfs :=
  { v.setDisk d s.disk with
    cos := ⟨s.inodeBitmap, s.gSuperblock, s.blockBitmapSectors, s.inodeBitmapSectors,
      s.gCurrentDir⟩ }

/-- The FAT32 driver with drive `d` selected. -/
def fatOn (d : Nat) : Fat := ⟨(v.drives d).disk, v.gFat32⟩

/-- What the FAT32 driver leaves behind on drive `d`. -/
def putFat (d : Nat) (s : Fat) : Vfs :=
  { v.setDisk d s.disk with gFat32 := s.gFat32 }

/-! ### Drives -/

/-- `is_fat32_bpb`. -/
def isFat32Bpb (s : Sector) : Bool :=
  s.get 510 == 0x55 && s.get 511 == 0xAA && (s.get 0 == 0xEB || s.get 0 == 0xE9) &&
    s.get16 11 == 512 && s.get 13 != 0 && s.get32 36 != 0 && decide (s.get32 44 ≥ 2)

/-- The LBA in partition record `i` of a boot sector, if its type is FAT32. -/
def partitionLba (sec : Sector) (i : Nat) : Option Nat :=
  let type := sec.get (446 + 16 * i + 4)
  let lba := sec.get32 (446 + 16 * i + 8)
  if (type = 0x0B ∨ type = 0x0C) ∧ lba ≠ 0 then some lba else none

/-- `detect_ex`: the file system and the partition; `none` is `VFS_FS_NONE`. -/
def detectEx (d : Nat) : Option (FsType × Nat) :=
  if d ≥ v.activeDrives then none else
  let sec := v.readSector d 0
  if sec.get32 0 = fsMagic then some (.cosfs, 0) else
  if isFat32Bpb sec then some (.fat32, 0) else
  if sec.get 510 = 0x55 ∧ sec.get 511 = 0xAA then
    (List.range 4).findSome? fun i =>
      match partitionLba sec i with
      | some lba => if isFat32Bpb (v.readSector d lba) then some (.fat32, lba) else none
      | none => none
  else none

section

variable (d : Nat) (fs : FsType) (part : Nat)

/-- Where `hdr_io` finds the header: the LBA and the offset. -/
def hdrPlace : Option (Nat × Nat) :=
  match fs with
  | .cosfs => some (0, hdrCosOffset)
  | .fat32 =>
    if (v.readSector d part).get16 14 ≤ hdrFatSector then none
    else some ((part + hdrFatSector) % 2 ^ 32, 0)

/-- `hdr_io` for reading; `none` is `VFS_E_NOHDR`. -/
def hdrRead : Option Hdr :=
  (v.hdrPlace d fs part).map fun p => (v.readSector d p.1).slice p.2 320

/-- `hdr_io` for writing. -/
def hdrWrite (h : Hdr) : Int × Vfs :=
  match v.hdrPlace d fs part with
  | none => (vfsENohdr, v)
  | some p => (0, v.writeSector d p.1 ((v.readSector d p.1).splice p.2 320 h.get))

/-- `hdr_clear`. -/
def hdrClear : Vfs :=
  (v.hdrWrite d fs part Buf.zero).2

end

/-! ### The mount table -/

/-- `find_mount_exact`. -/
def findMountExact (abs : CStr) : Option Nat :=
  (List.range vfsMaxMounts).find? fun i =>
    (v.mounts i).used && strcaseEq (v.mounts i).mountpoint abs

/-- The length that `find_mount` compares. -/
def mountLen (m : VfsMount) : Nat := if m.isRoot then 1 else m.mountpoint.length

/-- One round of `find_mount`. -/
def betterMount (abs : CStr) (best : Option Nat) (i : Nat) : Option Nat :=
  let m := v.mounts i
  if !m.used || !pathWithin abs m.mountpoint then best else
  match best with
  | none => if mountLen m > 0 then some i else none
  | some b => if mountLen m > mountLen (v.mounts b) then some i else some b

/-- `find_mount`: the slot and the path relative to it. -/
def findMount (abs : CStr) : Option (Nat × CStr) :=
  ((List.range vfsMaxMounts).foldl (v.betterMount abs) none).map fun i =>
    let m := v.mounts i
    let r := if m.isRoot then abs.chars else abs.chars.drop m.mountpoint.length
    (i, if r = [] then rootPath else CStr.ofBytes r)

/-- `free_slot`. -/
def freeSlot : Option Nat :=
  (List.range vfsMaxMounts).find? fun i => !(v.mounts i).used

/-- `drive_refs(drive, except)`. -/
def driveRefs (d : Nat) (except : Option Nat) : Nat :=
  ((List.range vfsMaxMounts).filter fun i =>
    (v.mounts i).used && (v.mounts i).drive == d && some i != except).length

/-- One round of `find_last_by_drive`. -/
def laterMount (d : Nat) (best : Option Nat) (i : Nat) : Option Nat :=
  let m := v.mounts i
  if !m.used || m.drive != d then best else
  match best with
  | none => some i
  | some b => if m.seq > (v.mounts b).seq then some i else some b

/-- `find_last_by_drive`. -/
def findLastByDrive (d : Nat) : Option Nat :=
  (List.range vfsMaxMounts).foldl (v.laterMount d) none

/-! ### Using a mounted drive -/

/-- `init_fs` on drive `d`, which leaves its globals loaded. -/
def loadCos (d : Nat) : Vfs :=
  { v.putCos d (v.cosOn d).initFs with cosLoaded := some d }

/-- `ctx_enter`. -/
def ctxEnter (i : Nat) : Vfs :=
  let m := v.mounts i
  match m.fs with
  | .cosfs =>
    let v := if v.cosLoaded = some m.drive then v else v.loadCos m.drive
    { v with cos := { v.cos with gCurrentDir := 0 } }
  | .fat32 => { v with gFat32 := m.fat }

/-- `ctx_leave`. -/
def ctxLeave (i : Nat) : Vfs :=
  match (v.mounts i).fs with
  | .cosfs => v
  | .fat32 => v.setMount i { v.mounts i with fat := v.gFat32 }

/-- Run a backend operation of either kind on the drive of mount `i`. -/
def backend {α : Type} (v : Vfs) (i : Nat) (cos : Cos → α × Cos) (fat : Fat → Option (α × Fat)) :
    Option (α × Vfs) :=
  let m := v.mounts i
  match m.fs with
  | .cosfs =>
    let r := cos (v.cosOn m.drive)
    some (r.1, v.putCos m.drive r.2)
  | .fat32 => (fat (v.fatOn m.drive)).map fun r => (r.1, v.putFat m.drive r.2)

/-- `be_stat` on mount `i`. -/
def beStat (v : Vfs) (i : Nat) (rel : CStr) : Option (Option Cos.Vnode) :=
  let m := v.mounts i
  match m.fs with
  | .cosfs => some ((v.cosOn m.drive).beStat rel)
  | .fat32 => (v.fatOn m.drive).beStat rel

/-- `be_mkdir` on mount `i`. -/
def beMkdir (v : Vfs) (i : Nat) (rel : CStr) : Option (Int × Vfs) :=
  v.backend i (·.beMkdir rel) (·.beMkdir rel)

/-- `be_create` on mount `i`. -/
def beCreate (v : Vfs) (i : Nat) (rel tag : CStr) : Option (Int × Vfs) :=
  v.backend i (·.beCreate rel tag) (·.beCreate rel)

/-- `be_remove` on mount `i`. -/
def beRemove (v : Vfs) (i : Nat) (rel : CStr) : Option (Int × Vfs) :=
  v.backend i (·.beRemove rel) (·.beRemove rel)

/-- `be_truncate` on mount `i`. -/
def beTruncate (v : Vfs) (i : Nat) (rel tag : CStr) : Option (Int × Vfs) :=
  v.backend i (·.beTruncate rel tag) (·.beTruncate rel)

/-- `be_readdir` on mount `i`. -/
def beReaddir (v : Vfs) (i : Nat) (rel : CStr) (max : Nat) : Option (Except Int (List VfsDirent)) :=
  let m := v.mounts i
  match m.fs with
  | .cosfs => some ((v.cosOn m.drive).beReaddir rel max)
  | .fat32 => (v.fatOn m.drive).beReaddir rel max

/-- Enter the drive of mount `i`, run `f`, and leave it. -/
def within {α : Type} (v : Vfs) (i : Nat) (f : Vfs → Option (α × Vfs)) : Option (α × Vfs) :=
  (f (v.ctxEnter i)).map fun r => (r.1, r.2.ctxLeave i)

/-- `ensure_dir_abs`. -/
def ensureDirAbs (abs : CStr) : Option (Int × Vfs) :=
  match v.findMount abs with
  | none => some (vfsENoroot, v)
  | some (i, rel) => v.within i fun v => do
      match ← v.beStat i rel with
      | some n => return (if n.isDir then 0 else vfsENotdir, v)
      | none => v.beMkdir i rel

/-- `remove_abs`. -/
def removeAbs (abs : CStr) : Option (Int × Vfs) :=
  match v.findMount abs with
  | none => some (vfsENoroot, v)
  | some (i, rel) => v.within i (·.beRemove i rel)

/-- The slots that `persist` stores, in the order of mounting. -/
def persisted : List Nat :=
  ((List.range vfsMaxMounts).filter fun i =>
    (v.mounts i).used && !(v.mounts i).isRoot && targetOk (v.mounts i).mountpoint).mergeSort
    fun i j => decide ((v.mounts i).seq ≤ (v.mounts j).seq)

/-- The header that `persist` writes. -/
def header : Hdr :=
  let list := v.persisted.take hdrMaxMounts
  let h : Hdr := (Buf.zero.put32 0 hdrMagic).put8 4 1
  let h := (list.zipIdx.foldl (fun (h : Hdr) ik =>
    let m := v.mounts ik.1
    h.putMount ik.2 (v.drives m.drive).ataBase (v.drives m.drive).isSlave m.mountpoint) h)
  h.put8 5 (BitVec.ofNat 8 list.length)

/-- `persist`. -/
def persist : Int × Vfs :=
  match v.root with
  | none => (vfsENoroot, v)
  | some r =>
    let m := v.mounts r
    v.hdrWrite m.drive m.fs m.partLba v.header

/-- `mount_backend`, for slot `i`. -/
def mountBackend (i d : Nat) (fs : FsType) (part : Nat) : Int × Vfs :=
  let v := v.setMount i { zeroMount with drive := d, fs, partLba := part }
  match fs with
  | .cosfs =>
    let v := { v.putCos d (v.cosOn d).initFs with cosLoaded := none }
    if v.cos.gSuperblock.magic ≠ fsMagic then (vfsEIo, v) else
    (0, { v with cosLoaded := some d })
  | .fat32 =>
    let r := (v.fatOn d).fat32Mount part
    let v := v.putFat d r.2
    if r.1 ≠ 0 then (vfsEIo, v) else
    (0, v.setMount i { v.mounts i with fat := v.gFat32 })

/-- `backend_unmount`. -/
def backendUnmount (i : Nat) : Vfs :=
  let m := v.mounts i
  if v.driveRefs m.drive (some i) > 0 then v else
  match m.fs with
  | .cosfs => if v.cosLoaded = some m.drive then { v with cosLoaded := none } else v
  | .fat32 =>
    let v := v.ctxEnter i
    v.putFat m.drive (v.fatOn m.drive).fat32Unmount

/-- `set_cwd_default`. -/
def setCwdDefault : Option Vfs :=
  let v := { v with cwd := rootPath }
  match v.findMount userDir with
  | none => some v
  | some (i, rel) =>
    let v := v.ctxEnter i
    (v.beStat i rel).map fun r =>
      (if (r.map (·.isDir)) = some true then { v with cwd := userDir } else v).ctxLeave i

/-- The loop of `do_mount` that makes the default directories. -/
def ensureDefaults (v : Vfs) : List CStr → Option Vfs
  | [] => some v
  | name :: names => do
      let r ← v.ensureDirAbs (CStr.ofBytes (slash :: name.chars))
      ensureDefaults r.2 names

/-- The checks of `do_mount` on the target. -/
def mountTarget (t : CStr) : Int :=
  if t = rootPath then (if v.root.isSome then vfsEBusy else 0) else
  if v.root.isNone then vfsENoroot else
  if !targetOk t then vfsETarget else
  if (v.findMountExact t).isSome then vfsEBusy else 0

/-- The directories that `do_mount` needs at the target. -/
def mountDirs (t : CStr) : Option (Int × Vfs) :=
  if t = rootPath then some (0, v) else
  if pathWithin t mountDir then do
    let r ← v.ensureDirAbs mountDir
    if r.1 ≠ 0 then return r else r.2.ensureDirAbs t
  else v.ensureDirAbs t

/-- What `do_mount` does once slot `i` is in use. -/
def mountPublished (i : Nat) (isRoot boot : Bool) : Option (Int × Vfs) :=
  if isRoot then do
    let v := { v.setMount i { v.mounts i with isRoot := true } with root := some i }
    if boot then return (0, ← v.setCwdDefault) else
    let v ← v.ensureDefaults Cos.defaultDirs
    let r := v.persist
    if r.1 ≠ 0 then
      let v := r.2.backendUnmount i
      return (r.1, { v.setMount i { v.mounts i with used := false } with root := none })
    else return (0, ← r.2.setCwdDefault)
  else some (0, if boot then v else v.persist.2)

/-- `do_mount`. -/
def doMount (d : Nat) (t : CStr) (boot : Bool) : Option (Int × Vfs) :=
  if v.mountTarget t ≠ 0 then some (v.mountTarget t, v) else
  match v.detectEx d, v.freeSlot with
  | none, _ => some (vfsENofs, v)
  | some _, none => some (vfsEBusy, v)
  | some (fs, part), some i => do
      let r ← v.mountDirs t
      if r.1 ≠ 0 then return r else
      let r := r.2.mountBackend i d fs part
      if r.1 ≠ 0 then return r else
      let v := r.2
      let v := { v.setMount i { v.mounts i with
        mountpoint := t, used := true, seq := v.seq + 1 } with seq := v.seq + 1 }
      v.mountPublished i (t = rootPath) boot

/-- The loop of `vfs_parse_drive`: the number and what follows it. -/
def parseDriveDigits : List Byte → Nat → Nat → Option (Nat × List Byte)
  | [], n, count => if count = 0 then none else some (n, [])
  | c :: cs, n, count =>
    if c = dot then (if count = 0 then none else some (n, c :: cs)) else
    if c < 0x30 ∨ c > 0x39 then none else
    let n := n * 10 + (c.toNat - 0x30)
    if n > 99 then none else parseDriveDigits cs n (count + 1)

/-- `vfs_parse_drive`; `none` is `-1`. -/
def parseDrive (s : CStr) : Option Nat :=
  let l := match s.chars with
    | c :: cs => if c = 0x64 ∨ c = 0x44 then cs else c :: cs
    | [] => []
  (parseDriveDigits l 0 0).bind fun r =>
    if r.2 ≠ [] ∧ r.2 ≠ [dot, 0x30] then none else
    if r.1 ≥ v.activeDrives then none else some r.1

/-- The mount that `do_umount` is about. -/
def umountSlot (what : CStr) : Except Int Nat :=
  if what.chars = [] then .error vfsENotmounted else
  match if what.at' 0 ≠ slash then v.parseDrive what else none with
  | some d => (v.findLastByDrive d).elim (.error vfsENotmounted) .ok
  | none =>
    match normalize v.cwd what with
    | none => .error vfsEPath
    | some abs => (v.findMountExact abs).elim (.error vfsENotmounted) .ok

/-- The checks of `do_umount`: nothing is mounted below and nothing is open. -/
def umountBusy (i : Nat) : Bool :=
  (List.range vfsMaxMounts).any (fun j => j != i && (v.mounts j).used &&
    ((v.mounts i).isRoot ||
      (!(v.mounts j).isRoot && pathWithin (v.mounts j).mountpoint (v.mounts i).mountpoint))) ||
  (List.range vfsMaxFds).any fun fd => (v.files fd).used && (v.files fd).mount == i

/-- `do_umount`. -/
def doUmount (what : CStr) : Int × Vfs :=
  match v.umountSlot what with
  | .error e => (e, v)
  | .ok i =>
    if v.umountBusy i then (vfsEBusy, v) else
    let m := v.mounts i
    let v := v.backendUnmount i
    let v := v.setMount i { v.mounts i with used := false }
    if m.isRoot then
      let v := { v with root := none }
      let v := if v.driveRefs m.drive none = 0 then v.hdrClear m.drive m.fs m.partLba else v
      (0, { v with cwd := rootPath })
    else
      let v := v.persist.2
      (0, if pathWithin v.cwd m.mountpoint then { v with cwd := rootPath } else v)

/-- The default directories of a new FAT32 volume. -/
def fatDefaults (s : Fat) : List CStr → Option Fat
  | [] => some s
  | name :: names => do
      let r ← s.fat32CreateDir s.gFat32.rootCluster name
      fatDefaults r.2 names

/-- `do_format`. -/
def doFormat (d : Nat) (fs : FsType) : Option (Int × Vfs) :=
  match fs with
  | .cosfs =>
    if (v.drives d).totalSectors < 1024 then some (vfsEToosmall, v) else
    let v := v.putCos d { (v.cosOn d).qformatFs with gCurrentDir := 0 }
    let loaded := if v.cos.gSuperblock.magic = fsMagic then some d else none
    some (if loaded.isNone then vfsEIo else 0, { v with cosLoaded := loaded })
  | .fat32 =>
    if (v.drives d).totalSectors = 0 then some (vfsENodrive, v) else
    let r := (v.fatOn d).fat32Format 0 (v.drives d).totalSectors 0
    if r.1 ≠ 0 then some (vfsEToosmall, v.putFat d r.2) else
    (fatDefaults r.2 Cos.defaultDirs).map fun s =>
      (0, (v.putFat d s.fat32Unmount).hdrClear d .fat32 0)

/-! ### Descriptors -/

/-- The flags of `open`. -/
structure OpenFlags where
  /-- `flags & 3` is not 0. -/
  writable : Bool
  creat : Bool
  excl : Bool
  trunc : Bool
  append : Bool

/-- `read_at`: the descriptor as it is afterwards, and the bytes read. -/
def readAt (m : VfsMount) (f : VfsFile) (off n : Nat) : VfsFile × List Byte :=
  match m.fs with
  | .cosfs =>
    let s := v.cosOn m.drive
    let node := s.readInode f.id
    ({ f with size := node.size }, s.fsRead f.id node off n)
  | .fat32 => (f, (v.fatOn m.drive).fat32Read f.id f.size off n)

/-- A `uint32_t` as a `long`. -/
def toLong (n : Nat) : Int := (n : Int).bmod (2 ^ 32)

/-- `total` in `fat_write_at`, the size of the buffer for a file that is rewritten. -/
def rewriteTotal (size pos len : Nat) : Nat :=
  let «end» := (pos + len) % 2 ^ 32
  if «end» > size then «end» else size

/-- What `fat_write_at` stores when it rewrites the file: the old contents, zeros up to
`pos`, and the data over them, as far as the buffer goes. -/
def overlay (old : List Byte) (pos : Nat) (data : List Byte) : List Byte :=
  (List.range (rewriteTotal old.length pos data.length)).map fun i =>
    if pos ≤ i ∧ i < pos + data.length then data.getD (i - pos) 0 else old.getD i 0

/-- `fat_write_at`; memory is never short, and `malloc` has no buffer of 0 bytes. What the copy of
the data puts behind the end of the buffer is not modelled. -/
def fatWriteAt (s : Fat) (f : VfsFile) (pos : Nat) (data : List Byte) :
    Option (Int × VfsFile × Fat) :=
  if data = [] then some (0, f, s) else
  match splitRel f.rel with
  | none => some (vfsEName, f, s)
  | some (parent, leaf) => do
      match ← s.fatParentCluster parent with
      | .error _ => return (vfsEIo, f, s)
      | .ok dc =>
        let old := s.fat32Read f.id f.size 0 f.size
        if pos ≠ f.size ∧ (rewriteTotal f.size pos data.length = 0 ∨
          f.size ≠ 0 ∧ old.length ≠ f.size) then return (vfsEIo, f, s) else
        let r ← if pos = f.size then s.fat32AppendFile dc leaf data
          else s.fat32WriteFile dc leaf (overlay old pos data)
        if r.1 ≠ 0 then return (vfsEIo, f, r.2) else
        match ← r.2.fat32Stat f.rel with
        | none => return (vfsEIo, f, r.2)
        | some fresh =>
          return (toLong data.length,
            { f with id := fresh.firstCluster, size := fresh.size }, r.2)

/-- `cos_write_at`. -/
def cosWriteAt (s : Cos) (f : VfsFile) (pos : Nat) (data : List Byte) : Int × VfsFile × Cos :=
  if data = [] then (0, f, s) else
  let r := s.fsWrite f.id pos data
  if r.1 < 0 then (vfsEIo, f, r.2) else
  (r.1, { f with size := (r.2.readInode f.id).size }, r.2)

/-- `fget`. -/
def fget (fd : Nat) : Option VfsFile :=
  if fd < vfsMaxFds ∧ (v.files fd).used then some (v.files fd) else none

/-- The slot for a descriptor; a negative one is out of range. -/
def fdIndex (fd : Int) : Nat := if fd < 0 then vfsMaxFds else fd.toNat

/-- The descriptor slot that `open_locked` takes. -/
def freeFd : Option Nat := (List.range vfsMaxFds).find? fun fd => !(v.files fd).used

/-- What `open_locked` does with the file itself: an error, or its `vnode_t`. -/
def openNode (i : Nat) (rel : CStr) (fl : OpenFlags) (tag : CStr) :
    Option (Except Int Cos.Vnode × Vfs) := do
  let restat (r : Int × Vfs) : Option (Except Int Cos.Vnode × Vfs) :=
    if r.1 ≠ 0 then some (.error r.1, r.2) else
    (r.2.beStat i rel).map fun n => (n.elim (.error vfsENoent) .ok, r.2)
  match ← v.beStat i rel with
  | none => if fl.creat then restat (← v.beCreate i rel tag) else return (.error vfsENoent, v)
  | some n =>
    if n.isDir then return (.error vfsEIsdir, v) else
    if fl.creat && fl.excl then return (.error vfsEExist, v) else
    if fl.trunc && fl.writable then restat (← v.beTruncate i rel tag) else return (.ok n, v)

/-- `open_locked`. -/
def openLocked (path : CStr) (fl : OpenFlags) (tag : CStr) : Option (Int × Vfs) :=
  match normalize v.cwd path with
  | none => some (vfsEPath, v)
  | some abs =>
    match v.findMount abs, v.freeFd with
    | none, _ => some (vfsENoroot, v)
    | some _, none => some (vfsEMfile, v)
    | some (i, rel), some fd => do
        let r ← v.within i (·.openNode i rel fl tag)
        match r.1 with
        | .error e => return (e, r.2)
        | .ok n =>
          let v := r.2.setFile fd
            ⟨true, i, fl.writable, fl.append, if fl.append then n.size else 0, n.size, n.id, rel⟩
          return (fd, v.setMount i { v.mounts i with openCount := (v.mounts i).openCount + 1 })

/-! ### The calls -/

/-- `vfs_mount`. -/
def vfsMount (drive target : CStr) : Option (Int × Vfs) :=
  match v.parseDrive drive with
  | none => some (vfsENodrive, v)
  | some d =>
    match normalize v.cwd target with
    | none => some (vfsEPath, v)
    | some t => v.doMount d t false

/-- `vfs_umount`. -/
def vfsUmount (what : CStr) : Int × Vfs := v.doUmount what

/-- The file system that `vfs_format` takes a name for: `cosfs`, `cos`, `fat32` or `fat`. -/
def fsByName (fsname : CStr) : Option FsType :=
  let is (l : List Byte) : Bool := strcaseEq fsname (CStr.ofBytes l)
  if is [0x63, 0x6F, 0x73, 0x66, 0x73] || is [0x63, 0x6F, 0x73] then some .cosfs else
  if is [0x66, 0x61, 0x74, 0x33, 0x32] || is [0x66, 0x61, 0x74] then some .fat32 else none

/-- `vfs_format`. -/
def vfsFormat (drive fsname : CStr) : Option (Int × Vfs) :=
  match v.parseDrive drive with
  | none => some (vfsENodrive, v)
  | some d =>
    match fsByName fsname with
    | none => some (vfsEFsname, v)
    | some fs => if v.driveRefs d none > 0 then some (vfsEMounted, v) else v.doFormat d fs

/-- What `vfs_chdir` and `vfs_stat` ask of the mount that `abs` is on. -/
def statAbs (abs : CStr) : Option (Except Int Cos.Vnode × Vfs) :=
  match v.findMount abs with
  | none => some (.error vfsENoroot, v)
  | some (i, rel) => v.within i fun v =>
    (v.beStat i rel).map fun n => (n.elim (.error vfsENoent) .ok, v)

/-- `vfs_chdir`. -/
def vfsChdir (path : CStr) : Option (Int × Vfs) :=
  match normalize v.cwd path with
  | none => some (vfsEPath, v)
  | some abs =>
    (v.statAbs abs).map fun r =>
      match r.1 with
      | .error e => (e, r.2)
      | .ok n => if !n.isDir then (vfsENotdir, r.2) else (0, { r.2 with cwd := abs })

/-- `vfs_stat`. -/
def vfsStat (path : CStr) : Option (Except Int Cos.Vnode × Vfs) :=
  match normalize v.cwd path with
  | none => some (.error vfsEPath, v)
  | some abs => v.statAbs abs

/-- `vfs_readdir`. -/
def vfsReaddir (path : CStr) (max : Nat) : Option (Except Int (List VfsDirent) × Vfs) :=
  match normalize v.cwd path with
  | none => some (.error vfsEPath, v)
  | some abs =>
    match v.findMount abs with
    | none => some (.error vfsENoroot, v)
    | some (i, rel) => v.within i fun v => (v.beReaddir i rel max).map fun r => (r, v)

/-- `vfs_mkdir`. -/
def vfsMkdir (path : CStr) : Option (Int × Vfs) :=
  match normalize v.cwd path with
  | none => some (vfsEPath, v)
  | some abs =>
    match v.findMount abs with
    | none => some (vfsENoroot, v)
    | some (i, rel) =>
      if (v.findMountExact abs).isSome then some (vfsEExist, v)
      else v.within i (·.beMkdir i rel)

/-- `vfs_remove`. -/
def vfsRemove (path : CStr) : Option (Int × Vfs) :=
  match normalize v.cwd path with
  | none => some (vfsEPath, v)
  | some abs => if (v.findMountExact abs).isSome then some (vfsEBusy, v) else v.removeAbs abs

/-- The tag `"file"`. -/
def fileTag : CStr := ⟨[0x66, 0x69, 0x6C, 0x65], by decide⟩

/-- `vfs_open`. -/
def vfsOpen (path : CStr) (fl : OpenFlags) : Option (Int × Vfs) :=
  v.openLocked path fl fileTag

/-- `vfs_close`. -/
def vfsClose (fd : Nat) : Int × Vfs :=
  match v.fget fd with
  | none => (vfsEBadf, v)
  | some f =>
    let v := v.setMount f.mount
      { v.mounts f.mount with openCount := (v.mounts f.mount).openCount - 1 }
    (0, v.setFile fd { f with used := false })

/-- `vfs_pread`: the bytes stored, whose number is returned as a `long`; `none` is `-1`. -/
def vfsPread (fd offset count : Nat) : Option (List Byte) × Vfs :=
  match v.fget fd with
  | none => (none, v)
  | some f =>
    let v := v.ctxEnter f.mount
    let r := v.readAt (v.mounts f.mount) f offset count
    (some r.2, (v.setFile fd r.1).ctxLeave f.mount)

/-- `vfs_read`: the bytes stored, whose number is returned as a `long`; `none` is `-1`. -/
def vfsRead (fd count : Nat) : Option (List Byte) × Vfs :=
  match v.fget fd with
  | none => (none, v)
  | some f =>
    let v := v.ctxEnter f.mount
    let r := v.readAt (v.mounts f.mount) f f.pos count
    let pos := if toLong r.2.length > 0 then (f.pos + r.2.length) % 2 ^ 32 else f.pos
    (some r.2, (v.setFile fd { r.1 with pos := pos }).ctxLeave f.mount)

/-- `vfs_write`. -/
def vfsWrite (fd : Nat) (data : List Byte) : Option (Int × Vfs) :=
  match v.fget fd with
  | none => some (-1, v)
  | some f =>
    if !f.writable then some (-1, v) else
    let f := if f.append then { f with pos := f.size } else f
    let v := v.ctxEnter f.mount
    let m := v.mounts f.mount
    let done (r : Int) (f : VfsFile) (v : Vfs) : Int × Vfs :=
      let f := if r > 0 then { f with pos := (f.pos + r.toNat) % 2 ^ 32 } else f
      (if r < 0 then -1 else r, (v.setFile fd f).ctxLeave f.mount)
    match m.fs with
    | .cosfs =>
      let r := cosWriteAt (v.cosOn m.drive) f f.pos data
      some (done r.1 r.2.1 (v.putCos m.drive r.2.2))
    | .fat32 =>
      (fatWriteAt (v.fatOn m.drive) f f.pos data).map fun r =>
        done r.1 r.2.1 (v.putFat m.drive r.2.2)

/-- What `vfs_lseek` adds the offset to; `-1` for a `whence` that it does not know. -/
def seekBase (f : VfsFile) (whence : Int) : Int :=
  if whence = 0 then 0 else if whence = 1 then toLong f.pos else
  if whence = 2 then toLong f.size else -1

/-- `vfs_lseek`. -/
def vfsLseek (fd : Nat) (offset whence : Int) : Int × Vfs :=
  match v.fget fd with
  | none => (-1, v)
  | some f =>
    let base := seekBase f whence
    let pos := (base + offset).bmod (2 ^ 32)
    if base ≥ 0 ∧ pos ≥ 0 then (pos, v.setFile fd { f with pos := pos.toNat }) else (-1, v)

/-- `vfs_fsize`. -/
def vfsFsize (fd : Nat) : Int := (v.fget fd).elim (-1) fun f => toLong f.size

/-- `vfs_sync`; `save_block_bitmap` has an empty body. -/
def vfsSync : Vfs :=
  match v.cosLoaded with
  | none => v
  | some d => v.putCos d (v.cosOn d).saveInodeBitmap

/-- The loop of `vfs_shutdown`. -/
def unmountAll (v : Vfs) : Nat → Vfs
  | 0 => v
  | i + 1 =>
    if (v.mounts i).used then
      let v := v.backendUnmount i
      unmountAll (v.setMount i { v.mounts i with used := false }) i
    else unmountAll v i

/-- `vfs_shutdown`. -/
def vfsShutdown : Vfs := { v.vfsSync.unmountAll vfsMaxMounts with root := none }

/-- The header that `vfs_init` sees on a drive. -/
def bootHdr (d : Nat) : Option Hdr := do
  let (fs, part) ← v.detectEx d
  let h ← v.hdrRead d fs part
  let h := if h.magic = hdrMagicV1 then h.ofV1 else h
  if h.magic = hdrMagic ∧ h.isRoot then some h else none

/-- The drive that a header record names. -/
def hdrDrive (h : Hdr) (k : Nat) : Option Nat :=
  (List.range v.activeDrives).find? fun d =>
    (v.drives d).ataBase == h.ataBase k && (v.drives d).isSlave == h.isSlave k

/-- The last loop of `vfs_init`: mount what the header lists. -/
def remount (v : Vfs) (h : Hdr) : List Nat → Option Vfs
  | [] => some v
  | k :: ks =>
    match if h.used k then v.hdrDrive h k else none with
    | none => remount v h ks
    | some d =>
      if (h.path k).at' 0 ≠ slash then remount v h ks else do
        let r ← v.doMount d (h.path k) true
        remount r.2 h ks

/-- The tables that `vfs_init` starts from. -/
def cleared : Vfs :=
  { v with mounts := fun _ => zeroMount, files := fun _ => zeroFile, root := none,
           cosLoaded := none, seq := 0, cwd := rootPath }

/-- `vfs_init`. -/
def vfsInit : Option Vfs :=
  let v := v.cleared
  match (List.range v.activeDrives).findSome? fun d => (v.bootHdr d).map fun h => (d, h) with
  | none => some v
  | some (d, h) => do
      let r ← v.doMount d rootPath true
      if r.1 ≠ 0 then return r.2 else
      (← r.2.remount h (List.range (min h.count hdrMaxMounts))).setCwdDefault

end Vfs

end Crusadia
