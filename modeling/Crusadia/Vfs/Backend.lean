import Crusadia.Fat.Model
import Crusadia.Vfs.Cos

/-!
# Crusadia.Vfs.Backend

The operations that the VFS layer asks of a mounted file system, for either kind: `be_stat`,
`be_mkdir`, `be_create`, `be_remove`, `be_truncate` and `be_readdir`. The first three for a
COS mount are in `Crusadia.Vfs.Cos`; here are the others and all of them for FAT32. On FAT32
an outer `none` is a walk that does not end.
-/

namespace Crusadia

/-- `VFS_E_BUSY`. -/
def vfsEBusy : Int := -6

/-- `VFS_E_NOTEMPTY`. -/
def vfsENotempty : Int := -18

/-- `"/"`. -/
def rootPath : CStr := CStr.ofBytes [slash]

/-- `vfs_dirent_t`. -/
structure VfsDirent where
  name : CStr
  isDir : Bool
  size : Nat

namespace Cos

/-- `be_remove`. -/
def beRemove (s : Cos) (rel : CStr) : Int × Cos :=
  if rel = rootPath then (vfsEBusy, s) else
  match splitRel rel with
  | none => (vfsEName, s)
  | some (parent, leaf) =>
    match s.beStat rel, s.cosResolve parent with
    | none, _ => (vfsENoent, s)
    | some _, none => (vfsENoent, s)
    | some v, some p =>
      if v.isDir && !s.fsDirIsEmpty v.id then (vfsENotempty, s) else
      let r := s.fsDeleteIn p leaf
      (if r.1 < 0 then vfsEIo else 0, r.2)

/-- The tag that `be_truncate` keeps: the file's own, or `tag` if it has none. -/
def keptTag (node : Inode) (tag : CStr) : CStr :=
  if node.raw.get 65 ≠ 0 then CStr.ofBytes ((List.range 12).map fun i => node.raw.get (65 + i))
  else CStr.ofBytes (tag.chars.take 12)

/-- `be_truncate`. -/
def beTruncate (s : Cos) (rel tag : CStr) : Int × Cos :=
  match splitRel rel with
  | none => (vfsEName, s)
  | some (parent, leaf) =>
    match s.cosResolve rel, s.cosResolve parent with
    | some idx, some p =>
      let keep := keptTag (s.readInode idx) tag
      let r := s.fsDeleteIn p leaf
      if r.1 < 0 then (vfsEIo, r.2) else r.2.beCreate rel keep
    | _, _ => (vfsENoent, s)

/-- The directory slots that `be_readdir` looks at: block by block, holes skipped. -/
def dirSlots (s : Cos) (dir : Inode) : List (Sector × Nat) :=
  (List.range inodeDirect).flatMap fun b =>
    if dir.ptr b = 0 then [] else
    (List.range 16).map fun i => (s.blockRead (dir.ptr b), i)

/-- `be_readdir`. -/
def beReaddir (s : Cos) (rel : CStr) (max : Nat) : Except Int (List VfsDirent) :=
  match s.beStat rel with
  | none => .error vfsENoent
  | some v =>
    if !v.isDir then .error vfsENotdir else
    let live := (s.dirSlots (s.readInode v.id)).filter fun e =>
      entInode e.1 e.2 ≠ 0 ∧ entInode e.1 e.2 < s.gSuperblock.inodeCount
    .ok <| (live.take max).map fun e =>
      let child := s.readInode (entInode e.1 e.2)
      ⟨CStr.ofBytes ((List.range 28).map (entName e.1 e.2)), child.type = 2, child.size⟩

end Cos

namespace Fat

/-- `fat_parent_cluster`. -/
def fatParentCluster (s : Fat) (parentRel : CStr) : Option (Except Int Nat) :=
  if parentRel = rootPath then some (.ok s.gFat32.rootCluster) else
  (s.fat32Stat parentRel).map fun
    | none => .error vfsENoent
    | some d =>
      if d.attr &&& fat32AttrDir = 0 then .error vfsENotdir
      else .ok (if d.firstCluster = 0 then s.gFat32.rootCluster else d.firstCluster)

section

variable (s : Fat) (rel : CStr)

/-- `be_stat`; the inner `none` is `VFS_E_NOENT`. -/
def beStat : Option (Option Cos.Vnode) :=
  if rel = rootPath then some (some ⟨true, 0, s.gFat32.rootCluster⟩) else
  (s.fat32Stat rel).map fun r =>
    r.map fun d => ⟨d.attr &&& fat32AttrDir != 0, d.size, d.firstCluster⟩

/-- What `be_mkdir` and `be_create` do before they create anything. -/
def beParent : Option (Except Int (Nat × CStr)) :=
  match splitRel rel with
  | none => some (.error vfsEName)
  | some (parent, leaf) =>
    if !nameOk .fat32 leaf then some (.error vfsEName) else do
      if (← s.beStat rel).isSome then return .error vfsEExist else
      match ← s.fatParentCluster parent with
      | .error e => return .error e
      | .ok dc => return .ok (dc, leaf)

/-- `be_mkdir`. -/
def beMkdir : Option (Int × Fat) := do
  match ← s.beParent rel with
  | .error e => return (e, s)
  | .ok (dc, leaf) =>
    let r ← s.fat32CreateDir dc leaf
    return (if r.1 ≠ 0 then vfsEIo else 0, r.2)

/-- `be_create`. -/
def beCreate : Option (Int × Fat) := do
  match ← s.beParent rel with
  | .error e => return (e, s)
  | .ok (dc, leaf) =>
    let r ← s.fat32WriteFile dc leaf []
    return (if r.1 ≠ 0 then vfsEIo else 0, r.2)

/-- `be_remove`. -/
def beRemove : Option (Int × Fat) :=
  if rel = rootPath then some (vfsEBusy, s) else
  match splitRel rel with
  | none => some (vfsEName, s)
  | some (parent, leaf) => do
      match ← s.beStat rel with
      | none => return (vfsENoent, s)
      | some v =>
        match ← s.fatParentCluster parent with
        | .error e => return (e, s)
        | .ok dc =>
          if v.isDir then
            let r ← s.fat32RemoveDir dc leaf
            return (if r.1 = -2 then vfsENotempty else if r.1 = 0 then 0 else vfsEIo, r.2)
          else
            let r ← s.fat32DeleteFile dc leaf
            return (if r.1 = 0 then 0 else vfsEIo, r.2)

/-- `be_truncate`. -/
def beTruncate : Option (Int × Fat) :=
  match splitRel rel with
  | none => some (vfsEName, s)
  | some (parent, leaf) => do
      match ← s.fatParentCluster parent with
      | .error e => return (e, s)
      | .ok dc =>
        let r ← s.fat32WriteFile dc leaf []
        return (if r.1 ≠ 0 then vfsEIo else 0, r.2)

end

/-- `FAT_TMP_MAX`. -/
def fatTmpMax : Nat := 130

/-- `"."` or `".."`. -/
def isDots (name : CStr) : Bool := name.chars == [dot] || name.chars == [dot, dot]

/-- `be_readdir`. -/
def beReaddir (s : Fat) (rel : CStr) (max : Nat) : Option (Except Int (List VfsDirent)) := do
  match ← s.beStat rel with
  | none => return .error vfsENoent
  | some v =>
    if !v.isDir then return .error vfsENotdir else
    match ← s.fat32ListDir v.id (min (max + 2) fatTmpMax) with
    | none => return .error vfsEIo
    | some got =>
      return .ok <| ((got.filter fun d => !isDots d.name).take max).map fun d =>
        ⟨d.name, d.attr &&& fat32AttrDir != 0, d.size⟩

end Fat

end Crusadia
