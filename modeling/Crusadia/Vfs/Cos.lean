import Crusadia.Cos.Stale
import Crusadia.Vfs.Path

/-!
# Crusadia.Vfs.Cos

The VFS layer on a COS mount: `cos_resolve`, `be_stat`, `be_mkdir` and `be_create`, and
**when a failed creation leaves traces**.

A creation is four updates: an inode bit, a block, the inode record and the directory
entry. `fs_create_file` and `fs_create_dir` undo the first when there is no block, but they
ignore what `dir_add` returns. When the directory has no room for the entry the inode and
its block stay behind, and `be_create` and `be_mkdir` report an error because the path does
not resolve. `Cos.Strands` is that case in terms of the state before the call.
-/

namespace Crusadia

/-! ### Error codes -/

/-- `VFS_E_IO`. -/
def vfsEIo : Int := -8

/-- `VFS_E_NAME`. -/
def vfsEName : Int := -12

/-- `VFS_E_NOENT`. -/
def vfsENoent : Int := -13

/-- `VFS_E_EXIST`. -/
def vfsEExist : Int := -14

/-- `VFS_E_NOTDIR`. -/
def vfsENotdir : Int := -15

namespace Cos

/-- One round of `cos_resolve`: the component `comp` of directory `cur`. -/
def resolveStep (s : Cos) (cur : Nat) (comp : CStr) : Option Nat :=
  let dir := s.readInode cur
  if dir.type ≠ 2 then none else s.dirLookup dir comp

/-- The loop of `cos_resolve`, from inode `cur` on. -/
def resolveFrom (s : Cos) : List CStr → Nat → Option Nat
  | [], cur => some cur
  | comp :: comps, cur => (s.resolveStep cur comp).bind (resolveFrom s comps)

/-- `cos_resolve`; `none` is `-1`. -/
def cosResolve (s : Cos) (rel : CStr) : Option Nat := s.resolveFrom (components rel) 0

/-- `vnode_t`. -/
structure Vnode where
  isDir : Bool
  size : Nat
  id : Nat

section

variable (s : Cos) (rel : CStr)

/-- `be_stat`; `none` is `VFS_E_NOENT`, the only error on a COS mount. -/
def beStat : Option Vnode :=
  (s.cosResolve rel).map fun idx =>
    let n := s.readInode idx
    ⟨n.type = 2, n.size, idx⟩

/-- What `be_mkdir` and `be_create` do before they create anything: the parent's inode and
the last component, or the error. -/
def beParent : Except Int (Nat × CStr) :=
  match splitRel rel with
  | none => .error vfsEName
  | some (parent, leaf) =>
    if !nameOk .cosfs leaf then .error vfsEName else
    if (s.beStat rel).isSome then .error vfsEExist else
    match s.cosResolve parent with
    | none => .error vfsENoent
    | some p =>
      if (s.readInode p).type ≠ 2 then .error vfsENotdir else .ok (p, leaf)

/-- What both do after it: the path must resolve now. -/
def beFinish (created : Option Nat) : Int :=
  if created.isNone then vfsEIo else
  if (s.cosResolve rel).isNone then vfsEIo else 0

/-- `be_mkdir`. -/
def beMkdir : Int × Cos :=
  match s.beParent rel with
  | .error e => (e, s)
  | .ok (p, leaf) =>
    let r := s.fsCreateDir leaf p
    (r.2.beFinish rel r.1, r.2)

end

/-- `be_create`. -/
def beCreate (s : Cos) (rel tag : CStr) : Int × Cos :=
  match s.beParent rel with
  | .error e => (e, s)
  | .ok (p, leaf) =>
    let r := { s with gCurrentDir := p }.fsCreateFile leaf tag
    let s := { r.2 with gCurrentDir := 0 }
    (s.beFinish rel r.1, s)

/-- One call on a mounted drive: a call of the file system, `be_mkdir` or `be_create`. -/
def MountStep (s s' : Cos) : Prop :=
  Step s s' ∨ (∃ rel, s' = (s.beMkdir rel).2) ∨ ∃ rel tag, s' = (s.beCreate rel tag).2

/-- State `s` of the drive is reached after formatting `s₀` and mounting it. -/
def MountRun (s0 s : Cos) : Prop := Relation.ReflTransGen MountStep s0.qformatFs s

/-! ### What a failed call must leave -/

/-- Inode `i`'s bit in the inode bitmap on the drive. -/
def inodeBit (s : Cos) (i : Nat) : Bool :=
  (s.blockRead (s.gSuperblock.bitmapStart + s.blockBitmapSectors + i / 4096)).bit (i % 4096)

/-- Both bitmaps and every directory are as before. -/
structure Untouched (s s' : Cos) : Prop where
  inodes : ∀ i, i < s.gSuperblock.inodeCount →
    s'.inodeBitmap.bit i = s.inodeBitmap.bit i ∧ s'.inodeBit i = s.inodeBit i
  blocks : ∀ b, b < s.gSuperblock.totalBlocks → s'.blockBit b = s.blockBit b
  dirs : ∀ d, s'.DirInode d ↔ s.DirInode d
  contents : ∀ d, s.DirInode d → s'.readInode d = s.readInode d ∧
    ∀ b, b < 12 → (s.readInode d).ptr b ≠ 0 →
      s'.blockRead ((s.readInode d).ptr b) = s.blockRead ((s.readInode d).ptr b)

/-- A call that fails leaves everything as it was. -/
def Atomic (s : Cos) (call : Int × Cos) : Prop := call.1 ≠ 0 → s.Untouched call.2

/-- There is an inode and a block for a new object, but no room for its entry in directory
`p`: every slot is taken, and the directory cannot grow, either because it has its twelve
blocks or because the object takes the last free one. -/
structure Strands (L : Layout) (s : Cos) (p : Nat) : Prop where
  inode : ∃ i, i < s.gSuperblock.inodeCount ∧ s.inodeBitmap.bit i = false
  block : 0 < s.img.free L
  slots : ∀ b k, b < 12 → k < 16 → (s.readInode p).ptr b ≠ 0 →
    entInode (s.blockRead ((s.readInode p).ptr b)) k ≠ 0
  grow : (s.readInode p).ptr 11 ≠ 0 ∨ s.img.free L = 1

end Cos

end Crusadia
