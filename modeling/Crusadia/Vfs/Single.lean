import Crusadia.Vfs.Calls
import Crusadia.Vfs.Create

/-!
# Crusadia.Vfs.Single

**One COS drive, mounted at `/`.** `Vfs.single s files n` is the VFS layer with the drive
and the driver's globals of `s`, and `n` descriptors in `files` open. Concrete runs of the VFS calls
start on the drive `s₀.oneFile`, where `/f` is an empty file.
-/

namespace Crusadia

namespace Img

variable {L : Layout} {v : Img}

theorem OneFile.lookup {s0 : Cos} (h : OneFile s0 L v) : v.lookup 0 Cos.fName = some 6 := by
  have hfind : v.findSlot 0 Cos.fName 12 0 = some (0, 5) :=
    h.filled.findSlot_first (by omega) (by decide) (by decide)
  rw [Img.lookup, hfind, Option.map_some]
  dsimp only
  rw [Img.ent, h.filled.ptr 0 (by omega), if_pos rfl, h.filled.ent 5 (by omega)]
  rfl

end Img

namespace Cos

/-- Resolving a path does not begin at the current directory. -/
theorem beStat_setCwd (s : Cos) (d : Nat) (rel : CStr) :
    { s with gCurrentDir := d }.beStat rel = s.beStat rel := by
  have hresolve : ∀ comps cur, { s with gCurrentDir := d }.resolveFrom comps cur =
      s.resolveFrom comps cur := by
    intro comps
    induction comps with
    | nil => exact fun _ => rfl
    | cons c comps ih =>
      intro cur
      rw [resolveFrom, resolveFrom, funext ih]
      rfl
  rw [beStat, cosResolve, hresolve]
  rfl

/-- The path `"/f"`. -/
def fPath : CStr := ⟨[slash, 0x66], by decide⟩

theorem beStat_fPath {L : Layout} {s s0 : Cos} {v : Img} (h : Rep L s v)
    (hv : Img.OneFile s0 L v) : s.beStat fPath = some ⟨false, 0, 6⟩ := by
  have hcomp : components fPath = [fName] := by decide
  have hlt : 6 < L.sb.inodeCount := (Img.lookup_live hv.inv hv.inv.root hv.lookup).1
  have hstep : s.resolveStep 0 fName = some 6 :=
    (h.resolveStep_eq_some hv.inv hv.inv.root.lt hv.inv.root.used).mpr ⟨hv.inv.root, hv.lookup⟩
  rw [beStat, cosResolve, hcomp, resolveFrom, hstep, Option.bind_some, resolveFrom, Option.map_some,
    h.ino 6 hlt]
  dsimp only
  rw [hv.type, hv.size]
  rfl

end Cos

namespace Vfs

/-- The drive of `s` as the only one, mounted at `/`, with `n` descriptors in `files` open. -/
def single (s : Cos) (files : Nat → VfsFile) (n : Int) : Vfs where
  activeDrives := 1
  drives := fun _ => ⟨0x1F0, 0, s.driveSectors, s.disk⟩
  cos := ⟨s.inodeBitmap, s.gSuperblock, s.blockBitmapSectors, s.inodeBitmapSectors, s.gCurrentDir⟩
  gFat32 := zeroFat32
  mounts := fun i => if i = 0 then
    { zeroMount with used := true, isRoot := true, openCount := n, mountpoint := rootPath }
    else zeroMount
  root := some 0
  files
  cwd := rootPath
  cosLoaded := some 0
  seq := 0

variable {s : Cos} {files : Nat → VfsFile} {n : Int}

/-- The drive is loaded, so that entering it does nothing but reset the current directory. -/
theorem ctxEnter_single :
    (single s files n).ctxEnter 0 = single { s with gCurrentDir := 0 } files n := rfl

theorem findMount_single {abs : CStr} (h : abs.chars ≠ []) :
    (single s files n).findMount abs = some (0, CStr.ofBytes abs.chars) := by
  have hfold : (List.range vfsMaxMounts).foldl ((single s files n).betterMount abs) none = some 0 :=
    rfl
  rw [findMount, hfold, Option.map_some]
  simp only [single, if_true, h, if_false]

/-- What `open_locked` does with a file that exists, without truncating it. -/
theorem openNode_stat {v : Vfs} {i : Nat} {rel : CStr} {fl : OpenFlags} {node : Cos.Vnode}
    (hnode : v.beStat i rel = some (some node)) (htrunc : fl.trunc = false) (tag : CStr) :
    v.openNode i rel fl tag = some (if node.isDir then .error vfsEIsdir else
      if fl.creat && fl.excl then .error vfsEExist else .ok node, v) := by
  simp only [openNode, hnode, htrunc, Option.bind_eq_bind, Option.bind_some, Bool.false_and,
    Bool.false_eq_true, if_false]
  split
  · rfl
  · split <;> rfl

section

variable (path abs : CStr) {node : Cos.Vnode} (hpath : normalize rootPath path = some abs)
  (habs : abs.chars ≠ []) (hnode : s.beStat (CStr.ofBytes abs.chars) = some node)

include hnode in
theorem beStat_single : (single { s with gCurrentDir := 0 } files n).beStat 0
    (CStr.ofBytes abs.chars) = some (some node) :=
  congrArg some ((Cos.beStat_setCwd s 0 _).trans hnode)

include hpath habs hnode

theorem vfsStat_single : (single s files n).vfsStat path =
    some (.ok node, single { s with gCurrentDir := 0 } files n) := by
  rw [vfsStat, show (single s files n).cwd = rootPath from rfl, hpath]
  dsimp only
  rw [statAbs, findMount_single habs]
  dsimp only
  rw [within, ctxEnter_single, beStat_single abs hnode]
  rfl

/-- Opening a file that exists, without truncating it. -/
theorem openLocked_single (fd : Nat) {fl : OpenFlags} {tag : CStr}
    (hfile : node.isDir = false) (hexcl : fl.excl = false) (htrunc : fl.trunc = false)
    (hfd : (single s files n).freeFd = some fd) :
    (single s files n).openLocked path fl tag = some ((fd : Int), single { s with gCurrentDir := 0 }
      (Function.update files fd ⟨true, 0, fl.writable, fl.append,
        if fl.append then node.size else 0, node.size, node.id, CStr.ofBytes abs.chars⟩)
          (n + 1)) := by
  have hopen : (single s files n).within 0 (·.openNode 0 (CStr.ofBytes abs.chars) fl tag) =
      some (.ok node, single { s with gCurrentDir := 0 } files n) := by
    rw [within, ctxEnter_single, openNode_stat (beStat_single abs hnode) htrunc, hfile, hexcl,
      Bool.and_false]
    rfl
  simp only [openLocked, show (single s files n).cwd = rootPath from rfl, hpath,
    findMount_single habs, hfd, hopen, Option.bind_eq_bind, Option.bind_some]
  refine congrArg (fun m => some ((fd : Int), ({ single _ _ n with mounts := m } : Vfs))) ?_
  funext i
  rw [Function.update_apply]
  split
  · rfl
  · rename_i hi
    exact if_neg hi

end

end Vfs

end Crusadia
