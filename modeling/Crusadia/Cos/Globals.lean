import Crusadia.Cos.Model

/-!
# Crusadia.Cos.Globals

**What `fs_write` does not change**: the superblock in memory, the numbers of bitmap
sectors, which drive is selected (`Cos.Globals`), the inode bitmap in memory and the current
directory. It writes blocks and nothing else.
-/

namespace Crusadia

namespace Cos

/-- The superblock in memory and the drive are the same. -/
structure Globals (s s' : Cos) : Prop where
  drive : s'.driveSectors = s.driveSectors
  sb : s'.gSuperblock = s.gSuperblock
  bbs : s'.blockBitmapSectors = s.blockBitmapSectors
  ibs : s'.inodeBitmapSectors = s.inodeBitmapSectors

/-- Blocks have been written. -/
structure Written (s s' : Cos) : Prop extends Globals s s' where
  bitmap : s'.inodeBitmap = s.inodeBitmap
  cwd : s'.gCurrentDir = s.gCurrentDir

namespace Written

variable {s s' s'' : Cos}

theorem refl (s : Cos) : Written s s := ⟨⟨rfl, rfl, rfl, rfl⟩, rfl, rfl⟩

theorem trans (h : Written s s') (h' : Written s' s'') : Written s s'' :=
  ⟨⟨h'.drive.trans h.drive, h'.sb.trans h.sb, h'.bbs.trans h.bbs, h'.ibs.trans h.ibs⟩,
    h'.bitmap.trans h.bitmap, h'.cwd.trans h.cwd⟩

theorem write (h : Written s s') (lba : Nat) (buf : Sector) : Written s (s'.blockWrite lba buf) :=
  ⟨⟨h.drive, h.sb, h.bbs, h.ibs⟩, h.bitmap, h.cwd⟩

end Written

variable (s : Cos)

theorem written_allocBlock : Written s s.allocBlock.2 := by
  rw [allocBlock]
  dsimp only
  split
  · exact (Written.refl s).write _ _
  · exact .refl s

theorem written_writeInode (idx : Nat) (node : Inode) : Written s (s.writeInode idx node) :=
  (Written.refl s).write _ _

theorem written_rootBlock (i : Nat) (node : Inode) (r : Nat) (inner doAlloc : Bool) :
    Written s (s.rootBlock i node r inner doAlloc).2.2 := by
  rw [rootBlock]
  split
  · dsimp only
    split
    · exact ((written_allocBlock s).write _ _).trans (written_writeInode _ _ _)
    · exact (written_allocBlock s).trans (written_writeInode _ _ _)
  · exact .refl s

theorem written_descend (doAlloc : Bool) (path : List Nat) :
    ∀ b s, Written s (descend doAlloc path b s).2 := by
  induction path with
  | nil => exact fun _ s => .refl s
  | cons k ks ih =>
    intro b s
    rw [descend]
    split
    · exact .refl s
    · dsimp only
      split
      · split
        · exact ((written_allocBlock s).write _ _).trans (ih _ _)
        · exact (((written_allocBlock s).write _ _).write _ _).trans (ih _ _)
      · exact ih _ _

theorem written_getPhysicalBlock (i : Nat) (node : Inode) (l : Nat) (doAlloc : Bool) :
    Written s (s.getPhysicalBlock i node l doAlloc).2.2 := by
  rw [getPhysicalBlock]
  split
  · exact .refl s
  · exact (written_rootBlock s i node _ _ doAlloc).trans (written_descend doAlloc _ _ _)

theorem written_fsWriteLoop (i o : Nat) (data : List Byte) (w : Nat) (node : Inode) (buf : Sector) :
    Written s (fsWriteLoop i o data w node buf s).state := by
  fun_induction fsWriteLoop i o data w node buf s with
  | case1 => exact written_getPhysicalBlock _ _ _ _ _
  | case2 _ _ _ _ _ _ _ _ _ _ _ _ ih =>
    exact ((written_getPhysicalBlock _ _ _ _ _).write _ _).trans ih
  | case3 => exact .refl _

theorem written_fsWrite (i o : Nat) (data : List Byte) : Written s (s.fsWrite i o data).2 := by
  have hloop := written_fsWriteLoop s i o data 0 (s.readInode i) Buf.zero
  rw [fsWrite]
  dsimp only
  split
  · exact hloop
  · split
    · exact hloop.trans (written_writeInode _ _ _)
    · exact hloop

end Cos

end Crusadia
