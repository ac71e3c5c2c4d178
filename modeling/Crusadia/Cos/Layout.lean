import Crusadia.Cos.Model

/-!
# Crusadia.Cos.Layout

**Where things are on a COS drive.** A `Layout` is a superblock together with the
facts about it that the rest of the development relies on: the five regions
(superblock, block bitmap, inode bitmap, inode table, data) follow each other
without gaps, and the bitmaps are large enough. `Layout.ofDrive` shows that
`qformat_fs` computes a layout for every drive; from six sectors on it has room for
data (`Layout.room_iff`).
-/

namespace Crusadia

/-- A sound drive layout. -/
structure Layout where
  /-- The superblock. -/
  sb : Superblock
  /-- `block_bitmap_sectors`. -/
  bbs : Nat
  /-- `inode_bitmap_sectors`. -/
  ibs : Nat
  magic : sb.magic = fsMagic
  bitmapStart : sb.bitmapStart = 1
  inodeStart : sb.inodeStart = 1 + bbs + ibs
  dataStart : sb.dataStart = sb.inodeStart + sb.inodeCount / 4
  total : sb.totalBlocks ≤ 0xFFFFFFFE
  bits : sb.totalBlocks ≤ 4096 * bbs
  bits_tight : 4096 * bbs < sb.totalBlocks + 4096
  inodes8 : sb.inodeCount % 8 = 0
  inodes_pos : 8 ≤ sb.inodeCount
  inodes : sb.inodeCount ≤ 4096 * ibs
  ibs_le : ibs ≤ 64
  bbs_eq : bbs = Cos.bitmapSectors sb.totalBlocks
  ibs_eq : ibs = Cos.inodeSectors sb.inodeCount
  blockSize : sb.blockSize = sectorSize

namespace Layout

variable (L : Layout)

theorem dataStart_gt : 1 < L.sb.dataStart := by
  have h1 := L.inodeStart
  have h2 := L.dataStart
  have h3 := L.inodes_pos
  omega

/-- What keeps the regions apart. -/
theorem regions : L.sb.inodeStart = 1 + L.bbs + L.ibs ∧
    L.sb.dataStart = L.sb.inodeStart + L.sb.inodeCount / 4 ∧ L.sb.totalBlocks ≤ 4096 * L.bbs ∧
    L.sb.inodeCount % 8 = 0 :=
  ⟨L.inodeStart, L.dataStart, L.bits, L.inodes8⟩

theorem inodes_le : L.sb.inodeCount ≤ 262144 := by
  have h1 := L.inodes
  have h2 := L.ibs_le
  omega

/-- A block's bitmap sector is one of the bitmap's. -/
theorem bitmap_lt {b : Nat} (h : b < L.sb.totalBlocks) : b / 4096 < L.bbs := by
  have := L.bits
  omega

end Layout

open Cos in
/-- What `formatSuperblock` computes, before the sectors are laid out. -/
theorem formatSuperblock_eq (n : Nat) : ∃ T ic, T ≤ 0xFFFFFFFE ∧ T ≤ n ∧ (T < n → 1024 ≤ T) ∧
    ic % 8 = 0 ∧ 8 ≤ ic ∧ ic ≤ 262144 ∧ ic ≤ T / 4 + 7 + 8 * (1 - T / 4) ∧ formatSuperblock n =
      { magic := fsMagic, blockSize := sectorSize, totalBlocks := T, inodeCount := ic,
        bitmapStart := 1, inodeStart := 1 + bitmapSectors T + inodeSectors ic,
        dataStart := 1 + bitmapSectors T + inodeSectors ic + tableBlocks ic } := by
  refine ⟨if n > 0xFFFFFFFE then 0xFFFFFFFE else n, _, ?_, ?_, ?_, ?_, ?_, ?_, ?_, rfl⟩ <;>
    (try simp only [inodeBitmapSize]) <;> split <;> (try split) <;> (try split) <;> omega

open Cos in
/-- The facts about `formatSuperblock` behind `Layout.ofDrive`; all of them are
linear arithmetic over the drive size. -/
theorem formatSuperblock_sound (n : Nat) :
    let sb := formatSuperblock n
    let bbs := bitmapSectors sb.totalBlocks
    let ibs := inodeSectors sb.inodeCount
    sb.dataStart = sb.inodeStart + sb.inodeCount / 4 ∧
    sb.totalBlocks ≤ 0xFFFFFFFE ∧ sb.totalBlocks ≤ 4096 * bbs ∧
    4096 * bbs < sb.totalBlocks + 4096 ∧ sb.inodeCount % 8 = 0 ∧ 8 ≤ sb.inodeCount ∧
    sb.inodeCount ≤ 4096 * ibs ∧ ibs ≤ 64 := by
  obtain ⟨T, ic, h1, h2, h3, h4, h5, h6, h7, heq⟩ := formatSuperblock_eq n
  rw [heq]
  simp only [bitmapSectors, inodeSectors, tableBlocks, sectorSize, inodeSize]
  refine ⟨?_, ?_, ?_, ?_, ?_, ?_, ?_, ?_⟩ <;> omega

/-- The layout of a freshly formatted drive of `n` sectors. -/
def Layout.ofDrive (n : Nat) : Layout where
  sb := Cos.formatSuperblock n
  bbs := Cos.bitmapSectors (Cos.formatSuperblock n).totalBlocks
  ibs := Cos.inodeSectors (Cos.formatSuperblock n).inodeCount
  magic := rfl
  bitmapStart := rfl
  inodeStart := rfl
  dataStart := (formatSuperblock_sound n).1
  total := (formatSuperblock_sound n).2.1
  bits := (formatSuperblock_sound n).2.2.1
  bits_tight := (formatSuperblock_sound n).2.2.2.1
  inodes8 := (formatSuperblock_sound n).2.2.2.2.1
  inodes_pos := (formatSuperblock_sound n).2.2.2.2.2.1
  inodes := (formatSuperblock_sound n).2.2.2.2.2.2.1
  ibs_le := (formatSuperblock_sound n).2.2.2.2.2.2.2
  bbs_eq := rfl
  ibs_eq := rfl
  blockSize := rfl

/-- The layout `qformat_fs` gives the drive. -/
abbrev Cos.layout (s : Cos) : Layout := Layout.ofDrive s.driveSectors

open Cos in
/-- A drive of six sectors or more has a data block, a smaller one has none. -/
theorem Layout.room_iff (n : Nat) :
    (Layout.ofDrive n).sb.dataStart < (Layout.ofDrive n).sb.totalBlocks ↔ 6 ≤ n := by
  obtain ⟨T, ic, h1, h2, h3, h4, h5, h6, h7, heq⟩ := formatSuperblock_eq n
  show (formatSuperblock n).dataStart < (formatSuperblock n).totalBlocks ↔ 6 ≤ n
  rw [heq]
  simp only [bitmapSectors, inodeSectors, tableBlocks, sectorSize, inodeSize]
  constructor <;> intro h <;> omega

theorem Cos.room_iff (s : Cos) :
    s.layout.sb.dataStart < s.layout.sb.totalBlocks ↔ 6 ≤ s.driveSectors := Layout.room_iff _

end Crusadia
