import Crusadia.Cos.Fresh

/-!
# Crusadia.Cos.Geometry

**The layout of every drive.** The sizes that `qformat_fs` computes depend on each other through
roundings and a cap, with 32-bit and 64-bit intermediate results. `qformatFs_layout` says for every
drive of 1024 sectors or more that no intermediate result overflows, that the five regions follow
each other, that the bitmaps and the inode table are large enough, and which blocks a new drive has
in use.
-/

namespace Crusadia

namespace Cos

/-- The superblock, the block bitmap, the inode bitmap, the inode table and the data: the first
sector of each and the first one after it. -/
def regions (sb : Superblock) : List (Nat × Nat) :=
  [(0, sb.bitmapStart),
   (sb.bitmapStart, sb.bitmapStart + bitmapSectors sb.totalBlocks),
   (sb.bitmapStart + bitmapSectors sb.totalBlocks,
     sb.bitmapStart + bitmapSectors sb.totalBlocks + inodeSectors sb.inodeCount),
   (sb.inodeStart, sb.inodeStart + tableBlocks sb.inodeCount),
   (sb.dataStart, sb.totalBlocks)]

/-- The intermediate results of `qformat_fs` for a drive of `n` sectors, as unbounded numbers, each
with the width in bits in which the code computes it or to which it casts it. -/
def intermediates (n : Nat) : List (Nat × Nat) :=
  let sb := formatSuperblock n
  let capped := if sb.totalBlocks / 4 > inodeBitmapSize * 8 then inodeBitmapSize * 8
    else sb.totalBlocks / 4
  [(sb.totalBlocks, 64), (sb.totalBlocks / 4, 32), (capped + 7, 32), (sb.totalBlocks + 7, 64),
   ((sb.totalBlocks + 7) / 8, 32), ((sb.totalBlocks + 7) / 8 + sectorSize, 32),
   (sb.inodeCount + 7, 32), ((sb.inodeCount + 7) / 8 + sectorSize, 32),
   (sb.bitmapStart + bitmapSectors sb.totalBlocks, 32),
   (sb.bitmapStart + bitmapSectors sb.totalBlocks + inodeSectors sb.inodeCount, 32),
   (sb.inodeCount * inodeSize, 32), (sb.inodeCount * inodeSize + sectorSize, 32),
   (sb.inodeStart + tableBlocks sb.inodeCount, 32)]

theorem intermediates_fit (n : Nat) : ∀ x ∈ intermediates n, x.1 < 2 ^ x.2 := by
  obtain ⟨T, ic, hT, -, -, -, -, hic, -, heq⟩ := formatSuperblock_eq n
  simp only [intermediates, heq, bitmapSectors, inodeSectors, tableBlocks, sectorSize, inodeSize,
    inodeBitmapSize, List.forall_mem_cons, List.not_mem_nil, IsEmpty.forall_iff, implies_true,
    and_true]
  refine ⟨?_, ?_, ?_, ?_, ?_, ?_, ?_, ?_, ?_, ?_, ?_, ?_, ?_⟩ <;> (try split) <;> omega

/-- Each region ends where the next one begins, and none is empty. -/
theorem regions_formatSuperblock {n : Nat} (h : 1024 ≤ n) :
    (regions (formatSuperblock n)).Pairwise (fun a b => a.2 ≤ b.1) ∧
      ∀ a ∈ regions (formatSuperblock n), a.1 < a.2 := by
  have hroom := (Layout.room_iff n).mpr (by omega)
  obtain ⟨T, ic, hT, -, -, h8, hpos, hic, -, heq⟩ := formatSuperblock_eq n
  change (formatSuperblock n).dataStart < (formatSuperblock n).totalBlocks at hroom
  rw [heq] at hroom ⊢
  simp only [regions, bitmapSectors, inodeSectors, tableBlocks, sectorSize, inodeSize,
    List.pairwise_cons, List.forall_mem_cons, List.not_mem_nil, IsEmpty.forall_iff, implies_true,
    List.Pairwise.nil, and_true] at hroom ⊢
  omega

/-- The sizes of the bitmaps and of the inode table. -/
theorem capacity_formatSuperblock (n : Nat) :
    (formatSuperblock n).totalBlocks ≤ 8 * sectorSize * bitmapSectors
      (formatSuperblock n).totalBlocks ∧
      (formatSuperblock n).inodeCount ≤ 8 * sectorSize * inodeSectors
        (formatSuperblock n).inodeCount ∧
      sectorSize * inodeSectors (formatSuperblock n).inodeCount ≤ inodeBitmapSize ∧
      inodeSize * (formatSuperblock n).inodeCount ≤
        sectorSize * tableBlocks (formatSuperblock n).inodeCount := by
  obtain ⟨T, ic, -, -, -, -, -, hic, -, heq⟩ := formatSuperblock_eq n
  rw [heq]
  simp only [bitmapSectors, inodeSectors, tableBlocks, sectorSize, inodeSize, inodeBitmapSize]
  omega

/-- The blocks in use on a new drive. -/
theorem blockBit_qformatFs (s : Cos) (h : 1024 ≤ s.driveSectors) :
    s.qformatFs.gSuperblock = formatSuperblock s.driveSectors ∧
      ∀ b, b < s.qformatFs.gSuperblock.totalBlocks → (s.qformatFs.blockBit b = true ↔
        b < s.qformatFs.gSuperblock.dataStart ∨
          ∃ i, i < 6 ∧ ∃ r, r < 15 ∧ (s.qformatFs.readInode i).ptr r = b) := by
  have hsize : 6 < s.layout.sb.inodeCount ∧ s.layout.sb.dataStart + 5 <
      s.layout.sb.totalBlocks := by
    obtain ⟨T, ic, hT, hle, hcap, h8, hpos, hic, hic', heq⟩ := formatSuperblock_eq s.driveSectors
    simp only [layout, Layout.ofDrive, heq, bitmapSectors, inodeSectors, tableBlocks, sectorSize,
      inodeSize]
    omega
  obtain ⟨v, hrep, -, -, -, hf, -, -, hptr⟩ := Rep.qformatFs_filled s hsize.2 (by omega)
  have hds := s.layout.dataStart_gt
  refine ⟨hrep.sb, fun b hb => ?_⟩
  rw [hrep.sb] at hb ⊢
  have hlen : defaultDirs.length = 5 := rfl
  rw [hrep.bit b hb, hf.bit, hlen, decide_eq_true_iff]
  -- inode `i` has the `i`-th data block and no other
  have hino : ∀ i, i < 6 → ∀ r, r < 15 → (s.qformatFs.readInode i).ptr r =
      if r = 0 then s.layout.sb.dataStart + i else 0 := by
    intro i hi r hr
    rw [hrep.ino i (by omega)]
    exact hptr i (by omega) r hr
  constructor
  · intro hlt
    by_cases hdata : b < s.layout.sb.dataStart
    · exact .inl hdata
    · refine .inr ⟨b - s.layout.sb.dataStart, by omega, 0, by omega, ?_⟩
      rw [hino _ (by omega) 0 (by omega), if_pos rfl]
      omega
  · rintro (hlt | ⟨i, hi, r, hr, hb⟩)
    · omega
    · rw [hino i hi r hr] at hb
      split at hb <;> omega

/-- **The layout of every drive** of 1024 sectors or more. -/
theorem qformatFs_layout (s : Cos) (h : 1024 ≤ s.driveSectors) :
    let sb := s.qformatFs.gSuperblock
    sb = formatSuperblock s.driveSectors ∧
      (1 = sb.bitmapStart ∧ sb.bitmapStart < sb.inodeStart ∧ sb.inodeStart < sb.dataStart ∧
        sb.dataStart < sb.totalBlocks) ∧
      sb.totalBlocks ≤ 8 * sectorSize * bitmapSectors sb.totalBlocks ∧
      sb.inodeCount ≤ 8 * sectorSize * inodeSectors sb.inodeCount ∧
      sectorSize * inodeSectors sb.inodeCount ≤ inodeBitmapSize ∧
      inodeSize * sb.inodeCount ≤ sectorSize * tableBlocks sb.inodeCount ∧
      (regions sb).Pairwise (fun a b => a.2 ≤ b.1) ∧ (∀ a ∈ regions sb, a.1 < a.2) ∧
      (∀ x ∈ intermediates s.driveSectors, x.1 < 2 ^ x.2) ∧
      ∀ b, b < sb.totalBlocks → (s.qformatFs.blockBit b = true ↔
        b < sb.dataStart ∨ ∃ i, i < 6 ∧ ∃ r, r < 15 ∧ (s.qformatFs.readInode i).ptr r = b) := by
  obtain ⟨hsb, hbits⟩ := blockBit_qformatFs s h
  obtain ⟨hblocks, hinodes, hmem, htable⟩ := capacity_formatSuperblock s.driveSectors
  obtain ⟨horder, hne⟩ := regions_formatSuperblock h
  have hregions := hne
  simp only [regions, List.forall_mem_cons] at hregions
  obtain ⟨-, hbitmap, hinode, htab, hdata, -⟩ := hregions
  refine ⟨hsb, ?_, ?_, ?_, ?_, ?_, ?_, ?_, intermediates_fit _, hbits⟩
  · rw [hsb]
    refine ⟨rfl, hbitmap.trans hinode, ?_, hdata⟩
    exact htab
  all_goals
    rw [hsb]
    assumption

/-- The smallest of these drives. -/
theorem qformatFs_layout_smallest :
    1024 ≤ (zeroDrive 1024).driveSectors ∧
      (zeroDrive 1024).qformatFs.gSuperblock.dataStart <
        (zeroDrive 1024).qformatFs.gSuperblock.totalBlocks :=
  ⟨Nat.le_refl _, (qformatFs_layout (zeroDrive 1024) (Nat.le_refl _)).2.1.2.2.2⟩

end Cos

end Crusadia
