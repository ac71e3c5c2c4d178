import Crusadia.Cos.Image
import Crusadia.Lib.Search

/-!
# Crusadia.Cos.Alloc

**Block and inode allocation.** `alloc_block` scans the bitmap sector by sector and
bit by bit; on the image it takes the first free block at or above `data_start`
(`Rep.allocBlock`). `Img.free` counts what is left for it to take.
-/

namespace Crusadia

namespace Img

section

variable (L : Layout) (v : Img)

/-- The first free block at or above `data_start`. -/
def firstFree : Option Nat :=
  (List.range' L.sb.dataStart (L.sb.totalBlocks - L.sb.dataStart)).find? fun b => !v.bit b

/-- What `alloc_block` does to the image; 0 is its failure value. -/
def alloc : Nat × Img :=
  match v.firstFree L with
  | some b => (b, v.setBit b true)
  | none => (0, v)

/-- The blocks `alloc_block` can still hand out, in the order in which it does. -/
def freeList : List Nat :=
  (List.range' L.sb.dataStart (L.sb.totalBlocks - L.sb.dataStart)).filter fun b => !v.bit b

/-- The number of blocks `alloc_block` can still hand out. -/
def free : Nat := (v.freeList L).length

end

variable {L : Layout} {v : Img}

theorem firstFree_eq_some {b : Nat} : v.firstFree L = some b ↔
    (L.sb.dataStart ≤ b ∧ b < L.sb.totalBlocks) ∧ v.bit b = false ∧
      ∀ c, L.sb.dataStart ≤ c → c < b → v.bit c = true := by
  rw [firstFree, List.find?_range'_eq_some]
  simp only [List.mem_range'_1, Bool.not_eq_true', Bool.not_not]
  constructor
  · rintro ⟨h1, h2, h3⟩
    exact ⟨⟨h2.1, by omega⟩, h1, h3⟩
  · rintro ⟨h1, h2, h3⟩
    exact ⟨h2, ⟨h1.1, by omega⟩, h3⟩

theorem firstFree_eq_none : v.firstFree L = none ↔
    ∀ b, L.sb.dataStart ≤ b → b < L.sb.totalBlocks → v.bit b = true := by
  rw [firstFree, List.find?_range'_eq_none]
  simp only [Bool.not_not]
  constructor
  · intro h b h1 h2
    exact h b h1 (by omega)
  · intro h b h1 h2
    exact h b h1 (by omega)

theorem mem_freeList {b : Nat} : b ∈ v.freeList L ↔
    (L.sb.dataStart ≤ b ∧ b < L.sb.totalBlocks) ∧ v.bit b = false := by
  rw [freeList, List.mem_filter, List.mem_range'_1, Bool.not_eq_true']
  refine and_congr_left fun _ => ?_
  omega

theorem head?_freeList : (v.freeList L).head? = v.firstFree L := List.head?_filter ..

theorem free_eq_zero : v.free L = 0 ↔ v.firstFree L = none := by
  rw [free, List.length_eq_zero_iff, ← head?_freeList, List.head?_eq_none_iff]

/-- The first free block is the head of the list, and taking it leaves the tail. -/
theorem freeList_eq {b : Nat} (h : v.firstFree L = some b) :
    v.freeList L = b :: (v.setBit b true).freeList L := by
  have hnd : (v.freeList L).Nodup := (List.nodup_range' ..).filter _
  rw [← head?_freeList, List.head?_eq_some_iff] at h
  obtain ⟨t, ht⟩ := h
  rw [ht, List.nodup_cons] at hnd
  have hset : (v.setBit b true).freeList L = (v.freeList L).filter (· ≠ b) := by
    rw [freeList, freeList, List.filter_filter]
    refine List.filter_congr fun c _ => ?_
    by_cases hc : c = b <;> simp [setBit, hc]
  rw [hset, ht, List.filter_cons_of_neg (by simp), List.filter_eq_self.mpr]
  intro c hc
  simpa using fun he : c = b => hnd.1 (he ▸ hc)

theorem alloc_cases (L : Layout) (v : Img) :
    (∃ b, v.firstFree L = some b ∧ v.alloc L = (b, v.setBit b true)) ∨
      (v.firstFree L = none ∧ v.alloc L = (0, v)) := by
  cases h : v.firstFree L with
  | some b => exact Or.inl ⟨b, rfl, by rw [alloc, h]⟩
  | none => exact Or.inr ⟨rfl, by rw [alloc, h]⟩

end Img

namespace Cos

/-- The globals `alloc_block` reads, as `init_fs` leaves them for a COS superblock: the
bitmap has a bit for every block. -/
structure Scans (s : Cos) (sb : Superblock) : Prop where
  eq : s.gSuperblock = sb
  magic : sb.magic = fsMagic
  dataStart : 1 < sb.dataStart
  bitmap : ∀ b, b < sb.totalBlocks → b / 4096 < s.blockBitmapSectors

/-- Block `b` can be handed out. -/
def Free (s : Cos) (b : Nat) : Prop :=
  s.gSuperblock.dataStart ≤ b ∧ b < s.gSuperblock.totalBlocks ∧ s.blockBit b = false

variable {s : Cos} {sb : Superblock}

/-- The bit test of the scan, on an index inside the volume. -/
theorem allocBit_eq (hsb : s.gSuperblock = sb) {k bit : Nat} (hbit : bit < 4096)
    (hidx : k * 4096 + bit < sb.totalBlocks) :
    allocBit (s.blockRead (sb.bitmapStart + k)) (k * 4096) sb.totalBlocks bit =
      if s.blockBit (k * 4096 + bit) then none else some (some bit) := by
  have hd : (k * 4096 + bit) / 4096 = k := by omega
  have hm : (k * 4096 + bit) % 4096 = bit := by omega
  rw [allocBit, if_neg (by omega), blockBit, hd, hm, hsb]

/-- Where the scan of sector `k` starts: at `data_start` in its own sector, at bit 0 in
the later ones. -/
theorem allocSector_start {ds k : Nat} (hk : ds / 8 / 512 ≤ k) :
    ∃ bs, (if k = ds / 8 / 512 ∧ ds > k * 4096 then ds - k * 4096 else 0) = bs ∧ bs < 4096 ∧
      ds ≤ k * 4096 + bs ∧ (k * 4096 + bs = ds ∨ bs = 0) := by
  refine ⟨_, rfl, ?_⟩
  split <;> omega

theorem Scans.allocBlock_start (h : s.Scans sb) : (if s.gSuperblock.magic = fsMagic ∧
    s.gSuperblock.dataStart > 1 then s.gSuperblock.dataStart else 1) = sb.dataStart := by
  rw [h.eq, if_pos ⟨h.magic, h.dataStart⟩]

/-- `alloc_block` when there is a free block. -/
theorem Scans.allocBlock_of_some (h : s.Scans sb) {b : Nat}
    (hb : sb.dataStart ≤ b ∧ b < sb.totalBlocks) (hbit : s.blockBit b = false)
    (hfirst : ∀ c, sb.dataStart ≤ c → c < b → s.blockBit c = true) :
    s.allocBlock = (b, s.blockWrite (sb.bitmapStart + b / 4096)
      ((s.blockRead (sb.bitmapStart + b / 4096)).setBit (b % 4096))) := by
  simp only [allocBlock, h.allocBlock_start, sectorSize]
  have hbbs := h.bitmap b hb.2
  -- Every index before `b` is skipped, in whichever sector it falls.
  have hskip : ∀ k bit, bit < 4096 → sb.dataStart ≤ k * 4096 + bit → k * 4096 + bit < b →
      allocBit (s.blockRead (sb.bitmapStart + k)) (k * 4096) sb.totalBlocks bit = none := by
    intro k bit h1 h2 h3
    rw [allocBit_eq h.eq h1 (by omega), hfirst _ h2 h3]
    rfl
  have hfind : (List.range' (sb.dataStart / 8 / 512)
      (s.blockBitmapSectors - sb.dataStart / 8 / 512)).findSome?
      (s.allocSector sb.dataStart (sb.dataStart / 8 / 512)) = some (some (b / 4096, b % 4096)) := by
    apply findSome?_range'_eq_some (i := b / 4096) (by omega) (by omega)
    · obtain ⟨bs, hbs, h1, h2, h3⟩ := allocSector_start
        (show sb.dataStart / 8 / 512 ≤ b / 4096 by omega)
      simp only [allocSector, h.eq, sectorSize, Nat.mul_assoc]
      norm_num only [] at hbs ⊢
      rw [hbs, findSome?_range'_eq_some (i := b % 4096) (a := some (b % 4096)) (by omega)
        (by omega)]
      · rfl
      · rw [allocBit_eq h.eq (by omega) (by omega), show b / 4096 * 4096 + b % 4096 = b by omega,
          hbit]
        rfl
      · intro j hj1 hj2
        exact hskip _ _ (by omega) (by omega) (by omega)
    · intro k hk1 hk2
      obtain ⟨bs, hbs, h1, h2, h3⟩ := allocSector_start hk1
      simp only [allocSector, h.eq, sectorSize, Nat.mul_assoc]
      norm_num only [] at hbs ⊢
      rw [hbs, findSome?_range'_eq_none]
      · rfl
      · intro j hj1 hj2
        exact hskip _ _ (by omega) (by omega) (by omega)
  rw [hfind]
  simp only [h.eq]
  rw [show b / 4096 * 512 * 8 + b % 4096 = b by omega]

/-- `alloc_block` when there is none. -/
theorem Scans.allocBlock_of_none (h : s.Scans sb)
    (hall : ∀ b, sb.dataStart ≤ b → b < sb.totalBlocks → s.blockBit b = true) :
    s.allocBlock = (0, s) := by
  simp only [allocBlock, h.allocBlock_start, sectorSize]
  have hnone : ∀ k bit, (List.range' (sb.dataStart / 8 / 512)
      (s.blockBitmapSectors - sb.dataStart / 8 / 512)).findSome?
        (s.allocSector sb.dataStart (sb.dataStart / 8 / 512)) ≠ some (some (k, bit)) := by
    intro k bit
    apply findSome?_range'_ne
    intro k' hk' _ hsec
    obtain ⟨bs, hbs, h1, h2, h3⟩ := allocSector_start hk'
    simp only [allocSector, h.eq, sectorSize, Nat.mul_assoc, Option.map_eq_some_iff] at hsec
    norm_num only [] at hbs hsec
    obtain ⟨hit, hfind, bit', rfl, -⟩ := hsec
    rw [hbs] at hfind
    refine findSome?_range'_ne ?_ hfind
    intro j hj1 hj2 hbit
    have hds : sb.dataStart ≤ k' * 4096 + j := by omega
    have hj : j < 4096 := by omega
    by_cases ht : k' * 4096 + j < sb.totalBlocks
    · rw [allocBit_eq h.eq hj ht, hall _ hds ht] at hbit
      cases hbit
    · rw [allocBit, if_pos (by omega)] at hbit
      cases hbit
  split
  · rename_i k bit hsome
    exact absurd hsome (hnone k bit)
  · rfl

/-- The bits after `alloc_block` has taken block `b`. -/
theorem blockBit_take (b c : Nat) :
    (s.blockWrite (s.gSuperblock.bitmapStart + b / 4096)
      ((s.blockRead (s.gSuperblock.bitmapStart + b / 4096)).setBit (b % 4096))).blockBit c =
      (decide (c = b) || s.blockBit c) := by
  simp only [blockBit, blockRead, blockWrite, Disk.read_write, Nat.add_left_cancel_iff]
  by_cases hcb : c / 4096 = b / 4096
  · rw [if_pos hcb, Buf.bit_setBit _ (by omega), hcb]
    congr 1
    exact decide_eq_decide.mpr (by omega)
  · rw [if_neg hcb, decide_eq_false (fun he => hcb (by rw [he])), Bool.false_or]

/-- **First fit.** Over any loaded superblock and any bitmap, `alloc_block` takes the least
free block, sets its bit and nothing else, and returns 0 exactly when none is free. -/
theorem allocBlock_first_fit (s : Cos) (hmagic : s.gSuperblock.magic = fsMagic)
    (hload : s.blockBitmapSectors = bitmapSectors s.gSuperblock.totalBlocks)
    (hds : 1 < s.gSuperblock.dataStart ∧ s.gSuperblock.dataStart < s.gSuperblock.totalBlocks)
    (htotal : s.gSuperblock.totalBlocks ≤ 2 ^ 32 - 2) :
    (∀ b, s.Free b → (∀ c, s.Free c → b ≤ c) →
      s.allocBlock.1 = b ∧ (∀ c, s.allocBlock.2.blockBit c = (decide (c = b) || s.blockBit c)) ∧
      (∀ a, a ≠ s.gSuperblock.bitmapStart + b / 4096 →
        s.allocBlock.2.blockRead a = s.blockRead a) ∧
      s.allocBlock.2 = { s with disk := s.allocBlock.2.disk }) ∧
    (s.allocBlock.1 = 0 ↔ ∀ b, ¬ s.Free b) ∧ ((∀ b, ¬ s.Free b) → s.allocBlock.2 = s) := by
  have h : s.Scans s.gSuperblock := by
    refine ⟨rfl, hmagic, hds.1, fun b hb => ?_⟩
    rw [hload, bitmapSectors, sectorSize]
    omega
  have hleast : ∀ b, s.Free b → (∀ c, s.Free c → b ≤ c) → s.allocBlock =
      (b, s.blockWrite (s.gSuperblock.bitmapStart + b / 4096)
        ((s.blockRead (s.gSuperblock.bitmapStart + b / 4096)).setBit (b % 4096))) := by
    intro b hb hle
    refine h.allocBlock_of_some ⟨hb.1, hb.2.1⟩ hb.2.2 fun c hc1 hc2 => ?_
    by_contra hc
    have := hle c ⟨hc1, hc2.trans hb.2.1, Bool.eq_false_iff.mpr hc⟩
    omega
  have hfull : (∀ b, ¬ s.Free b) → s.allocBlock = (0, s) := by
    intro hno
    refine h.allocBlock_of_none fun b hb1 hb2 => ?_
    by_contra hb
    exact hno b ⟨hb1, hb2, Bool.eq_false_iff.mpr hb⟩
  refine ⟨fun b hb hle => ?_, ⟨fun h0 b hb => ?_, fun hno => by rw [hfull hno]⟩,
    fun hno => by rw [hfull hno]⟩
  · rw [hleast b hb hle]
    exact ⟨rfl, blockBit_take b, fun a ha => Disk.read_write_ne ha, rfl⟩
  · classical
    have hex : ∃ b, s.Free b := ⟨b, hb⟩
    rw [hleast _ (Nat.find_spec hex) fun c hc => Nat.find_min' hex hc] at h0
    have := (Nat.find_spec hex).1
    have hzero : Nat.find hex = 0 := h0
    omega

/-- An empty volume of 64 blocks whose data area starts at block 7. -/
theorem allocBlock_first_fit_empty :
    let s : Cos := ⟨⟨fun _ => Buf.zero, []⟩, 64, Buf.zero, ⟨fsMagic, 512, 64, 16, 1, 3, 7⟩, 1, 1, 0⟩
    s.Free 7 ∧ s.allocBlock.1 = 7 := by
  intro s
  have hfree : s.Free 7 := ⟨Nat.le_refl 7, by decide, Buf.bit_zero _⟩
  exact ⟨hfree, ((allocBlock_first_fit s rfl (by decide) (by decide) (by decide)).1 7 hfree
    fun c hc => hc.1).1⟩

end Cos

namespace Rep

variable {L : Layout} {s : Cos} {v : Img}

theorem scans (h : Rep L s v) : s.Scans L.sb :=
  ⟨h.sb, L.magic, L.dataStart_gt, fun _ hb => h.bbs ▸ L.bitmap_lt hb⟩

theorem allocBlock_of_some (h : Rep L s v) {b : Nat} (hff : v.firstFree L = some b) :
    s.allocBlock = (b, s.blockWrite (1 + b / 4096)
      ((s.blockRead (1 + b / 4096)).setBit (b % 4096))) := by
  obtain ⟨hb, hbit, hfirst⟩ := Img.firstFree_eq_some.mp hff
  rw [h.scans.allocBlock_of_some hb ((h.bit b hb.2).trans hbit) fun c h1 h2 =>
    (h.bit c (h2.trans hb.2)).trans (hfirst c h1 h2), L.bitmapStart]

theorem allocBlock_of_none (h : Rep L s v) (hff : v.firstFree L = none) : s.allocBlock = (0, s) :=
  h.scans.allocBlock_of_none fun b h1 h2 =>
    (h.bit b h2).trans (Img.firstFree_eq_none.mp hff b h1 h2)

/-- `alloc_block` takes the first free block. -/
theorem allocBlock (h : Rep L s v) :
    s.allocBlock.1 = (v.alloc L).1 ∧ Rep L s.allocBlock.2 (v.alloc L).2 := by
  rcases v.alloc_cases L with ⟨b, hff, halloc⟩ | ⟨hff, halloc⟩
  · rw [h.allocBlock_of_some hff, halloc]
    exact ⟨rfl, h.writeBit (Img.firstFree_eq_some.mp hff).1.2⟩
  · rw [h.allocBlock_of_none hff, halloc]
    exact ⟨rfl, h⟩

/-- `alloc_inode` takes the first unused inode. -/
theorem allocInode (h : Rep L s v) :
    (∃ i, i < L.sb.inodeCount ∧ v.used i = false ∧ (∀ j, j < i → v.used j = true) ∧
      s.allocInode.1 = some i ∧ Rep L s.allocInode.2 (v.setUsed i true)) ∨
    ((∀ i, i < L.sb.inodeCount → v.used i = true) ∧ s.allocInode = (none, s)) := by
  rw [Cos.allocInode]
  split
  · rename_i i hfind
    rw [List.find?_range'_eq_some, List.mem_range'_1, h.sb] at hfind
    obtain ⟨hbit, hi, hlt⟩ := hfind
    have hi : i < L.sb.inodeCount := by omega
    rw [h.used i hi, Bool.not_eq_true'] at hbit
    refine Or.inl ⟨i, hi, hbit, ?_, rfl, ?_⟩
    · intro j hj
      have := hlt j (Nat.zero_le _) hj
      rw [Bool.not_not] at this
      rw [← h.used j (by omega)]
      exact this
    · refine h.flushInodeBitmapSector hi ?_ ?_
      · intro j
        rw [Buf.bit_setBit _ (inode_lt_bitmap hi)]
        by_cases hji : j = i <;> simp [hji]
      · intro j hj
        rw [Buf.setBit, Buf.get_put8, if_neg (fun hh => hj hh.1)]
  · rename_i hfind
    rw [List.find?_range'_eq_none, h.sb] at hfind
    refine Or.inr ⟨fun i hi => ?_, rfl⟩
    have := hfind i (Nat.zero_le _) (by omega)
    rw [Bool.not_not] at this
    rw [← h.used i hi]
    exact this

end Rep

end Crusadia
