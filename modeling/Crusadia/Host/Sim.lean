import Crusadia.Cos.Run
import Crusadia.Host.Bounds

/-!
# Crusadia.Host.Sim

**The host tool and the driver side by side.** `Sim L h s` says that the image file of the tool and
the drive of the kernel have the same sectors, that both sides have the superblock of layout `L`,
and that every bitmap sector is what the tool would save there. A write to any other sector, the
allocation of a block or of an inode, and the release of a block are then the same on both sides.
-/

namespace Crusadia

namespace Host

/-! ### Saving the block bitmap -/

/-- Sector `k` of the block bitmap as `save_block_bitmap` writes it. -/
def savedSector (h : Host) (k : Nat) : Sector :=
  Buf.ofFn fun j =>
    if 512 * k + j < h.gBlockBitmapBytes then h.gBlockBitmap.get (512 * k + j) else 0

/-- What a round of the two bitmap loops copies, and what it leaves. -/
theorem clip_eq (left : Nat) : (if left > sectorSize then sectorSize else left) = min 512 left ∧
    (if left > sectorSize then left - sectorSize else 0) = left - 512 := by
  have hsize : sectorSize = 512 := rfl
  constructor <;> split <;> omega

/-- The loop of `save_block_bitmap` writes the sectors that are left, and nothing else. -/
theorem saveBlockBitmapFrom_spec (count : Nat) : ∀ {h : Host} (i left src : Nat),
    left = h.gBlockBitmapBytes - 512 * i → src = min (512 * i) h.gBlockBitmapBytes →
    ∃ image, saveBlockBitmapFrom count i left src h = { h with image } ∧
      ∀ a, image.read a = if h.gSb.bitmapStart + i ≤ a ∧ a < h.gSb.bitmapStart + i + count
        then h.savedSector (a - h.gSb.bitmapStart) else h.image.read a := by
  induction count with
  | zero =>
    intro h i left src _ _
    refine ⟨h.image, rfl, fun a => ?_⟩
    rw [if_neg (by omega)]
  | succ count ih =>
    intro h i left src hleft hsrc
    obtain ⟨hn, hrest⟩ := clip_eq left
    have htmp : (Buf.zero.splice 0 (min 512 left) fun j => h.gBlockBitmap.get (src + j) : Sector) =
        h.savedSector i := by
      refine Buf.ext_get fun j hj => ?_
      rw [Buf.get_splice, savedSector, Buf.get_ofFn_lt _ hj, Buf.get_zero]
      -- a byte is copied if the bitmap goes that far
      by_cases hin : 512 * i + j < h.gBlockBitmapBytes
      · rw [if_pos (by omega), if_pos hin, show src + (j - 0) = 512 * i + j by omega]
      · rw [if_neg (by omega), if_neg hin]
    rw [saveBlockBitmapFrom]
    simp only [hn, hrest, htmp]
    obtain ⟨image, heq, hread⟩ := @ih (h.blockWrite (h.gSb.bitmapStart + i) (h.savedSector i))
      (i + 1) (left - 512) (src + min 512 left)
      (by simp only [blockWrite]; omega) (by simp only [blockWrite]; omega)
    refine ⟨image, heq, fun a => ?_⟩
    have hread' : image.read a =
        if h.gSb.bitmapStart + (i + 1) ≤ a ∧ a < h.gSb.bitmapStart + (i + 1) + count
        then h.savedSector (a - h.gSb.bitmapStart)
        else (h.image.write (h.gSb.bitmapStart + i) (h.savedSector i)).read a := hread a
    rw [hread', Disk.read_write]
    by_cases hlater : h.gSb.bitmapStart + (i + 1) ≤ a ∧ a < h.gSb.bitmapStart + (i + 1) + count
    · rw [if_pos hlater, if_pos (by omega)]
    · rw [if_neg hlater]
      by_cases hthis : a = h.gSb.bitmapStart + i
      · rw [if_pos hthis, if_pos (by omega), show a - h.gSb.bitmapStart = i by omega]
      · rw [if_neg hthis, if_neg (by omega)]

theorem saveBlockBitmap_spec (h : Host) :
    ∃ image, h.saveBlockBitmap = { h with image } ∧
      ∀ a, image.read a = if h.gSb.bitmapStart ≤ a ∧ a < h.gSb.bitmapStart + h.gBlockBitmapSectors
        then h.savedSector (a - h.gSb.bitmapStart) else h.image.read a := by
  obtain ⟨image, heq, hread⟩ := saveBlockBitmapFrom_spec h.gBlockBitmapSectors (h := h) 0
    h.gBlockBitmapBytes 0 (by omega) (by omega)
  exact ⟨image, heq, fun a => by rw [hread a, Nat.add_zero]⟩

variable {b i : Nat}

/-- A bit of a saved sector is the bit in memory. -/
theorem bit_savedSector (h : Host) (hb : b / 8 < h.gBlockBitmapBytes) :
    (h.savedSector (b / 4096)).bit (b % 4096) = h.gBlockBitmap.bit b := by
  rw [Buf.bit_eq_getLsbD, Buf.bit_eq_getLsbD, savedSector, Buf.get_ofFn_lt _ (by omega),
    show 512 * (b / 4096) + b % 4096 / 8 = b / 8 by omega, if_pos hb,
    show b % 4096 % 8 = b % 8 by omega]

/-- One byte of the bitmap is changed, in memory and in its sector. -/
theorem savedSector_put8 {h : Host} (hi : i < h.gBlockBitmapBytes) (h32 : i < 32768)
    (x : Byte) (k : Nat) :
    { h with gBlockBitmap := h.gBlockBitmap.put8 i x }.savedSector k =
      if k = i / 512 then (h.savedSector k).put8 (i % 512) x else h.savedSector k := by
  refine Buf.ext_get fun j hj => ?_
  have hget : ∀ h : Host, (h.savedSector k).get j =
      if 512 * k + j < h.gBlockBitmapBytes then h.gBlockBitmap.get (512 * k + j) else 0 :=
    fun h => Buf.get_ofFn_lt _ hj
  have hnew : ({ h with gBlockBitmap := h.gBlockBitmap.put8 i x }.savedSector k).get j =
      if 512 * k + j = i then x else (h.savedSector k).get j := by
    rw [hget, hget]
    simp only [Buf.get_put8]
    by_cases he : 512 * k + j = i
    · rw [if_pos he, if_pos (by omega), if_pos ⟨he, by omega⟩]
    · rw [if_neg he, if_neg (c := 512 * k + j = i ∧ 512 * k + j < 32768) fun hc => he hc.1]
  rw [hnew]
  by_cases hk : k = i / 512
  · rw [if_pos hk, Buf.get_put8]
    by_cases hji : j = i % 512
    · rw [if_pos (by omega), if_pos ⟨hji, hj⟩]
    · rw [if_neg (by omega), if_neg fun hc => hji hc.1]
  · rw [if_neg hk, if_neg (by omega)]

theorem get_savedSector (h : Host) (hb : b / 8 < h.gBlockBitmapBytes) :
    (h.savedSector (b / 4096)).get (b % 4096 / 8) = h.gBlockBitmap.get (b / 8) := by
  rw [savedSector, Buf.get_ofFn_lt _ (by omega),
    show 512 * (b / 4096) + b % 4096 / 8 = b / 8 by omega, if_pos hb]

/-- `save_inode_bitmap` writes the bitmap's sectors and nothing else. -/
theorem saveInodeBitmap_spec (h : Host) :
    ∃ image, h.saveInodeBitmap = { h with image } ∧ ∀ a, image.read a =
      if h.gSb.bitmapStart + h.gBlockBitmapSectors ≤ a ∧
          a < h.gSb.bitmapStart + h.gBlockBitmapSectors + h.gInodeBitmapSectors
      then h.gInodeBitmap.slice ((a - (h.gSb.bitmapStart + h.gBlockBitmapSectors)) * 512) 512
      else h.blockRead a := by
  rw [saveInodeBitmap]
  generalize h.gSb.bitmapStart + h.gBlockBitmapSectors = start
  have hfold : ∀ l : List Nat, l.foldl (fun h i => h.blockWrite (start + i)
      (h.gInodeBitmap.slice (i * sectorSize) 512)) h = { h with
        image := l.foldl (fun d i => d.write (start + i) (h.gInodeBitmap.slice (i * 512) 512))
          h.image } :=
    fun l => List.foldl_hom (fun d : Disk => { h with image := d }) fun _ _ => rfl
  exact ⟨_, hfold _, Disk.read_foldl_write (fun i => h.gInodeBitmap.slice (i * 512) 512) start
    h.image _⟩

/-- `load_inode_bitmap` copies the sectors. -/
theorem loadInodeBitmap_slice (h : Host) (h64 : h.gInodeBitmapSectors ≤ 64) :
    ∃ bm, h.loadInodeBitmap = { h with gInodeBitmap := bm } ∧ ∀ k, k < h.gInodeBitmapSectors →
      bm.slice (k * 512) 512 = h.blockRead (h.gSb.bitmapStart + h.gBlockBitmapSectors + k) := by
  rw [loadInodeBitmap]
  generalize h.gSb.bitmapStart + h.gBlockBitmapSectors = start
  have hfold : ∀ l : List Nat, l.foldl (fun h i => { h with
      gInodeBitmap := h.gInodeBitmap.splice (i * sectorSize) 512 (h.blockRead (start + i)).get })
      h = { h with gInodeBitmap := l.foldl (fun bm i =>
        bm.splice (i * 512) 512 (h.blockRead (start + i)).get) h.gInodeBitmap } :=
    fun l => List.foldl_hom (fun bm : Buf 32768 => { h with gInodeBitmap := bm }) fun _ _ => rfl
  exact ⟨_, hfold _, fun k hk =>
    Buf.slice_foldl_splice (fun i => h.blockRead (start + i)) _ (by omega) hk⟩

/-- The loop of `load_block_bitmap` copies the bytes that are left, sector by sector. -/
theorem get_loadBlockBitmapFrom (h : Host) (count : Nat) : ∀ (i left dst : Nat) (bm : Buf 32768),
    left = h.gBlockBitmapBytes - 512 * i → dst = min (512 * i) h.gBlockBitmapBytes →
    ∀ j, j < 32768 → (h.loadBlockBitmapFrom count i left dst bm).1.get j =
      if 512 * i ≤ j ∧ j < min (512 * (i + count)) h.gBlockBitmapBytes
      then (h.blockRead (h.gSb.bitmapStart + j / 512)).get (j % 512) else bm.get j := by
  induction count with
  | zero =>
    intro i left dst bm _ _ j _
    rw [loadBlockBitmapFrom, if_neg (by omega)]
  | succ count ih =>
    intro i left dst bm hleft hdst j hj
    obtain ⟨hn, hrest⟩ := clip_eq left
    rw [loadBlockBitmapFrom]
    simp only [hn, hrest]
    rw [ih (i + 1) _ _ _ (by omega) (by omega) j hj, Buf.get_splice]
    by_cases hlater : 512 * (i + 1) ≤ j ∧ j < min (512 * (i + 1 + count)) h.gBlockBitmapBytes
    · rw [if_pos hlater, if_pos (by omega)]
    · rw [if_neg hlater]
      by_cases hthis : 512 * i ≤ j ∧ j < 512 * i + min 512 left
      · rw [if_pos (by omega), if_pos (by omega), show j / 512 = i by omega,
          show j - dst = j % 512 by omega]
      · rw [if_neg (by omega), if_neg (by omega)]

/-! ### The relation -/

/-- The tool in state `h` and the driver in state `s` have the same file system open. -/
structure Sim (L : Layout) (h : Host) (s : Cos) : Prop where
  /-- The bitmap fits the tool's array. -/
  small : L.sb.totalBlocks ≤ 8 * blockBitmapMaxSize
  sectors : ∀ a, h.blockRead a = s.blockRead a
  hostSb : h.gSb = L.sb
  hostBytes : h.gBlockBitmapBytes = (L.sb.totalBlocks + 7) / 8
  hostBbs : h.gBlockBitmapSectors = L.bbs
  hostIbs : h.gInodeBitmapSectors = L.ibs
  sb : s.gSuperblock = L.sb
  bbs : s.blockBitmapSectors = L.bbs
  ibs : s.inodeBitmapSectors = L.ibs
  /-- Every sector of the block bitmap is what the tool would save, zeros past the last byte. -/
  saved : ∀ k, k < L.bbs → s.blockRead (1 + k) = h.savedSector k
  hostSync : ∀ k, k < L.ibs → s.blockRead (1 + L.bbs + k) = h.gInodeBitmap.slice (k * 512) 512
  sync : ∀ k, k < L.ibs → s.blockRead (1 + L.bbs + k) = s.inodeBitmap.slice (k * 512) 512

namespace Sim

variable {L : Layout} {h : Host} {s : Cos} {v : Img}

theorem rep (hs : Sim L h s) : Rep L s s.img :=
  ⟨hs.sb, hs.bbs, hs.ibs, rfl, rfl, fun _ _ => rfl, fun _ _ => rfl, hs.sync, fun _ _ => rfl,
    fun _ _ _ => rfl⟩

/-- The current directory is the driver's own affair. -/
theorem setCwd (hs : Sim L h s) (d : Nat) : Sim L h { s with gCurrentDir := d } :=
  ⟨hs.small, hs.sectors, hs.hostSb, hs.hostBytes, hs.hostBbs, hs.hostIbs, hs.sb, hs.bbs, hs.ibs,
    hs.saved, hs.hostSync, hs.sync⟩

/-- A write that hits neither bitmap. -/
theorem blockWrite (hs : Sim L h s) {a : Nat} (ha : a = 0 ∨ L.sb.inodeStart ≤ a) (sec : Sector) :
    Sim L (h.blockWrite a sec) (s.blockWrite a sec) := by
  have hstart := L.inodeStart
  have hread : ∀ b, b ≠ a → (s.blockWrite a sec).blockRead b = s.blockRead b :=
    fun b hb => Rep.blockRead_blockWrite hb
  refine ⟨hs.small, fun b => ?_, hs.hostSb, hs.hostBytes, hs.hostBbs, hs.hostIbs, hs.sb, hs.bbs,
    hs.ibs, fun k hk => ?_, fun k hk => ?_, fun k hk => ?_⟩
  · show (h.image.write a sec).read b = (s.disk.write a sec).read b
    rw [Disk.read_write, Disk.read_write]
    split
    · rfl
    · exact hs.sectors b
  · exact (hread _ (by omega)).trans (hs.saved k hk)
  · exact (hread _ (by omega)).trans (hs.hostSync k hk)
  · exact (hread _ (by omega)).trans (hs.sync k hk)

/-- The tool has changed the bitmap in memory, the driver its sectors: saving it makes the two
agree. -/
theorem save {h1 : Host} {s1 : Cos} (hs : Sim L h s) {bm : Buf 32768}
    (hh : h1 = { h with gBlockBitmap := bm }) {disk : Disk} (hk : s1 = { s with disk })
    (hout : ∀ a, ¬ (1 ≤ a ∧ a < 1 + L.bbs) → disk.read a = s.blockRead a)
    (hin : ∀ k, k < L.bbs → disk.read (1 + k) = h1.savedSector k) :
    Sim L h1.saveBlockBitmap s1 := by
  subst hk
  obtain ⟨image, heq, hread⟩ := saveBlockBitmap_spec h1
  have hsb : h1.gSb = L.sb := by rw [hh]; exact hs.hostSb
  have hbbs : h1.gBlockBitmapSectors = L.bbs := by rw [hh]; exact hs.hostBbs
  rw [hsb, hbbs, L.bitmapStart] at hread
  rw [heq]
  refine ⟨hs.small, fun a => ?_, hsb, by rw [hh]; exact hs.hostBytes, hbbs,
    by rw [hh]; exact hs.hostIbs, hs.sb, hs.bbs, hs.ibs, hin, fun k hk => ?_, fun k hk => ?_⟩
  · refine (hread a).trans ?_
    split
    · rename_i ha
      rw [← hin _ (by omega), show 1 + (a - 1) = a by omega]
      rfl
    · rename_i ha
      refine Eq.trans ?_ (hout a ha).symm
      rw [hh]
      exact hs.sectors a
  · refine (hout _ (by omega)).trans ((hs.hostSync k hk).trans ?_)
    rw [hh]
  · exact (hout _ (by omega)).trans (hs.sync k hk)

/-! ### Blocks -/

/-- One sector of the block bitmap is changed. -/
theorem writeBitmap (hs : Sim L h s) {bm : Buf 32768} {k0 : Nat} {sec : Sector} (hk0 : k0 < L.bbs)
    (hbm : ∀ k, { h with gBlockBitmap := bm }.savedSector k =
      if k = k0 then sec else h.savedSector k) :
    Sim L ({ h with gBlockBitmap := bm }.saveBlockBitmap) (s.blockWrite (1 + k0) sec) := by
  refine hs.save rfl rfl (fun a ha => Disk.read_write_ne (by omega)) fun k hk => ?_
  rw [hbm, Disk.read_write]
  by_cases hkk : k = k0
  · rw [if_pos (by omega), if_pos hkk]
  · rw [if_neg (by omega), if_neg hkk]
    exact hs.saved k hk

section

variable (hs : Sim L h s) (hb : b < L.sb.totalBlocks)
include hs hb

theorem byte_lt : b / 8 < h.gBlockBitmapBytes ∧ b / 8 < 32768 := by
  have hsmall := hs.small
  have hmax : blockBitmapMaxSize = 32768 := rfl
  rw [hs.hostBytes]
  omega

/-- A block's bit in memory is the one on the drive. -/
theorem bit_eq : h.gBlockBitmap.bit b = s.blockBit b := by
  rw [Cos.blockBit, hs.sb, L.bitmapStart, hs.saved _ (L.bitmap_lt hb),
    bit_savedSector h (hs.byte_lt hb).1]

/-- A byte of the bitmap is changed, in memory and in its sector. -/
theorem putByte (x : Byte) :
    Sim L ({ h with gBlockBitmap := h.gBlockBitmap.put8 (b / 8) x }.saveBlockBitmap)
      (s.blockWrite (1 + b / 4096) ((s.blockRead (1 + b / 4096)).put8 (b % 4096 / 8) x)) := by
  have hk := L.bitmap_lt hb
  obtain ⟨hbyte, h32⟩ := hs.byte_lt hb
  refine hs.writeBitmap hk fun k => ?_
  rw [savedSector_put8 hbyte h32, hs.saved _ hk, show b / 8 / 512 = b / 4096 by omega,
    show b / 8 % 512 = b % 4096 / 8 by omega]
  by_cases hkb : k = b / 4096
  · rw [if_pos hkb, if_pos hkb, hkb]
  · rw [if_neg hkb, if_neg hkb]

theorem byte_eq : (s.blockRead (1 + b / 4096)).get (b % 4096 / 8) = h.gBlockBitmap.get (b / 8) := by
  rw [hs.saved _ (L.bitmap_lt hb), h.get_savedSector (hs.byte_lt hb).1]

theorem setBit : Sim L ({ h with gBlockBitmap := h.gBlockBitmap.setBit b }.saveBlockBitmap)
      (s.blockWrite (1 + b / 4096) ((s.blockRead (1 + b / 4096)).setBit (b % 4096))) := by
  unfold Buf.setBit
  rw [hs.byte_eq hb, show b % 4096 % 8 = b % 8 by omega]
  exact hs.putByte hb _

theorem clearBit : Sim L ({ h with gBlockBitmap := h.gBlockBitmap.clearBit b }.saveBlockBitmap)
      (s.blockWrite (1 + b / 4096) ((s.blockRead (1 + b / 4096)).clearBit (b % 4096))) := by
  unfold Buf.clearBit
  rw [hs.byte_eq hb, show b % 4096 % 8 = b % 8 by omega]
  exact hs.putByte hb _

end

section

variable (hs : Sim L h s)
include hs

/-- Saving an unchanged bitmap. -/
theorem saveBlockBitmap : Sim L h.saveBlockBitmap s :=
  hs.save rfl rfl (fun _ _ => rfl) hs.saved

/-- The two searches look at the same bits. -/
theorem find_eq : (List.range' L.sb.dataStart (L.sb.totalBlocks - L.sb.dataStart)).find?
      (fun i => !h.getBlockBit i) = s.img.firstFree L := by
  rw [Img.firstFree]
  refine List.find?_congr fun i hi => ?_
  have hi := List.mem_range'_1.mp hi
  have hlt : i < L.sb.totalBlocks := by omega
  rw [getBlockBit, hs.hostSb, if_neg (by omega), hs.bit_eq hlt]
  rfl

/-- `alloc_block`. -/
theorem allocBlock : h.allocBlock.1 = s.allocBlock.1 ∧ Sim L h.allocBlock.2 s.allocBlock.2 := by
  rw [Host.allocBlock, hs.hostSb, if_pos ⟨L.magic, L.dataStart_gt⟩, hs.find_eq]
  cases hff : s.img.firstFree L with
  | some b =>
    have hb := (Img.firstFree_eq_some.mp hff).1.2
    rw [hs.rep.allocBlock_of_some hff]
    refine ⟨rfl, ?_⟩
    show Sim L (h.setBlockBit b).saveBlockBitmap _
    rw [Host.setBlockBit, if_neg (by rw [hs.hostSb]; omega)]
    exact hs.setBit hb
  | none =>
    rw [hs.rep.allocBlock_of_none hff]
    exact ⟨rfl, hs⟩

/-- `set_block_bitmap_bit`, which the tool saves later. -/
theorem setBlockBit (b : Nat) :
    Sim L (h.setBlockBit b).saveBlockBitmap (s.setBlockBitmapBit b) := by
  rw [Host.setBlockBit, Cos.setBlockBitmapBit]
  by_cases hb : b < L.sb.totalBlocks
  · rw [if_neg (by rw [hs.hostSb]; omega), if_neg (by rw [hs.sb]; omega)]
    simp only [hs.sb, L.bitmapStart, sectorSize]
    rw [show b / 8 / 512 = b / 4096 by omega, show 8 * (b / 8 % 512) + b % 8 = b % 4096 by omega]
    exact hs.setBit hb
  · rw [if_pos (by rw [hs.hostSb]; omega), if_pos (by rw [hs.sb]; omega)]
    exact hs.saveBlockBitmap

/-- `free_block`, of any number. -/
theorem freeBlock (b : Nat) : Sim L (h.freeBlock b) (s.freeBlock b) := by
  rw [Host.freeBlock, clearBlockBit, Cos.freeBlock, Cos.clearBlockBitmapBit]
  by_cases hb : b < L.sb.totalBlocks
  · rw [if_neg (by rw [hs.hostSb]; omega), if_neg (by rw [hs.sb]; omega)]
    simp only [hs.sb, L.bitmapStart, sectorSize]
    rw [show b / 8 / 512 = b / 4096 by omega, show 8 * (b / 8 % 512) + b % 8 = b % 4096 by omega]
    exact hs.clearBit hb
  · rw [if_pos (by rw [hs.hostSb]; omega), if_pos (by rw [hs.sb]; omega)]
    exact hs.saveBlockBitmap

/-! ### Inodes -/

/-- The inode bitmaps in memory agree, as far as there are inodes. -/
theorem inode_byte {j : Nat} (hj : j < 512 * L.ibs) :
    h.gInodeBitmap.get j = s.inodeBitmap.get j := by
  have hk : j / 512 < L.ibs := by omega
  have heq := congrArg (Buf.get · (j % 512)) ((hs.hostSync _ hk).symm.trans (hs.sync _ hk))
  rwa [Buf.get_slice_lt _ (by omega), Buf.get_slice_lt _ (by omega),
    show j / 512 * 512 + j % 512 = j by omega] at heq

theorem inode_bit (hi : i < L.sb.inodeCount) :
    h.gInodeBitmap.bit i = s.inodeBitmap.bit i := by
  have := L.inodes
  rw [Buf.bit_eq_getLsbD, Buf.bit_eq_getLsbD, hs.inode_byte (by omega)]

/-- Both have changed the bitmap in memory in the same way, and the driver has written what is
different. -/
theorem saveInodeBitmap {bm bm' : Buf 32768} {disk : Disk}
    (hbytes : ∀ j, j < 512 * L.ibs → bm.get j = bm'.get j)
    (hout : ∀ a, ¬ (1 + L.bbs ≤ a ∧ a < 1 + L.bbs + L.ibs) → disk.read a = s.blockRead a)
    (hin : ∀ k, k < L.ibs → disk.read (1 + L.bbs + k) = bm'.slice (k * 512) 512) :
    Sim L ({ h with gInodeBitmap := bm }.saveInodeBitmap)
      { s with inodeBitmap := bm', disk := disk } := by
  have hslice : ∀ k, k < L.ibs → (bm'.slice (k * 512) 512 : Sector) = bm.slice (k * 512) 512 := by
    intro k hk
    refine Buf.ext_get fun j hj => ?_
    rw [Buf.get_slice_lt _ hj, Buf.get_slice_lt _ hj, hbytes _ (by omega)]
  obtain ⟨image, heq, hread⟩ := saveInodeBitmap_spec { h with gInodeBitmap := bm }
  simp only [hs.hostSb, hs.hostBbs, hs.hostIbs, L.bitmapStart] at hread
  rw [heq]
  refine ⟨hs.small, fun a => ?_, hs.hostSb, hs.hostBytes, hs.hostBbs, hs.hostIbs, hs.sb, hs.bbs,
    hs.ibs, fun k hk => ?_, fun k hk => ?_, hin⟩
  · refine (hread a).trans ?_
    split
    · rename_i ha
      have hk : a - (1 + L.bbs) < L.ibs := by omega
      refine (hslice _ hk).symm.trans ((hin _ hk).symm.trans ?_)
      rw [show 1 + L.bbs + (a - (1 + L.bbs)) = a by omega]
      rfl
    · rename_i ha
      exact (hs.sectors a).trans (hout a ha).symm
  · exact (hout _ (by omega)).trans (hs.saved k hk)
  · exact (hin k hk).trans (hslice k hk)

/-- One inode's bit is changed in both bitmaps. -/
theorem flushInodeBitmapSector (hi : i < L.sb.inodeCount) (x : Byte) :
    Sim L ({ h with gInodeBitmap := h.gInodeBitmap.put8 (i / 8) x }.saveInodeBitmap)
      ({ s with inodeBitmap := s.inodeBitmap.put8 (i / 8) x }.flushInodeBitmapSector i) := by
  have hin := L.inodes
  have hsec : i / 8 / 512 < L.ibs := by omega
  have hif : ¬ i / 8 / 512 ≥ s.inodeBitmapSectors := by
    rw [hs.ibs]
    omega
  have hstart : s.gSuperblock.bitmapStart + s.blockBitmapSectors + i / 8 / 512 =
      1 + L.bbs + i / 8 / 512 := by
    rw [hs.sb, L.bitmapStart, hs.bbs]
  simp only [Cos.flushInodeBitmapSector, sectorSize, if_neg hif, hstart]
  refine hs.saveInodeBitmap (fun j hj => ?_) (fun a ha => ?_) fun k hk => ?_
  · rw [Buf.get_put8, Buf.get_put8, hs.inode_byte hj]
  · refine Disk.read_write_ne ?_
    omega
  · rw [Disk.read_write]
    by_cases hkb : k = i / 8 / 512
    · rw [if_pos (by omega), hkb]
    · rw [if_neg (by omega)]
      refine (hs.sync k hk).trans (Buf.ext_get fun j hj => ?_)
      rw [Buf.get_slice_lt _ hj, Buf.get_slice_lt _ hj, Buf.get_put8, if_neg (by omega)]

/-- `alloc_inode`. -/
theorem allocInode : h.allocInode.1 = s.allocInode.1 ∧ Sim L h.allocInode.2 s.allocInode.2 := by
  have hbytes := L.inodes
  have hfind : (List.range' 0 h.gSb.inodeCount).find? (fun i => !h.gInodeBitmap.bit i) =
      (List.range' 0 s.gSuperblock.inodeCount).find? fun i => !s.inodeBitmap.bit i := by
    rw [hs.hostSb, hs.sb]
    refine List.find?_congr fun i hi => ?_
    rw [hs.inode_bit (by have := List.mem_range'_1.mp hi; omega)]
  rw [Host.allocInode, Cos.allocInode, hfind]
  cases hres : (List.range' 0 s.gSuperblock.inodeCount).find? fun i => !s.inodeBitmap.bit i with
  | none => exact ⟨rfl, hs⟩
  | some i =>
    rw [List.find?_range'_eq_some, List.mem_range'_1, hs.sb] at hres
    refine ⟨rfl, ?_⟩
    show Sim L ({ h with gInodeBitmap := h.gInodeBitmap.setBit i }.saveInodeBitmap) _
    rw [Buf.setBit, hs.inode_byte (by omega)]
    exact hs.flushInodeBitmapSector (by omega) _

/-- `free_inode`. -/
theorem freeInode (i : Nat) : Sim L (h.freeInode i) (s.freeInode i) := by
  have hbytes := L.inodes
  rw [Host.freeInode, Cos.freeInode]
  by_cases hi : i < L.sb.inodeCount
  · rw [if_neg (by rw [hs.hostSb]; omega), if_neg (by rw [hs.sb]; omega), Buf.clearBit,
      hs.inode_byte (by omega)]
    exact hs.flushInodeBitmapSector hi _
  · rw [if_pos (by rw [hs.hostSb]; omega), if_pos (by rw [hs.sb]; omega)]
    exact hs

/-- `read_inode`. -/
theorem readInode (i : Nat) : h.readInode i = s.readInode i := by
  rw [Host.readInode, Cos.readInode, hs.hostSb, hs.sb, hs.sectors]

/-- `write_inode`; no table sector is a bitmap sector. -/
theorem writeInode (i : Nat) (n : Inode) : Sim L (h.writeInode i n) (s.writeInode i n) := by
  simp only [Host.writeInode, Cos.writeInode, hs.hostSb, hs.sb, hs.sectors]
  exact hs.blockWrite (Or.inr (Nat.le_add_right _ _)) _

/-! ### Opening an image -/

/-- The bitmap bytes past the last block are zero. -/
theorem padded {k j : Nat} (hk : k < L.bbs) (hj : j < 512)
    (hpast : (L.sb.totalBlocks + 7) / 8 ≤ 512 * k + j) : (s.blockRead (1 + k)).get j = 0 := by
  rw [hs.saved k hk, savedSector, Buf.get_ofFn_lt _ hj, if_neg (by rw [hs.hostBytes]; omega)]

end

/-- `mount_image`, on the image that the driver has open. -/
theorem mountImage {image : Disk} (hsmall : L.sb.totalBlocks ≤ 8 * blockBitmapMaxSize)
    (hrep : Rep L s v) (himage : ∀ a, image.read a = s.blockRead a)
    (hboot : Superblock.decode (s.blockRead 0) = L.sb)
    (hpad : ∀ k j, k < L.bbs → j < 512 → (L.sb.totalBlocks + 7) / 8 ≤ 512 * k + j →
      (s.blockRead (1 + k)).get j = 0) :
    ∃ h, Host.mountImage image = some h ∧ Sim L h s := by
  obtain ⟨hbytes, hbbs, hibs⟩ := geometry_sectors L
  set h0 := (start image).geometry L.sb
  have h64 : h0.loadBlockBitmap.gInodeBitmapSectors ≤ 64 := by
    show inodeSectors L.sb.inodeCount ≤ 64
    rw [hibs]
    exact L.ibs_le
  obtain ⟨bm, heq, hslice⟩ := loadInodeBitmap_slice h0.loadBlockBitmap h64
  have hsb : Superblock.decode (image.read 0) = L.sb := by rw [himage]; exact hboot
  refine ⟨h0.loadBlockBitmap.loadInodeBitmap, ?_, ?_⟩
  · rw [Host.mountImage, hsb, if_neg (not_not_intro L.magic)]
  · rw [heq]
    refine ⟨hsmall, himage, rfl, hbytes, hbbs, hibs, hrep.sb, hrep.bbs, hrep.ibs, fun k hk => ?_,
      fun k hk => ?_, hrep.sync⟩
    · refine Buf.ext_get fun j hj => ?_
      have hload := get_loadBlockBitmapFrom h0 h0.gBlockBitmapSectors 0 h0.gBlockBitmapBytes 0
        h0.gBlockBitmap (by omega) (by omega) (512 * k + j)
      have hmax : blockBitmapMaxSize = 32768 := rfl
      rw [savedSector, Buf.get_ofFn_lt _ hj]
      show _ = if 512 * k + j < bitmapBytes L.sb.totalBlocks then
        (h0.loadBlockBitmapFrom h0.gBlockBitmapSectors 0 h0.gBlockBitmapBytes 0
          h0.gBlockBitmap).1.get (512 * k + j) else 0
      rw [hbytes]
      split
      · rename_i hin
        have hbs : h0.gBlockBitmapSectors = L.bbs := hbbs
        have hby : h0.gBlockBitmapBytes = (L.sb.totalBlocks + 7) / 8 := hbytes
        rw [hload (by omega), if_pos (by omega), show (512 * k + j) / 512 = k by omega,
          show (512 * k + j) % 512 = j by omega]
        show _ = Buf.get (image.read (L.sb.bitmapStart + k)) j
        rw [himage, L.bitmapStart]
      · rename_i hin
        exact hpad k j hk hj (by omega)
    · have hk' := hslice k (by rw [← hibs] at hk; exact hk)
      refine Eq.trans ?_ hk'.symm
      show _ = image.read (L.sb.bitmapStart + bitmapSectors (bitmapBytes L.sb.totalBlocks) + k)
      rw [himage, hbbs, L.bitmapStart]

end Sim

end Host

end Crusadia
