import Crusadia.Cos.Fresh
import Crusadia.Cos.Globals

/-!
# Crusadia.Cos.Metadata

**What `fs_write` does to the metadata.** It never touches the inode bitmap or the record
of another inode. Sector 0 it leaves alone as well, but for one case: `get_physical_block`
zeroes the pointer block it has just asked for without looking at the number it got, and
the failure value of `alloc_block` is 0. `Img.Overrun` is that case in terms of the state
before the write, and `Rep.fsWrite_metadata_iff` shows that it is the only one.
-/

namespace Crusadia

namespace Cos

/-- Sector 0, the inode bitmap's sectors and every inode record but `i`'s are as before. -/
def MetadataKept (i : Nat) (s s' : Cos) : Prop :=
  s'.blockRead 0 = s.blockRead 0 ∧
    (∀ k, k < s.inodeBitmapSectors →
      s'.blockRead (s.gSuperblock.bitmapStart + s.blockBitmapSectors + k) =
        s.blockRead (s.gSuperblock.bitmapStart + s.blockBitmapSectors + k)) ∧
    ∀ j, j < s.gSuperblock.inodeCount → j ≠ i → s'.readInode j = s.readInode j

end Cos

/-- The write stops at its block `k`, for lack of blocks, with an inner block missing: the
blocks before it are there or can be had, some byte of `data` belongs to it, and more than
one block would be needed beyond those that are free. -/
def Img.Overrun (L : Layout) (v : Img) (i o : Nat) (data : List Byte) (k : Nat) : Prop :=
  (∀ j, j < k → Img.Takes L v i (o / 512) j) ∧ 512 * (o / 512 + k) - o < data.length ∧
    o / 512 + k < maxBlocks ∧ v.free L + 1 < (v.neededSet L i (o / 512) (k + 1)).card

namespace Rep

variable {L : Layout} {s : Cos} {v v' : Img} {i o : Nat} {data : List Byte}

/-- The first block that a write cannot have is determined by the image before it. -/
theorem WriteEnd.boot_iff {ok : Bool} {w : Nat} (h : WriteEnd L i o data v v' ok w) :
    v'.boot = v.boot ↔ v.boot = Buf.zero ∨ ¬ ∃ k, v.Overrun L i o data k := by
  cases h with
  | full _ _ hboot htakes =>
    refine iff_of_true hboot (Or.inr ?_)
    rintro ⟨k, -, hlt, -, hfree⟩
    -- The byte of `data` that belongs to block `k` first.
    have ht := htakes (max o (512 * (o / 512 + k))) (by omega) (by omega)
    rw [show max o (512 * (o / 512 + k)) / 512 - o / 512 = k by omega] at ht
    have := ht.2
    omega
  | short k _ hw hlt hfail htakes hboot =>
    have hover : ¬ (maxBlocks ≤ o / 512 + k ∨
        (v.neededSet L i (o / 512) (k + 1)).card = v.free L + 1) ↔
        ∃ k, v.Overrun L i o data k := by
      rw [Img.Takes] at hfail
      constructor
      · intro hnot
        exact ⟨k, htakes, by omega, by omega, by omega⟩
      · rintro ⟨k', htakes', hlt', hmax, hfree⟩
        -- Both are the first block out of reach.
        have hk : k' = k := by
          rcases Nat.lt_trichotomy k' k with hk | hk | hk
          · have := (htakes k' hk).2
            omega
          · exact hk
          · exact absurd (htakes' k hk) hfail
        subst hk
        omega
    rw [hboot, ← hover, not_not]
    split
    · rename_i hc
      exact iff_of_true rfl (Or.inr hc)
    · rename_i hc
      rw [or_iff_left hc]
      exact eq_comm

/-- **Metadata under `fs_write`.** -/
theorem fsWrite_metadata_iff (h : Rep L s v) (hv : Img.Inv L v) (hi : i < L.sb.inodeCount)
    (hu : v.used i = true) (ho : o < 2 ^ 32) (data : List Byte) :
    Cos.MetadataKept i s (s.fsWrite i o data).2 ↔
      v.boot = Buf.zero ∨ ¬ ∃ k, v.Overrun L i o data k := by
  obtain ⟨v', w, sz, ok, h', hw, hend, -⟩ := h.fsWrite_spec hv.blocks hi hu ho data
  rw [← hend.boot_iff, Cos.MetadataKept, h.boot, h'.boot, and_iff_left]
  refine ⟨fun k hk => ?_, fun j hj hne => ?_⟩
  · rw [h.sb, L.bitmapStart, h.bbs, h.sync k (h.ibs ▸ hk), h'.sync k (h.ibs ▸ hk),
      (s.written_fsWrite i o data).bitmap]
  · rw [h.sb] at hj
    rw [h.ino j hj, h'.ino j hj, hw.edit.ino j hne]

end Rep

namespace Cos

/-- **Metadata over runs.** In every state of every run, a write to a file keeps the
metadata if and only if it does not run out of blocks with an inner block still missing
(or sector 0 is all zero already). -/
theorem run_write_metadata_iff (s₀ : Cos) {s : Cos} (hrun : Run s₀ s) {i o : Nat}
    (hi : s.FileInode i) (ho : o < 2 ^ 32) (data : List Byte) :
    MetadataKept i s (s.fsWrite i o data).2 ↔ s.blockRead 0 = Buf.zero ∨
      ¬ ∃ k, s.img.Overrun (Layout.ofDrive s₀.driveSectors) i o data k := by
  obtain ⟨hrep, hv⟩ := (hrun.sound_of_inode (Or.inr hi)).img
  obtain ⟨hlt, hu, -⟩ := hrep.fileInode_iff.mp hi
  exact hrep.fsWrite_metadata_iff hv hlt hu ho data

end Cos

/-! ### A drive that fills up -/

namespace Img

variable {L : Layout} {v : Img} {i a n : Nat}

/-- The empty slots on the way to a block of the double indirect range, when it has no blocks
yet. -/
theorem missingSet_double (hi : i < L.sb.inodeCount) (hu : v.used i = true)
    (h13 : (v.ino i).ptr 13 = 0) {j : Nat} (hj : j < 16384) :
    v.missingSet L i (140 + j) = {(13, []), (13, [j / 128]), (13, [j / 128, j % 128])} := by
  have hpath : Cos.blockPath (140 + j) = some (13, [j / 128, j % 128]) := by
    have hsub : 140 + j - inodeDirect - ptrsPerBlock = j := by
      unfold inodeDirect ptrsPerBlock
      omega
    rw [Cos.blockPath]
    dsimp only
    rw [if_neg, hsub, if_neg, if_pos (show j < ptrsPerBlock * ptrsPerBlock from hj)]
    · rfl
    · unfold inodeDirect ptrsPerBlock
      omega
    · unfold inodeDirect
      omega
  have hzero : ∀ p, v.ptr L (i, 13) p = 0 := fun p => by
    by_contra hne
    exact ptr_ne_zero_of_init List.nil_prefix hne ((forest_root hi hu (by omega)).trans h13)
  rw [missingSet, hpath]
  ext x
  simp [hzero]

/-- What `n` blocks from `a` on take there: themselves, a table for every 128 and one more. -/
theorem neededSet_double (hi : i < L.sb.inodeCount) (hu : v.used i = true)
    (h13 : (v.ino i).ptr 13 = 0) (hn : 0 < n) (hmax : a + n ≤ 16384) :
    (v.neededSet L i (140 + a) n).card = 1 + ((a + n + 127) / 128 - a / 128) + n := by
  have heq : v.neededSet L i (140 + a) n = insert (13, [])
      (((Finset.Ico (a / 128) ((a + n + 127) / 128)).image fun t => (13, [t])) ∪
        (Finset.Ico a (a + n)).image fun j => (13, [j / 128, j % 128])) := by
    ext x
    simp only [neededSet, Finset.mem_biUnion, Finset.mem_range, Finset.mem_insert, Finset.mem_union,
      Finset.mem_image, Finset.mem_Ico]
    constructor
    · rintro ⟨j, hj, hx⟩
      rw [Nat.add_assoc, missingSet_double hi hu h13 (by omega)] at hx
      simp only [Finset.mem_insert, Finset.mem_singleton] at hx
      obtain rfl | rfl | rfl := hx
      · exact .inl rfl
      · exact .inr (.inl ⟨_, by omega, rfl⟩)
      · exact .inr (.inr ⟨a + j, by omega, rfl⟩)
    · have hmem : ∀ j, a ≤ j → j < a + n → x ∈ v.missingSet L i (140 + j) →
          ∃ j < n, x ∈ v.missingSet L i (140 + a + j) := fun j h1 h2 hx =>
        ⟨j - a, by omega, by rwa [show 140 + a + (j - a) = 140 + j by omega]⟩
      rintro (rfl | ⟨t, ht, rfl⟩ | ⟨j, hj, rfl⟩)
      · refine hmem a (by omega) (by omega) ?_
        simp [missingSet_double hi hu h13 (show a < 16384 by omega)]
      · refine hmem (max a (128 * t)) (by omega) (by omega) ?_
        rw [missingSet_double hi hu h13 (by omega), show max a (128 * t) / 128 = t by omega]
        simp
      · refine hmem j hj.1 hj.2 ?_
        simp [missingSet_double hi hu h13 (show j < 16384 by omega)]
  rw [heq, Finset.card_insert_of_notMem (by simp), Finset.card_union_of_disjoint,
    Finset.card_image_of_injective _ fun t t' h => by simpa using h,
    Finset.card_image_of_injective _ fun j j' h => ?_, Nat.card_Ico, Nat.card_Ico]
  · omega
  · simp only [Prod.mk.injEq, List.cons.injEq] at h
    omega
  · simp only [Finset.disjoint_left, Finset.mem_image]
    rintro _ ⟨t, -, rfl⟩ ⟨j, -, h⟩
    simp at h

end Img

namespace Cos

/-- A drive with one file on it, which is empty. -/
def newDrive : Cos := (zeroDrive 1024).oneFile

theorem newDrive_spec : Run (zeroDrive 1024) newDrive ∧ ∃ v, Rep (Layout.ofDrive 1024) newDrive v ∧
    Img.OneFile (zeroDrive 1024) (Layout.ofDrive 1024) v :=
  oneFile_spec _ (by decide)

theorem newDrive_file : newDrive.FileInode 6 := by
  obtain ⟨-, v, hrep, hv⟩ := newDrive_spec
  exact hrep.fileInode_iff.mpr ⟨by decide, hv.used, hv.type⟩

theorem run_write_metadata_iff_first_block :
    MetadataKept 6 newDrive (newDrive.fsWrite 6 0 [1]).2 := by
  obtain ⟨hrun, v, hrep, hv⟩ := newDrive_spec
  refine (run_write_metadata_iff _ hrun newDrive_file (by decide) [1]).mpr (Or.inr ?_)
  rintro ⟨k, -, hlt, -, hfree⟩
  rw [List.length_singleton] at hlt
  obtain rfl : k = 0 := by omega
  -- Block 0 of the file is there.
  obtain ⟨hrep', -⟩ := (hrun.sound_of_inode (Or.inr newDrive_file)).img
  obtain ⟨h6, hu, -⟩ := hrep'.fileInode_iff.mp newDrive_file
  have hptr : (newDrive.img.ino 6).ptr 0 ≠ 0 := by
    rw [← hrep'.ino 6 h6, hrep.ino 6 h6, hv.ptr (by omega)]
    decide
  have hpath : blockPath (0 / 512) = some (0, []) := by decide
  rw [Img.neededSet_one_card h6 hu, Img.missingBlocks, hpath] at hfree
  simp only [hptr, if_false, Img.missing] at hfree
  omega

/-- A write that has the last free block for the last slot of a table: the next block needs a new
table, `alloc_block` has nothing left, and sector 0 is zeroed. -/
theorem full_drive_write_zeroes_superblock :
    Run (zeroDrive 1024) newDrive ∧ newDrive.FileInode 6 ∧
      ¬ MetadataKept 6 newDrive (newDrive.fsWrite 6 114176 (List.replicate 481793 1)).2 := by
  obtain ⟨hrun, v, hrep, hv⟩ := newDrive_spec
  have h13 : (v.ino 6).ptr 13 = 0 := hv.ptr (by omega)
  have hfree : v.free (Layout.ofDrive 1024) = 950 := by
    rw [Img.free, hv.filled.freeList, List.length_range']
    decide
  have hcost := fun n => Img.neededSet_double (L := Layout.ofDrive 1024) (a := 83) (n := n)
    (by decide) hv.used h13
  have hmax : maxBlocks = 2113676 := rfl
  refine ⟨hrun, newDrive_file, ?_⟩
  rw [hrep.fsWrite_metadata_iff hv.inv (by decide) hv.used (by decide), not_or, not_not]
  refine ⟨?_, 941, fun j hj => ⟨by omega, ?_⟩, ?_, by omega, ?_⟩
  · rw [hv.boot]
    exact (Layout.ofDrive 1024).encode_ne_zero
  · rw [show 114176 / 512 = 140 + 83 from rfl, hcost (j + 1) (by omega) (by omega)]
    omega
  · rw [List.length_replicate]
    decide
  · rw [show 114176 / 512 = 140 + 83 from rfl, hcost 942 (by omega) (by omega), hfree]
    decide

end Cos

end Crusadia
