import Crusadia.Cos.Fresh

/-!
# Crusadia.Cos.ReadBack

**Reading back what was written.** `Cos.WriteContract` is what a caller of `fs_write`
expects of one call: the return value, the new size, the bytes that `fs_read` gives
afterwards, and everything else in the filesystem unchanged.

All of it holds in every state of a run, but for one thing. A logical block that had no
block yet gets one with whatever that block last held, and a write that covers only part
of it leaves those bytes in the file. Where the file already had zeroes there, below its
size, they are replaced by what was left on the drive (`Img.Exposes`).
`Rep.fsWrite_contract_iff` shows that this is the only way to break the contract.
-/

namespace Crusadia

namespace Cos

/-- What `fs_read` gives for the byte at `pos` of inode `i`. -/
def readByte (s : Cos) (i pos : Nat) : Option Byte := (s.fsRead i (s.readInode i) pos 1)[0]?

/-- The contract of one call `fs_write(i, o, data, len)`. -/
structure WriteContract (s : Cos) (i o : Nat) (data : List Byte) : Prop where
  /-- Unless it fails it returns the length, the size grows to the end of the data, and
  that end did not wrap. -/
  result : (s.fsWrite i o data).1 ≠ -1 → (s.fsWrite i o data).1 = data.length ∧
    ((s.fsWrite i o data).2.readInode i).size = max (s.readInode i).size (o + data.length) ∧
    (data ≠ [] → o + data.length < 2 ^ 32)
  /-- Unless it fails, a read inside the file gives the data and, elsewhere below the old
  size, the bytes that were there. -/
  read : (s.fsWrite i o data).1 ≠ -1 → ∀ off n,
    off + n ≤ ((s.fsWrite i o data).2.readInode i).size →
    ∃ bytes, (s.fsWrite i o data).2.fsRead i ((s.fsWrite i o data).2.readInode i) off n = bytes ∧
      bytes.length = n ∧ ∀ k, k < n →
        (o ≤ off + k → off + k < o + data.length → bytes[k]? = data[off + k - o]?) ∧
        (¬ (o ≤ off + k ∧ off + k < o + data.length) → off + k < (s.readInode i).size →
          bytes[k]? = s.readByte i (off + k))
  /-- Every other inode reads as before. -/
  others : ∀ j, s.InUse j → j ≠ i → ∀ off n,
    (s.fsWrite i o data).2.fsRead j ((s.fsWrite i o data).2.readInode j) off n =
      s.fsRead j (s.readInode j) off n
  /-- Every lookup gives what it gave before. -/
  lookups : ∀ d, s.InUse d → ∀ name,
    (s.fsWrite i o data).2.dirLookup ((s.fsWrite i o data).2.readInode d) name =
      s.dirLookup (s.readInode d) name

end Cos

namespace Img

/-- Every block of the write is there or can be had. -/
def Fits (L : Layout) (v : Img) (i o : Nat) (data : List Byte) : Prop :=
  ∀ pos, o ≤ pos → pos < o + data.length → Takes L v i (o / 512) (pos / 512 - o / 512)

/-- Position `pos` shares a logical block with the data, which does not cover it; that block
is not there yet, and the free block that will be put there does not hold a 0 at `pos`. -/
structure Stale (L : Layout) (v : Img) (i o : Nat) (data : List Byte) (pos : Nat) : Prop where
  outside : ¬ (o ≤ pos ∧ pos < o + data.length)
  touched : ∃ q, o ≤ q ∧ q < o + data.length ∧ q / 512 = pos / 512
  hole : v.dataBlock L i (pos / 512) = 0
  byte : (v.blk (v.leaf L i (o / 512) (pos / 512))).get (pos % 512) ≠ 0

/-- A stale byte that replaces a 0 of the file. -/
def Exposes (L : Layout) (v : Img) (i o : Nat) (data : List Byte) : Prop :=
  Fits L v i o data ∧ ∃ pos, pos < (v.ino i).size ∧ Stale L v i o data pos

variable {L : Layout} {v v' : Img} {i j o d : Nat} {data : List Byte}

/-- Another inode's directory slots. -/
theorem Frame.findSlot (h : Frame L i v v') (hne : d ≠ i) (hd : IsDir L v d) (name : CStr)
    (count : Nat) : ∀ b, b + count ≤ 12 →
    (v'.findSlot d name count b).map (fun bk => v'.ent d bk.1 bk.2) =
      (v.findSlot d name count b).map fun bk => v.ent d bk.1 bk.2 := by
  induction count with
  | zero => exact fun _ _ => rfl
  | succ count ih =>
    intro b hb
    rw [Img.findSlot, Img.findSlot, h.ino d hne]
    by_cases h0 : (v.ino d).ptr b = 0
    · rw [if_pos h0, if_pos h0, Option.map_none, Option.map_none]
    · have hroot : v.ptr L (d, b) [] = (v.ino d).ptr b := forest_root hd.lt hd.used (by omega)
      have hblk := h.blk (d, b) [] (Forest.place_nil _) hne (by rw [hroot]; exact h0)
      rw [hroot] at hblk
      have hent : ∀ k, v'.ent d b k = v.ent d b k := by
        intro k
        rw [ent, ent, h.ino d hne, hblk]
      simp only [if_neg h0, hent, hblk]
      split
      · simp only [Option.map_some, hent]
      · exact ih (b + 1) (by omega)

end Img

namespace Rep

variable {L : Layout} {s s' : Cos} {v v' : Img} {i o : Nat} {data : List Byte}

section

variable (h : Rep L s v) (hb : Img.Blocks L v) (hi : i < L.sb.inodeCount) (hu : v.used i = true)
include h hb hi hu

/-- A read inside the file. -/
theorem fsRead_inside {off n : Nat} (hin : off + n ≤ (v.ino i).size) :
    s.fsRead i (s.readInode i) off n = (List.range n).map fun k => v.fileByte L i (off + k) := by
  have h32 : (v.ino i).size < 2 ^ 32 := Buf.get32_lt _ _
  have hlen : Cos.readLength (v.ino i).size off n = n := by
    rw [Cos.readLength, Nat.mod_eq_of_lt (by omega)]
    split
    · omega
    · rw [if_neg (by omega)]
  rw [h.ino i hi, h.fsRead_eq hb hi hu, hlen]
  refine List.map_congr_left fun k hk => ?_
  have := List.mem_range.mp hk
  rw [Nat.mod_eq_of_lt (by omega)]

theorem readByte_eq {pos : Nat} (hpos : pos < (v.ino i).size) :
    s.readByte i pos = some (v.fileByte L i pos) := by
  rw [Cos.readByte, h.fsRead_inside hb hi hu (by omega)]
  rfl

end

theorem WriteEnd.ok_iff {ok : Bool} {w : Nat} (h : WriteEnd L i o data v v' ok w) :
    ok = true ↔ v.Fits L i o data := by
  cases h with
  | full hok _ _ htakes => exact iff_of_true hok htakes
  | short k hok hw hlt hfail _ _ =>
    refine iff_of_false (by rw [hok]; decide) fun hfits => hfail ?_
    have ht := hfits (max o (512 * (o / 512 + k))) (by omega) (by omega)
    rwa [show max o (512 * (o / 512 + k)) / 512 - o / 512 = k by omega] at ht

/-- Reads and lookups that do not concern inode `i`. -/
theorem frame_lookup (h : Rep L s v) (hv : Img.Inv L v) (h' : Rep L s' v') (hv' : Img.Inv L v')
    (hf : Img.Edit L i v v') (hi : (v.ino i).type ≠ 2) {d : Nat} (hd : d < L.sb.inodeCount)
    (hu : v.used d = true) (name : CStr) :
    s'.dirLookup (s'.readInode d) name = s.dirLookup (s.readInode d) name := by
  have htype : (v'.ino d).type = (v.ino d).type := by
    by_cases hne : d = i
    · rw [hne]
      exact hf.raw 64 (by omega)
    · rw [hf.ino d hne]
  rw [h.ino d hd, h'.ino d hd]
  by_cases ht : (v.ino d).type = 2
  · have hne : d ≠ i := fun he => hi (he ▸ ht)
    have hdir : Img.IsDir L v d := ⟨hd, hu, ht⟩
    rw [h.dirLookup_eq hv hdir, h'.dirLookup_eq hv' ⟨hd, hf.used ▸ hu, htype.trans ht⟩]
    exact hf.toFrame.findSlot hne hdir name 12 0 (by omega)
  · rw [Cos.dirLookup, Cos.dirLookup, if_pos ht, if_pos (by rw [htype]; exact ht)]

theorem frame_read (h : Rep L s v) (hb : Img.Blocks L v) (h' : Rep L s' v')
    (hb' : Img.Blocks L v') (hf : Img.Edit L i v v') {j : Nat} (hj : j < L.sb.inodeCount)
    (hu : v.used j = true) (hne : j ≠ i) (off n : Nat) :
    s'.fsRead j (s'.readInode j) off n = s.fsRead j (s.readInode j) off n := by
  rw [h.ino j hj, h'.ino j hj, h.fsRead_eq hb hj hu, h'.fsRead_eq hb' hj (hf.used ▸ hu),
    hf.ino j hne]
  exact List.map_congr_left fun k _ => hf.toFrame.fileByte hne _

/-- What a write that got through left at a position outside its data. -/
theorem wrote_outside {sz : Nat} (hw : Img.Wrote L i o data v data.length sz v') {pos : Nat}
    (hout : ¬ (o ≤ pos ∧ pos < o + data.length)) :
    v'.fileByte L i pos = v.fileByte L i pos ↔ ¬ v.Stale L i o data pos := by
  by_cases h0 : v.dataBlock L i (pos / 512) = 0
  · rw [Img.fileByte_of_zero h0]
    by_cases hm : v'.dataBlock L i (pos / 512) = 0
    · -- Still a hole: the write did not come here.
      refine iff_of_true (Img.fileByte_of_zero hm) ?_
      rintro ⟨-, ⟨q, h1, h2, hq⟩, -, -⟩
      exact (hw.stored q h1 h2).1 (hq ▸ hm)
    · rw [hw.stale pos h0 hm hout, ← not_iff_not, not_not]
      exact ⟨fun hne => ⟨hout, hw.hole _ h0 hm, h0, hne⟩, fun hs => hs.byte⟩
  · exact iff_of_true (hw.kept pos h0 hout) fun hs => h0 hs.hole

/-- **The contract of `fs_write`.** -/
theorem fsWrite_contract_iff (h : Rep L s v) (hv : Img.Inv L v) (hi : i < L.sb.inodeCount)
    (hu : v.used i = true) (ht : (v.ino i).type = 1) (ho : o < 2 ^ 32) (data : List Byte) :
    s.WriteContract i o data ↔ ¬ v.Exposes L i o data := by
  obtain ⟨v', w, sz, ok, h', hw, hend, -, hres⟩ := h.fsWrite_spec hv.blocks hi hu ho data
  have hnotdir : (v.ino i).type ≠ 2 := by rw [ht]; decide
  have hv' := hv.edit hw.edit hw.blocks hnotdir
  have hu' : v'.used i = true := hw.edit.used ▸ hu
  have hsize : ((s.fsWrite i o data).2.readInode i).size = sz := by rw [h'.ino i hi, hw.size]
  have hothers : ∀ j, s.InUse j → j ≠ i → ∀ off n,
      (s.fsWrite i o data).2.fsRead j ((s.fsWrite i o data).2.readInode j) off n =
        s.fsRead j (s.readInode j) off n := by
    intro j hj hne off n
    obtain ⟨hlt, huj⟩ := h.inUse_iff.mp hj
    exact h.frame_read hv.blocks h' hw.blocks hw.edit hlt huj hne off n
  have hlookups : ∀ d, s.InUse d → ∀ name,
      (s.fsWrite i o data).2.dirLookup ((s.fsWrite i o data).2.readInode d) name =
        s.dirLookup (s.readInode d) name := by
    intro d hd name
    obtain ⟨hlt, hud⟩ := h.inUse_iff.mp hd
    exact h.frame_lookup hv h' hv' hw.edit hnotdir hlt hud name
  rcases hres with ⟨hok, hret, hsz, hmax⟩ | ⟨hok, hret, hsz⟩
  · have hfits := hend.ok_iff.mp hok
    obtain rfl : w = data.length := by
      cases hend with
      | full _ hwlen _ _ => exact hwlen
      | short _ hfalse _ _ _ _ _ => rw [hok] at hfalse; cases hfalse
    have hread : ∀ {off n : Nat}, off + n ≤ sz →
        (s.fsWrite i o data).2.fsRead i ((s.fsWrite i o data).2.readInode i) off n =
          (List.range n).map fun k => v'.fileByte L i (off + k) := fun hin =>
      h'.fsRead_inside hw.blocks hi hu' (by rw [hw.size]; exact hin)
    constructor
    · -- The byte at a stale position is read on its own.
      rintro ⟨-, hc, -, -⟩ ⟨-, pos, hpos, hstale⟩
      obtain ⟨bytes, hbytes, -, hk⟩ := hc (by rw [hret]; omega) pos 1 (by rw [hsize]; omega)
      have hold := (hk 0 (by omega)).2 hstale.outside (by rw [h.ino i hi]; exact hpos)
      rw [hread (by omega)] at hbytes
      rw [← hbytes, Nat.add_zero, h.readByte_eq hv.blocks hi hu hpos] at hold
      exact (wrote_outside hw hstale.outside).mp (Option.some.inj hold) hstale
    · intro hexp
      refine ⟨fun _ => ⟨hret, by rw [hsize, hsz, h.ino i hi], fun hne => ?_⟩, fun _ off n hin => ?_,
        hothers, hlookups⟩
      · have := hmax hne
        rw [maxBlocks] at this
        omega
      · rw [hsize] at hin
        refine ⟨_, hread hin, by simp, fun k hk => ⟨fun h1 h2 => ?_, fun hout hlt => ?_⟩⟩
        · have hget : data[off + k - o]? = some (data.getD (off + k - o) 0) := by
            rw [List.getD_eq_getElem?_getD, List.getElem?_eq_getElem (by omega)]
            rfl
          rw [hget, List.getElem?_map, List.getElem?_range hk, Option.map_some,
            (hw.stored _ h1 h2).2]
        · rw [h.ino i hi] at hlt
          rw [h.readByte_eq hv.blocks hi hu hlt, List.getElem?_map, List.getElem?_range hk,
            Option.map_some, (wrote_outside hw hout).mpr fun hs => hexp ⟨hfits, _, hlt, hs⟩]
  · -- A write that fails promises nothing about the file itself.
    refine iff_of_true ⟨fun hne => absurd hret hne, fun hne => absurd hret hne, hothers, hlookups⟩
      ?_
    rintro ⟨hfits, -⟩
    rw [hend.ok_iff.mpr hfits] at hok
    cases hok

end Rep

namespace Cos

/-- **Read after write, over runs.** In every state of every run, a write to a file meets
its contract if and only if it exposes no stale byte below the file's old size. -/
theorem run_write_contract_iff (s₀ : Cos) {s : Cos} (hrun : Run s₀ s) {i o : Nat}
    (hi : s.FileInode i) (ho : o < 2 ^ 32) (data : List Byte) :
    s.WriteContract i o data ↔ ¬ s.img.Exposes (Layout.ofDrive s₀.driveSectors) i o data := by
  obtain ⟨hrep, hv⟩ := (hrun.sound_of_inode (Or.inr hi)).img
  obtain ⟨hlt, hu, ht⟩ := hrep.fileInode_iff.mp hi
  exact hrep.fsWrite_contract_iff hv hlt hu ht ho data

end Cos

/-! ### A drive that was in use before -/

/-- A write of no bytes past the end moves the end. -/
theorem Rep.fsWrite_nil {L : Layout} {s : Cos} {v : Img} {i o : Nat} (h : Rep L s v)
    (hi : i < L.sb.inodeCount) (ho : o < 2 ^ 32) (hgt : (v.ino i).size < o) :
    Rep L (s.fsWrite i o []).2 (v.setIno i ((v.ino i).setSize o)) := by
  have hloop : Cos.fsWriteLoop i o [] 0 (v.ino i) Buf.zero s = ⟨true, 0, v.ino i, s⟩ := by
    rw [Cos.fsWriteLoop, if_neg (show ¬ 0 < ([] : List Byte).length from Nat.lt_irrefl 0)]
  have hend : (o + 0) % 2 ^ 32 = o := Nat.mod_eq_of_lt ho
  rw [Cos.fsWrite, h.ino i hi, hloop]
  simp only [Bool.not_true, Bool.false_eq_true, if_false, hend, gt_iff_lt, if_pos hgt]
  exact h.writeInode _ hi

namespace Cos

/-- A drive full of `0xAA`. -/
def staleDrive : Cos := rawDrive 1024 fun _ => Buf.ofFn fun _ => 0xAA

theorem six_lt : 6 < (Layout.ofDrive 1024).sb.inodeCount := by decide

/-- The first write to a new file has no byte to replace. -/
theorem run_write_contract_iff_new_file : staleDrive.oneFile.WriteContract 6 0 [1] := by
  obtain ⟨hrun, v, hrep, hv⟩ := oneFile_spec staleDrive (by decide)
  change Rep (Layout.ofDrive 1024) _ v at hrep
  have hfile : staleDrive.oneFile.FileInode 6 := hrep.fileInode_iff.mpr ⟨six_lt, hv.used, hv.type⟩
  refine (run_write_contract_iff staleDrive hrun hfile (by decide) [1]).mpr ?_
  rintro ⟨-, pos, hpos, -⟩
  have hsize : (staleDrive.oneFile.img.ino 6).size = 0 := by
    rw [← hv.size, ← hrep.ino 6 six_lt]
    rfl
  omega

/-- The file `"f"` on it, with its end moved to 1024. -/
def staleFile : Cos := staleDrive.oneFile.apply (.write 6 1024 [])

end Cos

/-- The image of `Cos.staleFile`: block 1 of the file is a hole below its size, and the next
free block is full of `0xAA`. -/
structure Img.StaleFile (L : Layout) (v : Img) : Prop where
  inv : Inv L v
  used : v.used 6 = true
  type : (v.ino 6).type = 1
  size : (v.ino 6).size = 1024
  ptr : (v.ino 6).ptr 1 = 0
  free : v.freeList L = List.range' 74 950
  blk : v.blk 74 = Buf.ofFn fun _ => 0xAA

namespace Cos

theorem staleFile_spec : Run staleDrive staleFile ∧
    ∃ v, Rep (Layout.ofDrive 1024) staleFile v ∧ Img.StaleFile (Layout.ofDrive 1024) v := by
  obtain ⟨hrun, v, hrep, hv⟩ := oneFile_spec staleDrive (by decide)
  change Rep (Layout.ofDrive 1024) _ v at hrep
  change Img.OneFile _ (Layout.ofDrive 1024) v at hv
  have hsize : (v.ino 6).size = 0 := hv.size
  have hfile : staleDrive.oneFile.FileInode 6 := hrep.fileInode_iff.mpr ⟨six_lt, hv.used, hv.type⟩
  have hrep' := hrep.fsWrite_nil (o := 1024) six_lt (by decide) (by omega)
  rw [staleFile]
  refine ⟨hrun.tail ⟨.write 6 1024 [], ⟨hfile, by decide⟩, rfl⟩, _, by rw [apply]; exact hrep', ?_⟩
  have hptr : ∀ r, r < 15 → ((v.ino 6).setSize 1024).ptr r = (v.ino 6).ptr r := fun r _ =>
    Buf.get32_put32_out (by omega)
  have hraw : ∀ k, 64 ≤ k → ((v.ino 6).setSize 1024).raw.get k = (v.ino 6).raw.get k := fun k hk =>
    Buf.get_splice_out (by omega)
  have hnode : (v.setIno 6 ((v.ino 6).setSize 1024)).ino 6 = (v.ino 6).setSize 1024 := by
    rw [Img.ino_setIno, if_pos rfl]
  refine
    { inv := hv.inv.edit (Img.edit_setIno hptr hraw) (hv.inv.blocks.setIno hptr) ?_
      used := hv.used
      type := ?_
      size := ?_
      ptr := ?_
      free := ?_
      blk := ?_ }
  · rw [hv.type]
    decide
  · rw [hnode, ← hv.type]
    exact hraw 64 (by omega)
  · rw [hnode, Inode.size, Inode.setSize, Buf.get32_put32_same _ (by omega),
      Nat.mod_eq_of_lt (by omega)]
  · rw [hnode, hptr 1 (by omega), hv.ptr (by omega), if_neg (by decide)]
  · exact hv.filled.freeList.trans (congrArg₂ List.range' (by decide) (by decide))
  · refine Eq.trans (hv.blk 74 (by decide)) ?_
    rw [blockRead, staleDrive, rawDrive]

/-- The hole at block 1, and the block that is put there. -/
theorem staleFile_hole {v : Img} (hv : Img.StaleFile (Layout.ofDrive 1024) v) :
    v.dataBlock (Layout.ofDrive 1024) 6 1 = 0 ∧ v.leaf (Layout.ofDrive 1024) 6 1 1 = 74 ∧
      v.missingBlocks 6 1 = 1 := by
  have hpath : blockPath 1 = some (1, []) := by decide
  have hmiss : v.missingBlocks 6 1 = 1 := by
    rw [Img.missingBlocks, hpath]
    simp [hv.ptr]
  refine ⟨?_, ?_, hmiss⟩
  · rw [Img.dataBlock_eq hpath]
    exact (Img.forest_root six_lt hv.used (by omega)).trans hv.ptr
  · rw [Img.leaf, hv.free, Img.neededSet_one_card six_lt hv.used, hmiss]
    rfl

/-- A one-byte write into the hole: the byte after it was 0 and is `0xAA` now. -/
theorem stale_byte_replaces_zero :
    Run staleDrive staleFile ∧ staleFile.FileInode 6 ∧ ¬ staleFile.WriteContract 6 512 [2] := by
  obtain ⟨hrun, v, hrep, hv⟩ := staleFile_spec
  obtain ⟨hhole, hleaf, hmiss⟩ := staleFile_hole hv
  refine ⟨hrun, hrep.fileInode_iff.mpr ⟨six_lt, hv.used, hv.type⟩, ?_⟩
  rw [hrep.fsWrite_contract_iff hv.inv six_lt hv.used hv.type (by decide), not_not]
  have hfree : v.free (Layout.ofDrive 1024) = 950 := by rw [Img.free, hv.free, List.length_range']
  refine ⟨fun pos h₁ h₂ => ?_, 513, by rw [hv.size]; decide, by decide, ⟨512, by decide⟩, hhole, ?_⟩
  · obtain rfl : pos = 512 := by
      rw [List.length_singleton] at h₂
      omega
    refine ⟨by decide, ?_⟩
    rw [hfree, show 512 / 512 = 1 from rfl, Nat.sub_self, Img.neededSet_one_card six_lt hv.used,
      hmiss]
    decide
  · change (v.blk (v.leaf (Layout.ofDrive 1024) 6 1 1)).get 1 ≠ 0
    rw [hleaf, hv.blk, Buf.get_ofFn_lt _ (by decide)]
    decide

end Cos

end Crusadia
