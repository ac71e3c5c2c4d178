import Crusadia.Cos.Fresh
import Crusadia.Host.Dir

/-!
# Crusadia.Host.Format

**Making a file system, on both sides.** `cmd_mkfs` fills the bitmap in memory and saves it once,
`qformat_fs` marks one block after the other on the drive; after that both make the root directory
and the same five directories in it. On an empty drive the two leave the same sectors
(`mkfs_eq_qformat`), for any number of sectors that the tool can handle.
-/

namespace Crusadia

namespace Host

namespace Sim

variable {L : Layout} {h h' : Host} {s : Cos} {v : Img}

/-- Only what the sectors hold matters. -/
theorem congr (hs : Sim L h s) (hh : h' = { h with image := h'.image })
    (hread : ∀ a, h'.blockRead a = h.blockRead a) : Sim L h' s := by
  have hsaved : h'.savedSector = h.savedSector := by rw [hh]; rfl
  refine ⟨hs.small, fun a => (hread a).trans (hs.sectors a), by rw [hh]; exact hs.hostSb,
    by rw [hh]; exact hs.hostBytes, by rw [hh]; exact hs.hostBbs, by rw [hh]; exact hs.hostIbs,
    hs.sb, hs.bbs, hs.ibs, fun k hk => ?_, fun k hk => ?_, hs.sync⟩
  · rw [hsaved]
    exact hs.saved k hk
  · rw [hh]
    exact hs.hostSync k hk

/-- A bit that is set after the bitmap was saved, or before. -/
theorem saveBlockBitmap_setBlockBit (h : Host) (b : Nat) :
    ((h.setBlockBit b).saveBlockBitmap = { (h.saveBlockBitmap.setBlockBit b).saveBlockBitmap with
      image := (h.setBlockBit b).saveBlockBitmap.image }) ∧
      ∀ a, (h.setBlockBit b).saveBlockBitmap.blockRead a =
        (h.saveBlockBitmap.setBlockBit b).saveBlockBitmap.blockRead a := by
  obtain ⟨image, heq, hread⟩ := saveBlockBitmap_spec h
  obtain ⟨image1, heq1, hread1⟩ := saveBlockBitmap_spec (h.setBlockBit b)
  obtain ⟨image2, heq2, hread2⟩ := saveBlockBitmap_spec (h.saveBlockBitmap.setBlockBit b)
  have hset : h.saveBlockBitmap.setBlockBit b = { h.setBlockBit b with image } := by
    rw [heq, Host.setBlockBit, Host.setBlockBit]
    split <;> rfl
  have hfields : h.setBlockBit b = { h with gBlockBitmap := (h.setBlockBit b).gBlockBitmap } := by
    rw [Host.setBlockBit]
    split <;> rfl
  refine ⟨?_, fun a => ?_⟩
  · rw [heq1, heq2, hset]
  · rw [heq1, heq2]
    refine (hread1 a).trans (Eq.trans ?_ (hread2 a).symm)
    rw [hset]
    show _ = if (h.setBlockBit b).gSb.bitmapStart ≤ a ∧ a < (h.setBlockBit b).gSb.bitmapStart +
      (h.setBlockBit b).gBlockBitmapSectors then (h.setBlockBit b).savedSector
        (a - (h.setBlockBit b).gSb.bitmapStart) else image.read a
    split
    · rfl
    · rename_i hout
      rw [hfields] at hout ⊢
      exact ((hread a).trans (if_neg hout)).symm

/-- Marking the first blocks of the drive. -/
theorem markBlocks (hs : Sim L h s) (n : Nat) :
    Sim L ((List.range n).foldl Host.setBlockBit h).saveBlockBitmap
      ((List.range n).foldl Cos.setBlockBitmapBit s) := by
  induction n with
  | zero => exact hs.saveBlockBitmap
  | succ n ih =>
    rw [List.range_succ, List.foldl_append, List.foldl_append, List.foldl_cons, List.foldl_nil,
      List.foldl_cons, List.foldl_nil]
    obtain ⟨hfields, hread⟩ :=
      saveBlockBitmap_setBlockBit ((List.range n).foldl Host.setBlockBit h) n
    exact (ih.setBlockBit n).congr hfields hread

/-- A byte of the inode bitmap is changed, and both save the whole bitmap. -/
theorem saveInodeByte (hs : Sim L h s) (j : Nat) (x : Byte) :
    Sim L ({ h with gInodeBitmap := h.gInodeBitmap.put8 j x }.saveInodeBitmap)
      ({ s with inodeBitmap := s.inodeBitmap.put8 j x }.saveInodeBitmap) := by
  obtain ⟨disk, heq, hread⟩ := Cos.saveInodeBitmap_spec
    { s with inodeBitmap := s.inodeBitmap.put8 j x }
  simp only [hs.sb, hs.bbs, hs.ibs, L.bitmapStart, Cos.blockRead] at hread
  have hbytes : ∀ k, k < 512 * L.ibs →
      (h.gInodeBitmap.put8 j x).get k = (s.inodeBitmap.put8 j x).get k := by
    intro k hk
    rw [Buf.get_put8, Buf.get_put8, hs.inode_byte hk]
  have hout : ∀ a, ¬ (1 + L.bbs ≤ a ∧ a < 1 + L.bbs + L.ibs) → disk.read a = s.blockRead a := by
    intro a ha
    rw [hread, if_neg ha, Cos.blockRead]
  rw [heq]
  refine hs.saveInodeBitmap hbytes hout fun k hk => ?_
  rw [hread, if_pos (by omega), Nat.add_sub_cancel_left]

/-- Saving the inode bitmap leaves the block bitmap alone. -/
theorem firstFree_saveInodeBitmap (hs : Sim L h s) (bm : Buf 32768) :
    ({ s with inodeBitmap := bm }.saveInodeBitmap).img.firstFree L = s.img.firstFree L := by
  obtain ⟨disk, heq, hread⟩ := Cos.saveInodeBitmap_spec { s with inodeBitmap := bm }
  refine List.find?_congr fun b hb => ?_
  have hb := List.mem_range'_1.mp hb
  have hlt := L.bitmap_lt (show b < L.sb.totalBlocks by omega)
  rw [heq]
  refine congrArg (fun sec : Sector => !sec.bit (b % 4096)) ((hread _).trans (if_neg ?_))
  simp only [hs.sb, hs.bbs, L.bitmapStart]
  omega

/-- `create_root`, which gives up without a block; `mkfs` stops there. -/
theorem createRoot (hs : Sim L h s) :
    (s.img.firstFree L = none ∧ h.mkfsRoot = none ∧ ∃ h', Sim L h' s.createRoot) ∨
      (s.img.firstFree L ≠ none ∧ ∃ h', h.mkfsRoot = some h' ∧ Sim L h' s.createRoot) := by
  have hpos := L.inodes_pos
  have hinodes := L.inodes
  rw [Host.mkfsRoot, Cos.createRoot, hs.inode_byte (j := 0) (by omega)]
  generalize s.inodeBitmap.get 0 ||| 1 = x
  have hroot := hs.saveInodeByte 0 x
  obtain ⟨hres, hal⟩ := hroot.allocBlock
  have hfst := hroot.rep.allocBlock_fst
  rw [hs.firstFree_saveInodeBitmap] at hfst
  simp only [hres]
  cases hnb : s.img.firstFree L with
  | none =>
    rw [hnb, Option.getD_none] at hfst
    simp only [if_pos hfst]
    exact Or.inl ⟨trivial, trivial, _, hal⟩
  | some nb =>
    obtain ⟨⟨hr1, hr2⟩, -, hnb0, -⟩ := Img.firstFree_facts hnb
    have hdata := L.dataStart
    rw [hnb, Option.getD_some] at hfst
    simp only [hfst, if_neg hnb0]
    exact Or.inr ⟨by simp, _, rfl, (hal.writeInode 0 _).blockWrite (Or.inr (by omega)) _⟩

/-- One of the default directories: `fs_create_dir` on a name that is new. -/
theorem mkfsDir (hs : Sim L h s) (hrep : Rep L s v) (hv : Img.Inv L v) {name : CStr}
    (hnew : v.findSlot 0 name 12 0 = none) :
    (h.mkfsDir name = none ∧
      ((∀ i, i < L.sb.inodeCount → v.used i = true) ∨ v.firstFree L = none)) ∨
      ((∃ i, i < L.sb.inodeCount ∧ v.used i = false) ∧ v.firstFree L ≠ none ∧
        ∃ h', h.mkfsDir name = some h' ∧ Sim L h' (s.fsCreateDir name 0).2) := by
  have hd := hv.root
  rw [Host.mkfsDir, Cos.fsCreateDir, hrep.ino 0 hd.lt,
    if_neg (by rw [hrep.isSome_dirLookup hv hd]; simp [hnew])]
  cases hrep.birth with
  | full hk hall =>
    obtain ⟨h1, hh, -⟩ := hs.allocInode_eq hk
    rw [hh]
    exact Or.inl ⟨rfl, Or.inl hall⟩
  | bare i s1 hk hz hff =>
    obtain ⟨h1, hh, hs1⟩ := hs.allocInode_eq hk
    simp only [hh, if_pos (hs1.allocBlock.1.trans hz)]
    exact Or.inl ⟨trivial, Or.inr hff⟩
  | made i nb s1 hk hblk hnb0 hi hu _ hff hrep' =>
    obtain ⟨h1, hh, hs1⟩ := hs.allocInode_eq hk
    have hborn := (hrep' (Inode.blank 2)).zeroBorn hff
    have hblocks : Img.Blocks L (v.born i nb (Inode.blank 2) true) :=
      Img.born_blocks hv.blocks hi hu hff (Inode.fresh_blank 2)
    have hzero := (hs1.allocBlock.2.writeInode i ((Inode.blank 2).setPtr 0 nb)).zeroBlock hff
    have hadd := (hzero.dirAdd hblocks (hd.born hu) name i).2
    rw [← hborn.ino 0 hd.lt] at hadd
    refine Or.inr ⟨⟨i, hi, hu⟩, by simp [hff], ?_⟩
    simp only [hh, hk, hblk, hs1.allocBlock.1.trans hblk, if_neg hnb0]
    refine ⟨_, rfl, ?_⟩
    simp only [hzero.readInode]
    exact hadd

/-- The default directories, in a root that holds nothing else. With room for all of them `mkfs`
goes through; when it does, it has done what `create_defdirs` does. -/
theorem mkfsDirs (rest : List CStr) : ∀ {names : List CStr} {h : Host} {s : Cos} {v : Img},
    Sim L h s → Rep L s v → Img.Inv L v → v.cwd = 0 → Img.Filled L names v →
    (names ++ rest).Nodup → (∀ nm ∈ rest, nm.length ≤ 27) → names.length + rest.length ≤ 16 →
    (L.sb.dataStart + names.length + rest.length < L.sb.totalBlocks →
      names.length + rest.length < L.sb.inodeCount → (rest.foldlM Host.mkfsDir h).isSome) ∧
    ∀ h', rest.foldlM Host.mkfsDir h = some h' →
      Sim L h' (rest.foldl (fun s name => (s.fsCreateDir name s.gCurrentDir).2) s) := by
  induction rest with
  | nil =>
    intro names h s v hs _ _ _ _ _ _ _
    refine ⟨fun _ _ => rfl, fun h' hh => ?_⟩
    rw [List.foldlM_nil] at hh
    cases hh
    exact hs
  | cons name rest ih =>
    intro names h s v hs hrep hv hcwd hf hnd hshort hslots
    rw [List.length_cons] at hslots ⊢
    have hnew : name ∉ names := fun hmem =>
      (List.nodup_append.mp hnd).2.2 name hmem name (List.mem_cons_self ..) rfl
    rw [List.foldlM_cons, List.foldl_cons, hrep.cwd, hcwd]
    rcases hs.mkfsDir hrep hv (hf.findSlot hnew) with ⟨hnone, hwhy⟩ | ⟨⟨i, hi, hu⟩, hff, h1,
      hh, hs1⟩
    · rw [hnone]
      refine ⟨fun hroom hino => ?_, fun h' hh => absurd hh (by simp)⟩
      rcases hwhy with hall | hfull
      · have := hall (names.length + 1) (by omega)
        rw [hf.used] at this
        simp at this
      · rw [hf.firstFree (by omega)] at hfull
        cases hfull
    · -- the next block and the next inode were there
      have hino : names.length + 1 < L.sb.inodeCount := by
        rw [hf.used, decide_eq_false_iff_not] at hu
        omega
      have hroom : L.sb.dataStart + names.length + 1 < L.sb.totalBlocks := by
        by_contra hge
        refine hff (Img.firstFree_eq_none.mpr fun b _ hb => ?_)
        rw [hf.bit]
        exact decide_eq_true (by omega)
      obtain ⟨v1, hrep1, hc⟩ := hrep.fsCreateDir_spec hv hv.root name
      have hv1 := hc.inv hv hv.root (Inode.fresh_blank 2) fun _ => rfl
      obtain ⟨-, hv'⟩ := hf.create_eq hroom hino (by omega) hnew hc
      have hf1 : Img.Filled L (names ++ [name]) v1 := by
        rw [hv']
        exact hf.extend _ _ (by omega) (hshort name (List.mem_cons_self ..))
      have happ : names ++ name :: rest = names ++ [name] ++ rest := by simp
      have hlen : (names ++ [name]).length = names.length + 1 := by simp
      obtain ⟨hsome, hsim⟩ := ih hs1 hrep1 hv1 (hc.cwd.trans hcwd) hf1 (happ ▸ hnd)
        (fun nm hnm => hshort nm (List.mem_cons_of_mem _ hnm)) (by omega)
      rw [hh]
      exact ⟨fun hroom' hino' => hsome (by omega) (by omega), hsim⟩

/-- The tool with an empty memory, on a drive whose metadata has just been cleared. -/
theorem blank (s : Cos) (hsmall : L.sb.totalBlocks ≤ 8 * blockBitmapMaxSize) {image : Disk}
    (himage : ∀ a, image.read a = (s.wipeFs L.sb).blockRead a) :
    Sim L ((start image).geometry L.sb) (s.wipeFs L.sb) := by
  have hrep := Rep.wipeFs_spec s L
  obtain ⟨hbytes, hbbs, hibs⟩ := geometry_sectors L
  refine ⟨hsmall, himage, rfl, hbytes, hbbs, hibs, hrep.sb, hrep.bbs, hrep.ibs, fun k hk => ?_,
    fun k hk => hrep.sync k hk, hrep.sync⟩
  rw [Rep.wipeFs_bitmap s L (by omega) (by omega)]
  refine Buf.ext_get fun j hj => ?_
  rw [savedSector, Buf.get_ofFn_lt _ hj, Buf.get_zero]
  split
  · exact (Buf.get_zero _).symm
  · rfl

/-- `mkfs` on an empty file, up to the root directory. -/
theorem mkfsEmpty {image : Disk} (hsmall : L.sb.totalBlocks ≤ 8 * blockBitmapMaxSize)
    (himage : ∀ a, image.read a = Buf.zero) (hzero : ∀ a, s.blockRead a = Buf.zero) :
    Sim L (Host.mkfsEmpty image L.sb) (Rep.marked s L) := by
  have hread : ∀ a, (image.write 0 L.sb.encode).read a = (s.wipeFs L.sb).blockRead a := by
    intro a
    simp only [Cos.wipeFs, Cos.blockRead, Disk.read_write, Disk.read_fill, himage,
      show s.disk.read a = Buf.zero from hzero a, ite_self]
  have hmark := (blank s hsmall hread).markBlocks L.sb.dataStart
  exact hmark.saveInodeBitmap (fun j hj => hmark.inode_byte hj) (fun _ _ => rfl) hmark.sync

end Sim

/-- What `mkfs` does on an empty file: it goes through if there is room for the six directories, and
then it leaves what `qformat_fs` leaves before its `init_fs`. -/
theorem cmdMkfs_spec {L : Layout} {image : Disk} {s : Cos} {n hint : Nat}
    (hsb : L.sb = mkfsSuperblock n hint) (hsmall : L.sb.totalBlocks ≤ 8 * blockBitmapMaxSize)
    (himage : ∀ a, image.read a = Buf.zero) (hzero : ∀ a, s.blockRead a = Buf.zero) :
    (L.sb.dataStart + 5 < L.sb.totalBlocks → 5 < L.sb.inodeCount →
      (cmdMkfs image n hint).isSome) ∧
    ∀ h, cmdMkfs image n hint = some h → L.sb.dataStart < L.sb.totalBlocks ∧
      Sim L h (Rep.marked s L).createRoot.createDefdirs := by
  have hempty := Sim.mkfsEmpty hsmall himage hzero
  rw [cmdMkfs, ← hsb]
  rcases hempty.createRoot with ⟨hff, hnone, -⟩ | ⟨hff, h1, hh, hs1⟩
  · rw [hnone]
    refine ⟨fun hroom _ => ?_, fun h hh => absurd hh (by simp)⟩
    -- the block after the metadata is free
    have hbit := Img.firstFree_eq_none.mp hff L.sb.dataStart (Nat.le_refl _) (by omega)
    have hmark := (Rep.wipeFs_spec s L).markBlocks_spec L.sb.dataStart
    have hrep := hbit.symm.trans (hmark.bit L.sb.dataStart (by omega))
    simp [Rep.blankImg] at hrep
  · have hroom : L.sb.dataStart < L.sb.totalBlocks := by
      by_contra hge
      exact hff (Img.firstFree_eq_none.mpr fun b h1 h2 => by omega)
    obtain ⟨hrep, hinv⟩ := Rep.formatRoot_spec s L hroom
    obtain ⟨hsome, hsim⟩ := Sim.mkfsDirs Cos.defaultDirs hs1 hrep hinv rfl
      (Rep.filled_rootImg s hroom) (by decide) (by decide) (by decide)
    rw [hh]
    exact ⟨fun h1 h2 => hsome h1 h2, fun h hh => ⟨hroom, hsim h hh⟩⟩

/-- What `mkfsSuperblock` computes, in the driver's terms. -/
theorem mkfsSuperblock_shape (n hint : Nat) (hhint : hint ≤ 262144) : ∃ T ic, T ≤ 262144 ∧
    (n ≤ 262144 → T = n) ∧ ic % 8 = 0 ∧ 8 ≤ ic ∧ ic ≤ 262144 ∧
    (hint = 0 → ic = if (T / 4 + 7) / 8 * 8 = 0 then 8 else (T / 4 + 7) / 8 * 8) ∧
    mkfsSuperblock n hint =
      { magic := fsMagic, blockSize := sectorSize, totalBlocks := T, inodeCount := ic,
        bitmapStart := 1, inodeStart := 1 + Cos.bitmapSectors T + Cos.inodeSectors ic,
        dataStart := 1 + Cos.bitmapSectors T + Cos.inodeSectors ic + Cos.tableBlocks ic } := by
  have hsize : blockBitmapMaxSize = 32768 := rfl
  have hsize' : inodeBitmapSize = 32768 := rfl
  -- the second limit is never reached
  obtain ⟨T, hT, hTn, hclamp⟩ : ∃ T, T ≤ 262144 ∧ (n ≤ 262144 → T = n) ∧
      (if (if n > blockBitmapMaxSize * 8 then blockBitmapMaxSize * 8 else n) / 4 >
        inodeBitmapSize * 8
        then inodeBitmapSize * 8 * 4
        else if n > blockBitmapMaxSize * 8 then blockBitmapMaxSize * 8 else n) = T := by
    refine ⟨_, ?_, fun hn => ?_, rfl⟩
    · split <;> split <;> omega
    · split <;> split <;> omega
  obtain ⟨ic, h8, hpos, hle, hzero, hround⟩ : ∃ ic, ic % 8 = 0 ∧ 8 ≤ ic ∧ ic ≤ 262144 ∧
      (hint = 0 → ic = if (T / 4 + 7) / 8 * 8 = 0 then 8 else (T / 4 + 7) / 8 * 8) ∧
      (if ((if hint ≠ 0 then hint else T / 4) + 7) % 2 ^ 32 / 8 * 8 = 0 then 8
        else ((if hint ≠ 0 then hint else T / 4) + 7) % 2 ^ 32 / 8 * 8) = ic := by
    refine ⟨_, ?_, ?_, ?_, fun h0 => ?_, rfl⟩
    · split <;> split <;> omega
    · split <;> split <;> omega
    · split <;> split <;> omega
    · rw [if_neg (not_not_intro h0), Nat.mod_eq_of_lt (by omega)]
  refine ⟨T, ic, hT, hTn, h8, hpos, hle, hzero, ?_⟩
  simp only [mkfsSuperblock, hclamp, hround, bitmapSectors_eq (show T ≤ 0xFFFFFFFE by omega),
    inodeSectors_eq hle, tableBlocks_eq hle]

/-- The tool lays the image out as the driver expects it. -/
theorem mkfsSuperblock_layout (n : Nat) {hint : Nat} (hhint : hint ≤ 262144) :
    ∃ L : Layout, L.sb = mkfsSuperblock n hint ∧ L.sb.totalBlocks ≤ 8 * blockBitmapMaxSize := by
  obtain ⟨T, ic, hT, -, h8, hpos, hle, -, heq⟩ := mkfsSuperblock_shape n hint hhint
  have htable : Cos.tableBlocks ic = ic / 4 := by
    simp only [Cos.tableBlocks, inodeSize, sectorSize]
    omega
  rw [heq, htable]
  refine ⟨⟨_, Cos.bitmapSectors T, Cos.inodeSectors ic, rfl, rfl, rfl, rfl, ?_, ?_, ?_, h8,
    hpos, ?_, ?_, rfl, rfl, rfl⟩, rfl, ?_⟩ <;>
    simp only [Cos.bitmapSectors, Cos.inodeSectors, sectorSize, blockBitmapMaxSize] <;> omega

/-- The tool computes the driver's superblock. -/
theorem mkfsSuperblock_eq {n : Nat} (hn : n ≤ 262144) :
    mkfsSuperblock n 0 = Cos.formatSuperblock n := by
  obtain ⟨T, ic, -, hT, -, -, -, hic, heq⟩ := mkfsSuperblock_shape n 0 (by omega)
  obtain rfl := hT hn
  have hblocks : (if T > 0xFFFFFFFE then 0xFFFFFFFE else T) = T := if_neg (by omega)
  have hquarter : (if T / 4 > inodeBitmapSize * 8 then inodeBitmapSize * 8 else T / 4) = T / 4 :=
    if_neg (by rw [inodeBitmapSize]; omega)
  rw [heq, hic rfl]
  simp only [Cos.formatSuperblock, hblocks, hquarter]

/-- A drive of 1024 sectors has room for the default directories. -/
theorem room_defaultDirs {n : Nat} (hn : 1024 ≤ n) :
    (Layout.ofDrive n).sb.dataStart + 5 < (Layout.ofDrive n).sb.totalBlocks := by
  obtain ⟨T, ic, h1, h2, h3, h4, h5, h6, h7, heq⟩ := formatSuperblock_eq n
  show (Cos.formatSuperblock n).dataStart + 5 < (Cos.formatSuperblock n).totalBlocks
  rw [heq]
  simp only [Cos.bitmapSectors, Cos.inodeSectors, Cos.tableBlocks, sectorSize, inodeSize]
  omega

/-- **Formatting.** On an empty drive of 1024 to 262144 sectors `cmd_mkfs` and `qformat_fs` leave
the same sectors. -/
theorem mkfs_eq_qformat (s : Cos) (hmin : 1024 ≤ s.driveSectors) (hmax : s.driveSectors ≤ 262144)
    (hzero : ∀ a, s.disk.read a = Buf.zero) (image : Disk) (himage : ∀ a, image.read a = Buf.zero) :
    ∃ h, cmdMkfs image s.driveSectors 0 = some h ∧ ∀ a, h.image.read a =
      s.qformatFs.disk.read a := by
  have hinodes := s.layout.inodes_pos
  have htotal : s.layout.sb.totalBlocks = s.driveSectors := totalBlocks_ofDrive (by omega)
  obtain ⟨hsome, hsim⟩ := cmdMkfs_spec (L := s.layout)
    (mkfsSuperblock_eq hmax).symm (by rw [htotal, blockBitmapMaxSize]; omega) himage hzero
  obtain ⟨h, hh⟩ := Option.isSome_iff_exists.mp (hsome (room_defaultDirs hmin) (by omega))
  obtain ⟨hroom, hs⟩ := hsim h hh
  -- `init_fs` at the end of `qformat_fs` writes nothing
  obtain ⟨hrep₀, hinv₀⟩ := Rep.formatRoot_spec s _ hroom
  obtain ⟨v, hrep, hv, -, hboot, -⟩ := Rep.createDirs_spec (P := fun _ => True)
    (fun _ _ _ => trivial) Cos.defaultDirs hrep₀ hinv₀ rfl trivial
  refine ⟨h, hh, fun a => (hs.sectors a).trans ?_⟩
  rw [Rep.qformatFs_eq hrep hv (hboot.trans Img.born_boot)]
  rfl

/-- The smallest of these drives. -/
theorem mkfs_eq_qformat_smallest :
    ∃ h, cmdMkfs ⟨fun _ => Buf.zero, []⟩ 1024 0 = some h ∧ ∀ a, h.image.read a =
      (Cos.zeroDrive 1024).qformatFs.disk.read a :=
  mkfs_eq_qformat (Cos.zeroDrive 1024) (Nat.le_refl _) (by simp [Cos.rawDrive])
    (fun _ => rfl) ⟨fun _ => Buf.zero, []⟩ fun _ => rfl

end Host

end Crusadia
