import Crusadia.Vfs.Atomic
import Crusadia.Vfs.Backend

/-!
# Crusadia.Vfs.Tags

**Searching by tag.** An inode has four tag fields of 12 bytes next to each other. They are written
by `strncpy`, which leaves a tag of 12 bytes without a terminator, and compared by `strcmp`, which
then reads on in the next field. `fs_find_by_tag` never returns an inode that has no such tag
(`fsFindByTag_tagged`), but a file with a main tag of 12 bytes is not found: the byte after the tag
is the `n` of `"normal"` (`tag_found_iff`).
-/

namespace Crusadia

/-- The bytes from tag field `t` on: 0 is `main_tag`, then `tags[0..2]`. -/
def Inode.tagBytes (n : Inode) (t j : Nat) : Byte := n.raw.get (65 + 12 * t + j)

/-- The tag in field `t`: it ends at a NUL or with the field. -/
def Inode.tagText (n : Inode) (t : Nat) : CStr := CStr.ofField 12 (n.tagBytes t)

namespace Cos

/-- The comparisons of `fs_find_by_tag`. -/
def tagMatch (n : Inode) (tag : CStr) : Bool :=
  strEq (n.tagBytes 0) tag || (List.range 3).any fun t => strEq (n.tagBytes (t + 1)) tag

/-- `fs_find_by_tag`: what it puts into `results`. One result is stored before the count is compared
with `max_results`. -/
def fsFindByTag (s : Cos) (tag : CStr) (maxResults : Int) : List Nat :=
  ((List.range' 1 (s.gSuperblock.inodeCount - 1)).filter fun i =>
    s.inodeBitmap.bit i && tagMatch (s.readInode i) tag).take (max 1 maxResults).toNat

end Cos

/-! ### What the search returns -/

namespace Cos

variable {s : Cos} {i : Nat} {tag : CStr}

theorem mem_fsFindByTag {maxResults : Int} (h : i ∈ s.fsFindByTag tag maxResults) :
    s.InUse i ∧ tagMatch (s.readInode i) tag = true := by
  have hmem := List.mem_filter.mp (List.mem_of_mem_take h)
  have hrange := List.mem_range'_1.mp hmem.1
  rw [Bool.and_eq_true] at hmem
  exact ⟨⟨by omega, hmem.2.1⟩, hmem.2.2⟩

/-- Nothing is left out of a large enough array. -/
theorem mem_fsFindByTag_iff {maxResults : Int} (hmax : s.gSuperblock.inodeCount ≤ maxResults)
    (h1 : 1 ≤ i) : i ∈ s.fsFindByTag tag maxResults ↔
      s.InUse i ∧ tagMatch (s.readInode i) tag = true := by
  refine ⟨mem_fsFindByTag, fun ⟨⟨hlt, hbit⟩, hmatch⟩ => ?_⟩
  have hlen := List.length_filter_le (fun i => s.inodeBitmap.bit i && tagMatch (s.readInode i) tag)
    (List.range' 1 (s.gSuperblock.inodeCount - 1))
  rw [List.length_range'] at hlen
  rw [fsFindByTag, List.take_of_length_le (by omega), List.mem_filter, List.mem_range'_1,
    Bool.and_eq_true]
  exact ⟨by omega, hbit, hmatch⟩

theorem tagMatch_iff {n : Inode} (h12 : tag.length ≤ 12) : tagMatch n tag = true ↔
    ∃ t, t ≤ 3 ∧ n.tagText t = tag ∧ (tag.length = 12 → n.tagBytes t 12 = 0) := by
  simp only [tagMatch, Bool.or_eq_true, List.any_eq_true, List.mem_range, CStr.strEq_ofField h12]
  constructor
  · rintro (h | ⟨t, ht, h⟩)
    · exact ⟨0, Nat.zero_le 3, h⟩
    · exact ⟨t + 1, ht, h⟩
  · rintro ⟨t, ht, h⟩
    cases t with
    | zero => exact .inl h
    | succ t => exact .inr ⟨t, ht, h⟩

end Cos

/-! ### The tags of a new file -/

namespace Rep

variable {tag : CStr} {nb : Nat}

theorem tagBytes_fileNode (tag : CStr) (nb t j : Nat) :
    ((fileNode tag).setPtr 0 nb).tagBytes t j =
      if 12 * t + j < 12 then tag.at' (12 * t + j)
      else if 12 * t + j < 24 then Cos.normalTag.at' (12 * t + j - 12) else 0 := by
  have hraw : ((fileNode tag).setPtr 0 nb).tagBytes t j =
      (fileNode tag).raw.get (65 + 12 * t + j) :=
    Buf.get_splice_out (by omega)
  rw [hraw, fileNode, Inode.setTag0, Inode.setMainTag, Inode.blank]
  by_cases hmain : 12 * t + j < 12
  · rw [if_pos hmain, Buf.get_splice_out (by omega),
      Buf.get_splice_in (by omega) (by omega) (by omega)]
    congr 1
    omega
  · rw [if_neg hmain]
    by_cases htag : 12 * t + j < 24
    · rw [if_pos htag, Buf.get_splice_in (by omega) (by omega) (by omega)]
      congr 1
      omega
    · rw [if_neg htag, Buf.get_splice_out (by omega), Buf.get_splice_out (by omega),
        Buf.get_put8_out (by omega), Buf.get_zero]

theorem tagText_fileNode (h12 : tag.length ≤ 12) :
    ((fileNode tag).setPtr 0 nb).tagText 0 = tag := by
  refine (CStr.ofField_eq_iff h12).mpr ⟨fun j hj => ?_, fun hlt => ?_⟩
  · rw [tagBytes_fileNode, if_pos (by omega), Nat.mul_zero, Nat.zero_add]
  · rw [tagBytes_fileNode, if_pos (by omega), Nat.mul_zero, Nat.zero_add]
    exact CStr.at_of_ge (Nat.le_refl _)

/-- A new file has its tag; the search sees it unless it fills the field. -/
theorem tagMatch_fileNode (h12 : tag.length ≤ 12) :
    Cos.tagMatch ((fileNode tag).setPtr 0 nb) tag = true ↔ tag.length ≤ 11 := by
  rw [Cos.tagMatch_iff h12]
  constructor
  · rintro ⟨t, ht, htext, hend⟩
    by_contra hlong
    have h12' : tag.length = 12 := by omega
    -- the last byte of the tag would be one of the field: only `main_tag` has one there
    have hlast := ((CStr.ofField_eq_iff h12).mp htext).1 11 (by omega)
    have hnz : tag.at' 11 ≠ 0 := CStr.at_ne_zero (by omega)
    rw [← hlast, tagBytes_fileNode] at hnz
    have hbyte := hend h12'
    rw [tagBytes_fileNode] at hbyte
    rcases Nat.eq_zero_or_pos t with rfl | hpos
    · -- right behind `main_tag` stands the `n` of `normal`
      rw [if_neg (by omega), if_pos (by omega)] at hbyte
      exact absurd hbyte (by decide)
    · rw [if_neg (by omega)] at hnz
      split at hnz
      · exact hnz (CStr.at_of_ge (show 6 ≤ 12 * t + 11 - 12 by omega))
      · exact hnz rfl
  · intro h11
    exact ⟨0, Nat.zero_le 3, tagText_fileNode h12, fun h => by omega⟩

end Rep

/-! ### The calls that write a tag -/

variable {name rel : CStr} {maxResults : Int}

/-- The inode of a new object: it is in use and has the contents it was made with. -/
theorem Img.Create.node {L : Layout} {v v' : Img} {d idx : Nat} {node : Inode} {zeroed : Bool}
    (hc : Img.Create L v d name node zeroed v' (some idx)) (hv : Img.Inv L v) (hd : Img.IsDir L v d)
    (hf : node.Fresh) (hz : node.type = 2 → zeroed = true) :
    idx < L.sb.inodeCount ∧ idx ≠ 0 ∧ v'.used idx = true ∧ ∃ nb, v'.ino idx = node.setPtr 0 nb := by
  cases hc with
  | made _ nb _ rc hnew hidx hu hfirst hff hadd =>
    have hne : idx ≠ d := fun he => absurd (hd.used.symm.trans (he ▸ hu)) (by decide)
    have hborn : (v.born idx nb node zeroed).used idx = true :=
      (Img.born_used idx).trans (if_pos rfl)
    have hino : (v.born idx nb node zeroed).ino idx = node.setPtr 0 nb := by
      rw [Img.born_ino, if_pos rfl]
    refine ⟨hidx, hv.idx_ne_zero hu, ?_⟩
    -- `dir_add` touches no other inode
    rcases hadd.added (Img.born_inv hv hidx hu hff hf hz) (hd.born hu) with ⟨-, ha⟩ | ⟨-, rfl⟩
    · rw [ha.edit.used, ha.edit.ino idx hne]
      exact ⟨hborn, nb, hino⟩
    · exact ⟨hborn, nb, hino⟩

namespace Cos

variable {L : Layout} {s s' : Cos} {idx : Nat} {tag : CStr}

/-- Inode `idx` is that of a file made with `tag`. -/
def MadeWith (s : Cos) (idx : Nat) (tag : CStr) : Prop :=
  s.InUse idx ∧ idx ≠ 0 ∧ ∃ nb, s.readInode idx = (Rep.fileNode tag).setPtr 0 nb

theorem MadeWith.of_create {v v' : Img} {d : Nat}
    (hc : Img.Create L v d name (Rep.fileNode tag) false v' (some idx)) (hv : Img.Inv L v)
    (hd : Img.IsDir L v d) (h' : Rep L s' v') : s'.MadeWith idx tag := by
  obtain ⟨hidx, h0, hu, nb, hino⟩ :=
    hc.node hv hd (Rep.fresh_fileNode tag) (Rep.fileNode_not_dir tag)
  exact ⟨⟨h'.sb ▸ hidx, (h'.used idx hidx).trans hu⟩, h0, nb, (h'.ino idx hidx).trans hino⟩

theorem MadeWith.fsCreateFile (h : Mounted L s) (hd : s.DirInode s.gCurrentDir)
    (htag : tag.length ≠ 0) (hres : s.fsCreateFile name tag = (some idx, s')) :
    s'.MadeWith idx tag := by
  obtain ⟨hrep, hv⟩ := h.sound.img
  have hdir := hrep.dirInode_iff.mp hd
  obtain ⟨v', h', hc⟩ := hrep.fsCreateFile_spec hv hdir name tag htag
  rw [hres] at h' hc
  exact MadeWith.of_create hc hv hdir h'

theorem beParent_error {e : Int} (h : s.beParent rel = .error e) : e ≠ 0 := by
  rw [beParent] at h
  repeat' split at h
  all_goals cases h
  all_goals decide

/-- After `be_create` the path leads to the new file. -/
theorem MadeWith.beCreate (h : Mounted L s) (htag : tag.length ≠ 0)
    (hres : s.beCreate rel tag = (0, s')) :
      ∃ i, s'.cosResolve rel = some i ∧ s'.MadeWith i tag := by
  obtain ⟨hrep, hv⟩ := h.sound.img
  rw [Cos.beCreate] at hres
  cases hp : s.beParent rel with
  | error e =>
    rw [hp] at hres
    exact absurd (Prod.mk.inj hres).1 (beParent_error hp)
  | ok pl =>
    obtain ⟨p, leaf⟩ := pl
    rw [hp] at hres
    have hd := (hrep.beParent_ok hv hp).1
    have hd' : Img.IsDir L { s.img with cwd := p } p := hd.congr rfl rfl
    obtain ⟨v', h', hc⟩ := (hrep.setCwd p).fsCreateFile_spec (hv.cwd p) hd' leaf tag htag
    obtain ⟨hfin, rfl⟩ := Prod.mk.inj hres
    have hv' := hc.inv (hv.cwd p) hd' (Rep.fresh_fileNode tag) (Rep.fileNode_not_dir tag)
    rw [Cos.beFinish] at hfin
    generalize { s with gCurrentDir := p }.fsCreateFile leaf tag = r at h' hc hfin ⊢
    obtain ⟨made, t⟩ := r
    cases hc with
    | refused => exact absurd hfin (by simp [vfsEIo])
    | made i nb _ rc hnew hidx hu hfirst hff hadd =>
      have hrel := hrep.cosResolve_made hv h.named hp (Rep.fresh_fileNode tag)
        (Rep.fileNode_not_dir tag) hidx hu hff hadd hv' (h'.setCwd 0)
      by_cases hrc : rc = 0
      · rw [if_pos hrc] at hrel
        have hmade : t.MadeWith i tag :=
          .of_create (.made i nb _ rc hnew hidx hu hfirst hff hadd) (hv.cwd p) hd' h'
        exact ⟨i, hrel, hmade⟩
      · rw [if_neg hrc] at hrel
        simp [hrel, vfsEIo] at hfin

/-- The tag that `be_truncate` keeps is the one in `main_tag`. -/
theorem keptTag_eq {node : Inode} (hnode : node.tagText 0 = tag) (h1 : 1 ≤ tag.length)
    (h12 : tag.length ≤ 12) (tag' : CStr) : keptTag node tag' = tag := by
  have hbyte := ((CStr.ofField_eq_iff h12).mp hnode).1 0 h1
  have hnz : node.raw.get 65 ≠ 0 := by
    rw [show node.raw.get 65 = tag.at' 0 from hbyte]
    exact CStr.at_ne_zero h1
  rw [keptTag, if_pos hnz]
  exact hnode

/-- After `be_truncate` the path leads to a file made with the tag of the old one. -/
theorem MadeWith.beTruncate (h : Mounted L s) (h1 : 1 ≤ tag.length) (h12 : tag.length ≤ 12)
    {tag' : CStr} {old : Nat} (hres : s.beTruncate rel tag' = (0, s'))
    (hold : s.cosResolve rel = some old) (hnode : (s.readInode old).tagText 0 = tag) :
    ∃ i, s'.cosResolve rel = some i ∧ s'.MadeWith i tag := by
  obtain ⟨hrep, hv⟩ := h.sound.img
  rw [Cos.beTruncate, hold] at hres
  split at hres
  · exact absurd (Prod.mk.inj hres).1 (by decide)
  · next parent leaf hsplit =>
      split at hres
      · next idx p hidx hp =>
          cases hidx
          dsimp only at hres
          rw [keptTag_eq hnode h1 h12] at hres
          split at hres
          · exact absurd (Prod.mk.inj hres).1 (by decide)
          · next hrc =>
              obtain ⟨hlt, hu⟩ := hrep.resolve_used hv _ 0 hv.root.lt hv.root.used hp
              -- the deletion would have failed in anything but a directory
              have hdir : s.DirInode p := by
                refine ⟨⟨hrep.sb ▸ hlt, (hrep.used p hlt).trans hu⟩, not_not.mp fun ht => hrc ?_⟩
                rw [fsDeleteIn]
                dsimp only
                rw [if_pos ht]
                exact (by decide : (-1 : Int) < 0)
              have hdel : Mounted L (s.fsDeleteIn p leaf).2 := h.apply (.delete p leaf) hdir
              exact MadeWith.beCreate hdel (by omega) hres
      · exact absurd (Prod.mk.inj hres).1 (by decide)

theorem MadeWith.tagText (h : s.MadeWith idx tag) (h12 : tag.length ≤ 12) :
    (s.readInode idx).tagText 0 = tag := by
  obtain ⟨-, -, nb, hnode⟩ := h
  rw [hnode, Rep.tagText_fileNode h12]

theorem MadeWith.found_iff (h : s.MadeWith idx tag) (h12 : tag.length ≤ 12)
    (hmax : s.gSuperblock.inodeCount ≤ maxResults) :
    idx ∈ s.fsFindByTag tag maxResults ↔ tag.length ≤ 11 := by
  obtain ⟨hu, h0, nb, hnode⟩ := h
  rw [mem_fsFindByTag_iff hmax (by omega), hnode, and_iff_right hu, Rep.tagMatch_fileNode h12]

/-- What is returned has the tag in one of its fields. -/
theorem fsFindByTag_tagged (h12 : tag.length ≤ 12)
    (h : idx ∈ s.fsFindByTag tag maxResults) :
    s.InUse idx ∧ ∃ t, t ≤ 3 ∧ (s.readInode idx).tagText t = tag := by
  obtain ⟨hu, hmatch⟩ := mem_fsFindByTag h
  obtain ⟨t, ht, htext, -⟩ := (tagMatch_iff h12).mp hmatch
  exact ⟨hu, t, ht, htext⟩

/-- From `s` on, the file of inode `idx` has been created with `tag`, or recreated where a file with
that main tag was. -/
inductive Tagged (s : Cos) (tag : CStr) : Cos → Nat → Prop
  | created {name : CStr} {s' : Cos} {idx : Nat} (hd : s.DirInode s.gCurrentDir)
      (hres : s.fsCreateFile name tag = (some idx, s')) : Tagged s tag s' idx
  | recreated {rel tag' : CStr} {s' : Cos} {old idx : Nat} (hres : s.beTruncate rel tag' = (0, s'))
      (hold : s.cosResolve rel = some old) (hnode : (s.readInode old).tagText 0 = tag)
      (hidx : s'.cosResolve rel = some idx) : Tagged s tag s' idx

theorem Tagged.madeWith (ht : Tagged s tag s' idx) (h : Mounted L s) (h1 : 1 ≤ tag.length)
    (h12 : tag.length ≤ 12) : s'.MadeWith idx tag := by
  cases ht with
  | created hd hres => exact .fsCreateFile h hd (by omega) hres
  | recreated hres hold hnode hidx =>
    obtain ⟨i, hi, hmade⟩ := MadeWith.beTruncate h h1 h12 hres hold hnode
    obtain rfl : i = idx := Option.some.inj (hi.symm.trans hidx)
    exact hmade

/-- A file `f` with any tag, in the root of a fresh drive. -/
theorem tagged_fresh (s0 : Cos) (tag : CStr) (hroom : s0.layout.sb.dataStart + 6 <
    s0.layout.sb.totalBlocks) (htag : tag.length ≠ 0) :
    Mounted s0.layout s0.qformatFs ∧
      ∃ s', s0.qformatFs.fsCreateFile fName tag = (some 6, s') ∧ Tagged s0.qformatFs tag s' 6 := by
  have hino := s0.layout.inodes_pos
  have hlen : defaultDirs.length = 5 := rfl
  obtain ⟨v, hrep, hv, hcwd, -, hf, -⟩ := Rep.qformatFs_filled s0 (by omega) (by omega)
  obtain ⟨hres, -⟩ := hrep.createFile_filled hv hcwd hf fName tag htag (by decide)
    (by rw [hlen]; omega) (by rw [hlen]; omega) (by rw [hlen]; omega)
  have hpair : s0.qformatFs.fsCreateFile fName tag =
      (some 6, (s0.qformatFs.fsCreateFile fName tag).2) := Prod.ext hres rfl
  have hdir : s0.qformatFs.DirInode s0.qformatFs.gCurrentDir := by
    rw [hrep.cwd, hcwd]
    exact hrep.dirInode_iff.mpr hv.root
  have hsize : 6 ≤ s0.driveSectors := s0.room_iff.mp (by omega)
  exact ⟨MountRun.mounted Relation.ReflTransGen.refl hsize, _, hpair, .created hdir hpair⟩

/-- **A file is found by its main tag just when the tag leaves room for a NUL.** -/
theorem tag_found_iff (h : Mounted L s) (h1 : 1 ≤ tag.length) (h12 : tag.length ≤ 12)
    (ht : Tagged s tag s' idx) (hmax : s'.gSuperblock.inodeCount ≤ maxResults) :
    (s'.readInode idx).tagText 0 = tag ∧
    (idx ∈ s'.fsFindByTag tag maxResults ↔ tag.length ≤ 11) ∧
    ∀ (t : Cos) (n : Int) (i : Nat), i ∈ t.fsFindByTag tag n →
      t.InUse i ∧ ∃ f, f ≤ 3 ∧ (t.readInode i).tagText f = tag := by
  have hmade := ht.madeWith h h1 h12
  exact ⟨hmade.tagText h12, hmade.found_iff h12 hmax, fun t n i hi => fsFindByTag_tagged h12 hi⟩

/-- A tag of one byte. -/
theorem tag_found_iff_fresh : ∃ s', (zeroDrive 1024).qformatFs.fsCreateFile fName fName =
    (some 6, s') ∧ 6 ∈ s'.fsFindByTag fName s'.gSuperblock.inodeCount := by
  obtain ⟨hm, s', hres, ht⟩ := tagged_fresh (zeroDrive 1024) fName
    (by decide) (by decide)
  have hfound := (tag_found_iff hm (by decide) (by decide) ht (Int.le_refl _)).2.1
  exact ⟨s', hres, hfound.mpr (by decide)⟩

/-- Twelve times `a`. -/
def longTag : CStr := ⟨List.replicate 12 0x61, by decide⟩

/-- A tag of twelve bytes: the file has it, and no search returns the file. -/
theorem longTag_missed : ∃ s', (zeroDrive 1024).qformatFs.fsCreateFile fName longTag =
    (some 6, s') ∧ (s'.readInode 6).tagText 0 = longTag ∧
      6 ∉ s'.fsFindByTag longTag s'.gSuperblock.inodeCount := by
  obtain ⟨hm, s', hres, ht⟩ := tagged_fresh (zeroDrive 1024) longTag
    (by decide) (by decide)
  have hmade := ht.madeWith hm (by decide) (by decide)
  refine ⟨s', hres, hmade.tagText (by decide), fun hmem => ?_⟩
  exact absurd ((hmade.found_iff (by decide) (Int.le_refl _)).mp hmem) (by decide)

end Cos

end Crusadia
