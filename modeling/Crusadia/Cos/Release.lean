import Crusadia.Cos.Names
import Crusadia.Cos.ReadBack

/-!
# Crusadia.Cos.Release

**What a deletion gives back.** `fs_delete_in` walks the three pointer trees of an inode while it
clears the bits of the blocks it walks through, and then clears the inode's own bit. Since every
block has one owner, nothing else goes with them: `run_delete_releases` says for every state of
every run that the blocks given back are those that can be reached from the inode, that the parent
loses the one entry, and that nobody else notices. A deletion that fails changes nothing.
-/

namespace Crusadia

open Relation (ReflTransGen)

namespace Cos

/-- Block `c` can be reached from inode `e`. -/
def Owns (s : Cos) (e c : Nat) : Prop := c ≠ 0 ∧ ∃ r p, s.Pointer e r p ∧ s.pointerAt e r p = c

/-- Slot `k` of block `b` of directory `d` has an entry for inode `e` under the name. -/
structure EntryAt (s : Cos) (d b k e : Nat) (name : CStr) : Prop where
  block : b < 12
  slot : k < 16
  ptr : (s.readInode d).ptr b ≠ 0
  inode : entInode (s.blockRead ((s.readInode d).ptr b)) k = e
  name : strEq (entName (s.blockRead ((s.readInode d).ptr b)) k) name = true

/-- `t` is `s` without inode `e`, its blocks and its entry in slot `k` of block `b` of directory
`d`. -/
structure Released (s t : Cos) (d b k e : Nat) : Prop where
  blocks : ∀ c, c < s.gSuperblock.totalBlocks →
    (t.blockBit c = true ↔ s.blockBit c = true ∧ ¬ s.Owns e c)
  inodes : ∀ i, i < s.gSuperblock.inodeCount → (t.InUse i ↔ s.InUse i ∧ i ≠ e)
  entry : entInode (t.blockRead ((s.readInode d).ptr b)) k = 0
  entries : ∀ b' k', b' < 12 → k' < 16 → (s.readInode d).ptr b' ≠ 0 → ¬ (b' = b ∧ k' = k) →
    entInode (t.blockRead ((s.readInode d).ptr b')) k' =
        entInode (s.blockRead ((s.readInode d).ptr b')) k' ∧
      ∀ j, j < 28 → entName (t.blockRead ((s.readInode d).ptr b')) k' j =
        entName (s.blockRead ((s.readInode d).ptr b')) k' j
  records : ∀ i, i < s.gSuperblock.inodeCount → t.readInode i = s.readInode i
  data : ∀ c, s.gSuperblock.dataStart ≤ c → c < s.gSuperblock.totalBlocks →
    c ≠ (s.readInode d).ptr b → t.blockRead c = s.blockRead c
  reads : ∀ i, s.InUse i → i ≠ e → i ≠ d → ∀ off n,
    t.fsRead i (t.readInode i) off n = s.fsRead i (s.readInode i) off n

/-! ### A deletion that fails -/

theorem dirRemoveFrom_fst_neg (s : Cos) (dir : Inode) (name : CStr) (count b : Nat)
    (h : (s.dirRemoveFrom dir name count b).1 < 0) : (s.dirRemoveFrom dir name count b).2 = s := by
  induction count generalizing b with
  | zero => rfl
  | succ count ih =>
    rw [dirRemoveFrom] at h ⊢
    split
    · next h0 =>
        rw [if_pos h0] at h
        exact ih (b + 1) h
    · next h0 =>
        rw [if_neg h0] at h
        dsimp only at h ⊢
        split
        · next hfind =>
            rw [hfind] at h
            exact absurd h (Int.lt_irrefl 0)
        · next hfind =>
            rw [hfind] at h
            exact ih (b + 1) h

theorem dirRemove_fst_neg {s s' : Cos} {dir : Inode} {name : CStr} {rc : Int}
    (h : s.dirRemove dir name = (rc, s')) (hneg : rc < 0) : s' = s := by
  rw [dirRemove] at h
  split at h
  · exact (Prod.mk.inj h).2.symm
  · have hfrom := dirRemoveFrom_fst_neg s dir name 12 0
    rw [h] at hfrom
    exact hfrom hneg

theorem fsDeleteIn_fails (s : Cos) (d : Nat) (name : CStr) :
    (s.fsDeleteIn d name).1 = 0 ∨ s.fsDeleteIn d name = (-1, s) := by
  rw [fsDeleteIn]
  dsimp only
  split
  · exact .inr rfl
  · split
    · exact .inr rfl
    · exact .inr rfl
    · split
      · exact .inr rfl
      · cases hrem : s.dirRemove (s.readInode d) name with
        | mk rc s' =>
          dsimp only
          split
          · next hneg => exact .inr (by rw [dirRemove_fst_neg hrem hneg])
          · exact .inl rfl

end Cos

namespace Img

variable {L : Layout} {v v' : Img} {d b k : Nat} {name : CStr}

/-- Clearing an entry of a directory takes no block from another inode. -/
theorem owns_clear {e : Nat} (hv : Inv L v) (hs : Slot L v d b k) (he : e ≠ d) (c : Nat) :
    Owns L (v.clear d b k) e c ↔ Owns L v e c := by
  have hptr := (clear_inv hv hs).2.ptr
  refine and_congr_right fun _ => exists_congr fun r => exists_congr fun p =>
    and_congr_right fun hp => ?_
  rw [hptr (e, r) p hp he]

/-- The entry that is cleared is not one for the directory itself. -/
theorem ent_ne_self (hs : Slot L v d b k) (hent : v.ent d b k ≠ 0)
    (hempty : ∀ b' k', Slot L v (v.ent d b k) b' k' → v.ent (v.ent d b k) b' k' = 0) :
    v.ent d b k ≠ d := by
  intro heq
  have hzero := hempty b k (by rw [heq]; exact hs)
  rw [heq] at hzero
  exact hent hzero

end Img

namespace Rep

variable {L : Layout} {s t : Cos} {v v' : Img} {d b k e : Nat}

theorem owns_iff (h : Rep L s v) (hb : Img.Blocks L v) (he : e < L.sb.inodeCount)
    (hu : v.used e = true) (c : Nat) : s.Owns e c ↔ Img.Owns L v e c := by
  constructor
  · rintro ⟨hc, r, p, hp, heq⟩
    exact ⟨hc, r, p, ⟨hp.2.2.1, hp.2.2.2⟩, by rw [← h.pointerAt_eq hb hp]; exact heq⟩
  · intro hown
    obtain ⟨r, hr, hc, p, hlen, hk, hw⟩ := (Img.inTree_iff_owns he hu c).mpr hown
    have hp : s.Pointer e r p := ⟨h.inUse_iff.mpr ⟨he, hu⟩, hr, hlen, hk⟩
    refine ⟨hc, r, p, hp, ?_⟩
    rw [h.pointerAt_eq hb hp, Img.ptr, Forest.ptr, Img.forest_root he hu hr]
    exact hw

theorem released (h : Rep L s v) (hv : Img.Inv L v) (h' : Rep L t v') (hv' : Img.Inv L v')
    (hs : Img.Slot L v d b k) (hent : v.ent d b k ≠ 0)
    (hempty : ∀ b' k', Img.Slot L v (v.ent d b k) b' k' → v.ent (v.ent d b k) b' k' = 0)
    (hdrop : Img.Dropped L (v.ent d b k) (v.clear d b k) v') :
    s.Released t d b k (v.ent d b k) := by
  have hne := Img.ent_ne_self hs hent hempty
  obtain ⟨hlt, hu⟩ := hv.live d b k hs hent
  have hedit := (Img.clear_inv hv hs).2
  obtain ⟨hr1, hr2⟩ := Img.dir_range hv.blocks hs.dir hs.block hs.ptr
  obtain ⟨bit, heq⟩ := hdrop.rest
  have hino : ∀ i, i < L.sb.inodeCount → t.readInode i = s.readInode i := by
    intro i hi
    rw [h.ino i hi, h'.ino i hi, heq]
    rfl
  have hdir : s.readInode d = v.ino d := h.ino d hs.dir.lt
  -- the data blocks are those of `v`, but for the directory's
  have hblk : ∀ c, L.sb.dataStart ≤ c → c < L.sb.totalBlocks → t.blockRead c =
      if c = (v.ino d).ptr b then clearEnt (v.blk ((v.ino d).ptr b)) k else v.blk c := by
    intro c h1 h2
    rw [h'.blk c h1 h2, heq]
    exact Img.blk_setBlk ..
  refine ⟨fun c hc => ?_, fun i hi => ?_, ?_, fun b' k' hb' hk' hptr hother => ?_, ?_,
    fun c h1 h2 hc => ?_,
    fun i huse hie hid off n => ?_⟩
  · rw [h.sb] at hc
    rw [h.bit c hc, h'.bit c hc, hdrop.bit, Img.owns_clear hv hs hne, h.owns_iff hv.blocks hlt hu]
    rfl
  · rw [h.sb] at hi
    rw [h.inUse_iff, h'.inUse_iff, heq, Img.used_setUsed]
    split
    · next hie => simp [hie]
    · next hie => simp only [hie, ne_eq, not_false_eq_true, and_true]; rfl
  · rw [hdir, hblk _ hr1 hr2, if_pos rfl, entInode_clearEnt_same hs.slot]
  · rw [hdir] at hptr ⊢
    have hs' : Img.Slot L v d b' k' := ⟨hs.dir, hb', hptr, hk'⟩
    obtain ⟨hr1', hr2'⟩ := Img.dir_range hv.blocks hs.dir hb' hptr
    rw [hblk _ hr1' hr2', h.blk _ hr1' hr2']
    split
    · next hsame =>
        obtain ⟨-, rfl⟩ := hs'.injective hv.blocks hs hsame
        have hk : k' ≠ k := fun hk => hother ⟨rfl, hk⟩
        exact ⟨entInode_clearEnt_ne hk, fun j hj => entName_clearEnt_ne hk hj⟩
    · exact ⟨rfl, fun _ _ => rfl⟩
  · rw [h.sb]
    exact hino
  · rw [h.sb] at h1 h2
    rw [hdir] at hc
    rw [hblk c h1 h2, if_neg hc, h.blk c h1 h2]
  · obtain ⟨hi, hui⟩ := h.inUse_iff.mp huse
    have hui' : v'.used i = true := by rw [hdrop.frame.used_ne i hie]; exact hui
    have hnode : v'.ino i = v.ino i := by rw [hdrop.frame.ino i hie]; rfl
    rw [h.ino i hi, h'.ino i hi, h.fsRead_eq hv.blocks hi hui, h'.fsRead_eq hv'.blocks hi hui',
      hnode]
    refine List.map_congr_left fun j _ => ?_
    exact (hdrop.frame.fileByte hie _).trans (hedit.toFrame.fileByte hid _)

end Rep

namespace Cos

/-- **Deleting releases what the object owned**: in every state of every run, a deletion that
returns 0 takes one entry from the parent, its inode, and the blocks that can be reached from that;
any other changes nothing. -/
theorem run_delete_releases (s₀ : Cos) {s : Cos} (hrun : Run s₀ s) {d : Nat} (hd : s.DirInode d)
    (name : CStr) :
    ((s.fsDeleteIn d name).1 = 0 → ∃ b k e, s.EntryAt d b k e name ∧ s.InUse e ∧
      s.dirLookup (s.readInode d) name = some e ∧ s.Released (s.fsDeleteIn d name).2 d b k e) ∧
    ((s.fsDeleteIn d name).1 ≠ 0 → s.fsDeleteIn d name = (-1, s)) := by
  obtain ⟨v, h, hv⟩ := hrun.sound_of_inode (.inl hd)
  have hdir := h.dirInode_iff.mp hd
  refine ⟨fun hok => ?_, (fsDeleteIn_fails s d name).resolve_left⟩
  obtain ⟨v', h', hdel⟩ := h.fsDeleteIn_spec hv hdir name
  have hv' := hdel.inv hv
  generalize hrc : (s.fsDeleteIn d name).1 = rc at hok hdel
  cases hdel with
  | refused => exact absurd hok (by decide)
  | done b k _ hfind hs hent hempty hdrop =>
    obtain ⟨hlt, hu⟩ := hv.live d b k hs hent
    obtain ⟨hr₁, hr₂⟩ := Img.dir_range hv.blocks hdir hs.block hs.ptr
    have hnode : s.readInode d = v.ino d := h.ino d hdir.lt
    refine ⟨b, k, v.ent d b k, ?_, h.inUse_iff.mpr ⟨hlt, hu⟩, ?_,
      h.released hv h' hv' hs hent hempty hdrop⟩
    · refine ⟨hs.block, hs.slot, hnode ▸ hs.ptr, ?_, ?_⟩
      · rw [hnode, h.blk _ hr₁ hr₂, Img.ent]
      · rw [hnode, h.blk _ hr₁ hr₂]
        exact Img.findSlot_name hfind
    · rw [hnode, h.dirLookup_eq hv hdir, hfind, Option.map_some]

/-- The file of `oneFile` can be deleted. -/
theorem fsDeleteIn_oneFile (s0 : Cos)
    (hroom : s0.layout.sb.dataStart + 6 <
      s0.layout.sb.totalBlocks) :
    s0.oneFile.DirInode 0 ∧ (s0.oneFile.fsDeleteIn 0 fName).1 = 0 := by
  obtain ⟨-, v, hrep, hone⟩ := oneFile_spec s0 hroom
  refine ⟨hrep.dirInode_iff.mpr hone.inv.root, ?_⟩
  obtain ⟨v', -, hdel⟩ := hrep.fsDeleteIn_spec hone.inv hone.inv.root fName
  generalize (s0.oneFile.fsDeleteIn 0 fName).1 = rc at hdel
  cases hdel with
  | refused why =>
    obtain ⟨htype, -⟩ := why 0 5 (hone.filled.findSlot_first (by decide) (by decide) (by decide))
    have hent : v.ent 0 0 5 = 6 := by
      rw [Img.ent, hone.filled.ptr 0 (by decide), if_pos rfl, hone.filled.ent 5 (by decide)]
      rfl
    rw [hent, hone.type] at htype
    exact absurd htype (by decide)
  | done => rfl

/-- The only file of a drive of 1024 sectors. -/
theorem run_delete_releases_file : ∃ b k e, (zeroDrive 1024).oneFile.EntryAt 0 b k e fName ∧
    (zeroDrive 1024).oneFile.Released
      ((zeroDrive 1024).oneFile.fsDeleteIn 0 fName).2 0 b k e := by
  have hroom : (Layout.ofDrive 1024).sb.dataStart + 6 <
      (Layout.ofDrive 1024).sb.totalBlocks := by decide
  obtain ⟨hdir, hok⟩ := fsDeleteIn_oneFile (zeroDrive 1024) hroom
  obtain ⟨b, k, e, hentry, -, -, hreleased⟩ := (run_delete_releases (zeroDrive 1024)
    (oneFile_spec (zeroDrive 1024) hroom).1 hdir fName).1 hok
  exact ⟨b, k, e, hentry, hreleased⟩

end Cos

end Crusadia
