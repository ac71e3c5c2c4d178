import Crusadia.Host.File

/-!
# Crusadia.Host.Dir

**Directories and the tool's commands.** Lookup, insertion and removal are the driver's, so two
related states stay related. `put`, `mkdir` and `rm` are then sequences of calls that the driver
could have made, and each of them leaves a sound file system (`Sim.cmdPut`, `Sim.cmdMkdir`,
`Sim.cmdRm`). `rm` frees the file before it clears the entry, which comes to the same image.
-/

namespace Crusadia

namespace Host

namespace Sim

variable {L : Layout} {h : Host} {s : Cos} {v : Img} {d i : Nat}

/-! ### Directories -/

/-- `dir_lookup`. -/
theorem dirLookup (hs : Sim L h s) (dir : Inode) (name : CStr) :
    h.dirLookup dir name = s.dirLookup dir name := by
  have hfrom : ∀ count b, h.dirLookupFrom dir name count b = s.dirLookupFrom dir name count b := by
    intro count
    induction count with
    | zero => exact fun _ => rfl
    | succ count ih =>
      intro b
      simp only [Host.dirLookupFrom, hs.sectors, hs.hostSb, ih]
      rw [← hs.sb]
      rfl
  rw [Host.dirLookup, Cos.dirLookup, hfrom]

/-- No block of a directory is a bitmap sector. -/
theorem dir_off (hb : Img.Blocks L v) (hd : Img.IsDir L v d) {b : Nat} (hlt : b < 12)
    (h0 : (v.ino d).ptr b ≠ 0) : L.sb.inodeStart ≤ (v.ino d).ptr b := by
  have := (Img.dir_range hb hd hlt h0).1
  have := L.dataStart
  omega

section

variable (hs : Sim L h s) (hb : Img.Blocks L v) (hd : Img.IsDir L v d) (name : CStr)
include hs hb hd

/-- `dir_add`, for a directory in use. -/
theorem dirAdd (idx : Nat) : (h.dirAdd d (v.ino d) name idx).1 = (s.dirAdd d (v.ino d) name idx).1 ∧
      Sim L (h.dirAdd d (v.ino d) name idx).2 (s.dirAdd d (v.ino d) name idx).2 := by
  have hfrom : ∀ count b, b + count = 12 →
      (Host.dirAddFrom d name idx count b (v.ino d) h).1 =
        (Cos.dirAddFrom d name idx count b (v.ino d) s).1 ∧
      Sim L (Host.dirAddFrom d name idx count b (v.ino d) h).2
        (Cos.dirAddFrom d name idx count b (v.ino d) s).2 := by
    intro count
    induction count with
    | zero => exact fun _ _ => ⟨rfl, hs⟩
    | succ count ih =>
      intro b hbc
      rw [Host.dirAddFrom, Cos.dirAddFrom, Host.dirAddBlock, Cos.dirAddBlock]
      by_cases h0 : (v.ino d).ptr b = 0
      · obtain ⟨hres, hal⟩ := hs.allocBlock
        simp only [if_pos h0, hres]
        have hfst := hs.rep.allocBlock_fst
        cases hff : s.img.firstFree L with
        | none =>
          rw [hff, Option.getD_none] at hfst
          simp only [if_pos hfst]
          exact ⟨trivial, hal⟩
        | some nb =>
          obtain ⟨⟨hr1, hr2⟩, -, hnb0, h32⟩ := Img.firstFree_facts hff
          rw [hff, Option.getD_some] at hfst
          have hptr : ((v.ino d).setPtr b nb).ptr b = nb := by
            rw [Inode.ptr_setPtr_same (by omega), h32]
          have hdata := L.dataStart
          -- the new block is empty, so the entry goes there
          simp only [hfst, if_neg hnb0, Rep.find?_zero, hptr]
          exact ⟨trivial, (hal.writeInode d _).blockWrite (Or.inr (by omega)) _⟩
      · simp only [if_neg h0, hs.sectors]
        cases (List.range 16).find? fun i => entInode (s.blockRead ((v.ino d).ptr b)) i == 0 with
        | some i => exact ⟨rfl, hs.blockWrite (Or.inr (dir_off hb hd (by omega) h0)) _⟩
        | none => exact ih (b + 1) (by omega)
  exact hfrom 12 0 rfl

/-- `dir_remove`, for a directory in use. -/
theorem dirRemove :
    Sim L (h.dirRemove (v.ino d) name).2 (s.dirRemove (v.ino d) name).2 := by
  have hfrom : ∀ count b, b + count = 12 → Sim L (h.dirRemoveFrom (v.ino d) name count b).2
      (s.dirRemoveFrom (v.ino d) name count b).2 := by
    intro count
    induction count with
    | zero => exact fun _ _ => hs
    | succ count ih =>
      intro b hbc
      rw [Host.dirRemoveFrom, Cos.dirRemoveFrom]
      by_cases h0 : (v.ino d).ptr b = 0
      · rw [if_pos h0, if_pos h0]
        exact ih (b + 1) (by omega)
      · simp only [if_neg h0, hs.sectors]
        cases (List.range 16).find? fun i => entInode (s.blockRead ((v.ino d).ptr b)) i != 0 &&
            strEq (entName (s.blockRead ((v.ino d).ptr b)) i) name with
        | some i => exact hs.blockWrite (Or.inr (dir_off hb hd (by omega) h0)) _
        | none => exact ih (b + 1) (by omega)
  rw [Host.dirRemove, Cos.dirRemove, if_neg (fun hne => hne hd.type),
    if_neg (fun hne => hne hd.type)]
  exact hfrom 12 0 rfl

end

section

variable (hs : Sim L h s) (hrep : Rep L s v)
include hs hrep

theorem resolveStep (hv : Img.Inv L v) {cur : Nat}
    {tok : CStr} {last : Bool} (hlt : cur < L.sb.inodeCount) (hu : v.used cur = true)
    (hres : h.resolveStep cur tok last = some i) : i < L.sb.inodeCount ∧ v.used i = true := by
  unfold Host.resolveStep at hres
  rw [hs.readInode cur, hrep.ino cur hlt, hs.dirLookup] at hres
  by_cases ht : (v.ino cur).type = 2
  · have hd : Img.IsDir L v cur := ⟨hlt, hu, ht⟩
    rw [hrep.dirLookup_eq hv hd] at hres
    cases hfind : v.findSlot cur tok 12 0 with
    | none =>
      rw [hfind] at hres
      cases hres
    | some bk =>
      obtain ⟨b, k⟩ := bk
      simp only [hfind, Option.map_some] at hres
      split at hres
      · cases hres
      · rw [Option.some.injEq] at hres
        exact hres ▸ (hv.find hd hfind).2.2
  · rw [Cos.dirLookup, if_pos ht] at hres
    cases hres

/-- `resolve_path` ends at an inode in use. -/
theorem resolveFrom (hv : Img.Inv L v) : ∀ path {cur i : Nat},
    cur < L.sb.inodeCount → v.used cur = true → h.resolveFrom path cur = some i →
    i < L.sb.inodeCount ∧ v.used i = true := by
  intro path
  induction path with
  | nil =>
    intro cur i hlt hu hres
    rw [Host.resolveFrom, Option.some.injEq] at hres
    exact hres ▸ ⟨hlt, hu⟩
  | cons tok rest ih =>
    intro cur i hlt hu hres
    rw [Host.resolveFrom, Option.bind_eq_some_iff] at hres
    obtain ⟨found, hstep, hrest⟩ := hres
    obtain ⟨hlt', hu'⟩ := hs.resolveStep hrep hv hlt hu hstep
    exact ih hlt' hu' hrest

/-- What `put` and `mkdir` have checked before they start. -/
theorem target (hv : Img.Inv L v) {dirpart : List CStr}
    {base : CStr} {p : Nat} (ht : h.target dirpart base = some p) :
    Img.IsDir L v p ∧ (s.dirLookup (v.ino p) base).isSome = false := by
  rw [Host.target] at ht
  split at ht
  · cases ht
  · split at ht
    · cases ht
    · rename_i q hq
      obtain ⟨hlt, hu⟩ := hs.resolveFrom hrep hv dirpart hv.root.lt hv.root.used hq
      rw [hs.readInode, hrep.ino q hlt, hs.dirLookup] at ht
      split at ht
      · cases ht
      · rename_i htype
        split at ht
        · cases ht
        · rename_i hnew
          cases ht
          exact ⟨⟨hlt, hu, not_not.mp htype⟩, by simpa using hnew⟩

end

/-! ### Making an inode -/

theorem allocInode_eq {r : Option Nat} {s' : Cos} (hs : Sim L h s) (hk : s.allocInode = (r, s')) :
    ∃ h', h.allocInode = (r, h') ∧ Sim L h' s' := by
  obtain ⟨hres, hsim⟩ := hs.allocInode
  rw [hk] at hres hsim
  exact ⟨_, Prod.ext hres rfl, hsim⟩

/-- The block of a directory is zeroed by both. -/
theorem zeroBlock {nb : Nat} (hs : Sim L h s) (hff : v.firstFree L = some nb) :
    Sim L (h.zeroBlock nb) (s.blockWrite nb Buf.zero) := by
  have hr := (Img.firstFree_facts hff).1.1
  have hdata := L.dataStart
  exact hs.blockWrite (Or.inr (by omega)) Buf.zero

/-- The entry for an inode that no entry names yet. -/
theorem enter (hs : Sim L h s) (hrep : Rep L s v) (hv : Img.Inv L v)
    (hd : Img.IsDir L v d) (name : CStr) (hi : i < L.sb.inodeCount) (hu : v.used i = true)
    (hnew : ∀ d b k, Img.Slot L v d b k → v.ent d b k ≠ i) :
    Sim L (h.dirAdd d (v.ino d) name i).2 (s.dirAdd d (v.ino d) name i).2 ∧
      Cos.SoundFrom L v.boot (s.dirAdd d (v.ino d) name i).2 := by
  refine ⟨(hs.dirAdd hv.blocks hd name i).2, ?_⟩
  obtain ⟨v', hrep', hadd⟩ := hrep.dirAdd_spec hv hd name i
  refine ⟨v', hrep', ?_, Or.inl hadd.boot⟩
  rcases hadd.added hv hd with ⟨-, ha⟩ | ⟨-, rfl⟩
  · exact ha.inv hv ⟨hi, hu⟩ hnew
  · exact hv

/-! ### Commands -/

/-- `mkdir` is `fs_create_dir`. -/
theorem cmdMkdir (hs : Sim L h s) (hrep : Rep L s v) (hv : Img.Inv L v) (dirpart : List CStr)
    (base : CStr) : ∃ s', Sim L (h.cmdMkdir dirpart base).2 s' ∧ Cos.SoundFrom L v.boot s' := by
  rw [Host.cmdMkdir]
  cases ht : h.target dirpart base with
  | none => exact ⟨s, hs, v, hrep, hv, Or.inl rfl⟩
  | some p =>
    obtain ⟨hd, -⟩ := hs.target hrep hv ht
    simp only [hs.readInode p, hrep.ino p hd.lt]
    cases hrep.birth with
    | full hk =>
      obtain ⟨h1, hh, hs1⟩ := hs.allocInode_eq hk
      simp only [hh]
      exact ⟨s, hs1, v, hrep, hv, Or.inl rfl⟩
    | bare i s1 hk hz _ hrep' =>
      obtain ⟨h1, hh, hs1⟩ := hs.allocInode_eq hk
      obtain ⟨hres, hsim⟩ := hs1.allocBlock
      simp only [hh, if_pos (hres.trans hz)]
      exact ⟨_, hsim.freeInode i, v, hrep', hv, Or.inl rfl⟩
    | made i nb s1 hk hblk hnb0 hi hu _ hff hrep' =>
      obtain ⟨h1, hh, hs1⟩ := hs.allocInode_eq hk
      obtain ⟨hres, hsim⟩ := hs1.allocBlock
      have hfresh := Inode.fresh_blank 2
      have hzero := (hsim.writeInode i ((Inode.blank 2).setPtr 0 nb)).zeroBlock hff
      have hino : (v.born i nb (Inode.blank 2) true).ino p = v.ino p := by
        rw [Img.born_ino, if_neg (hd.ne hu)]
      obtain ⟨hadd, hsound⟩ := hzero.enter ((hrep' _).zeroBorn hff)
        (Img.born_inv hv hi hu hff hfresh fun _ => rfl) (hd.born hu) base hi
        (by rw [Img.born_used, if_pos rfl])
        (Img.born_unnamed hv hi hu hff hfresh fun _ => rfl)
      rw [hino] at hadd hsound
      rw [Img.born_boot] at hsound
      simp only [hh, hres.trans hblk, if_neg hnb0]
      exact ⟨_, hadd, hsound⟩

/-- The inode of `put` before it has a block. -/
theorem fresh_putNode (tag : CStr) : (putNode tag).Fresh := by
  have hfresh := (Inode.fresh_blank 1).setMainTag tag
  have hword : ∀ off, off + 4 ≤ 76 → (((Inode.blank 1).setMainTag tag).raw.put8 76 0).get32 off =
      ((Inode.blank 1).setMainTag tag).raw.get32 off :=
    fun off hoff => Buf.get32_splice_out (Or.inl hoff)
  exact Inode.Fresh.setTag0 ⟨fun r hr => (hword _ (by omega)).trans (hfresh.ptr r hr),
    (hword 0 (by omega)).trans hfresh.size⟩ _

theorem putNode_type (tag : CStr) : (putNode tag).type = 1 := by
  rw [putNode, Inode.type, Inode.setTag0, Buf.get_splice_out (by omega), Buf.put8,
    Buf.get_splice_out (by omega), Inode.setMainTag, Buf.get_splice_out (by omega)]
  exact Rep.blank_type 1

/-- The data of a new file is written, which the directories do not see, and the file gets its
entry. -/
theorem putData {p : Nat} (hs : Sim L h s) (hrep : Rep L s v) (hv : Img.Inv L v)
    (hd : Img.IsDir L v p) (hi : i < L.sb.inodeCount) (hu : v.used i = true)
    (htype : (v.ino i).type = 1) (hnew : ∀ d b k, Img.Slot L v d b k → v.ent d b k ≠ i)
    (base : CStr) (data : List Byte) :
    ∃ s', Sim L (h.putData p i base data).2 s' ∧ Cos.SoundFrom L v.boot s' := by
  have hfile : (v.ino i).type ≠ 2 := by rw [htype]; decide
  obtain ⟨s1, v1, hs1, hrep1, hb1, hedit, hboot⟩ : ∃ s1 v1,
      Sim L (if data.length > 0 then h.fsWrite i 0 data else (0, h)).2 s1 ∧ Rep L s1 v1 ∧
        Img.Blocks L v1 ∧ Img.Edit L i v v1 ∧ (v1.boot = v.boot ∨ v1.boot = Buf.zero) := by
    split
    · have h0 : 0 < 2 ^ 32 := by omega
      obtain ⟨v1, w, sz, ok, hrep1, hw, hend, -⟩ := hrep.fsWrite_spec hv.blocks hi hu h0 data
      exact ⟨_, v1, (hs.fsWrite hrep hv.blocks hi hu h0 data).2, hrep1, hw.blocks, hw.edit,
        hend.boot⟩
    · exact ⟨s, v, hs, hrep, hv.blocks, Img.Edit.refl L i v, Or.inl rfl⟩
  have hv1 := hv.edit hedit hb1 hfile
  simp only [Host.putData]
  generalize (if data.length > 0 then h.fsWrite i 0 data else (0, h)) = w at hs1 ⊢
  split
  · exact ⟨s1, hs1, v1, hrep1, hv1, hboot⟩
  · obtain ⟨hadd, hsound⟩ := hs1.enter hrep1 hv1 (hedit.isDir.mpr hd) base hi
      (by rw [hedit.used]; exact hu) fun d b k hs => by
        obtain ⟨hs', hent⟩ := hedit.toFrame.entry (hedit.ne hfile hs.dir) hs
        rw [hent]
        exact hnew d b k hs'
    rw [hs1.readInode p, hrep1.ino p hd.lt]
    exact ⟨_, hadd, hsound.of_boot hboot⟩

/-- `put`. -/
theorem cmdPut (hs : Sim L h s) (hrep : Rep L s v) (hv : Img.Inv L v) (dirpart : List CStr)
    (base : CStr) (tag : Option CStr) (data : List Byte) :
    ∃ s', Sim L (h.cmdPut dirpart base tag data).2 s' ∧ Cos.SoundFrom L v.boot s' := by
  rw [Host.cmdPut]
  cases ht : h.target dirpart base with
  | none => exact ⟨s, hs, v, hrep, hv, Or.inl rfl⟩
  | some p =>
    obtain ⟨hd, -⟩ := hs.target hrep hv ht
    dsimp only
    cases hrep.birth with
    | full hk =>
      obtain ⟨h1, hh, hs1⟩ := hs.allocInode_eq hk
      simp only [hh]
      exact ⟨s, hs1, v, hrep, hv, Or.inl rfl⟩
    | bare i s1 hk hz _ hrep' =>
      obtain ⟨h1, hh, hs1⟩ := hs.allocInode_eq hk
      obtain ⟨hres, hsim⟩ := hs1.allocBlock
      simp only [hh, if_pos (hres.trans hz)]
      exact ⟨_, hsim.freeInode i, v, hrep', hv, Or.inl rfl⟩
    | made i nb s1 hk hblk hnb0 hi hu _ hff hrep' =>
      obtain ⟨h1, hh, hs1⟩ := hs.allocInode_eq hk
      obtain ⟨hres, hsim⟩ := hs1.allocBlock
      have hfresh := fresh_putNode (useTag tag)
      have htype := putNode_type (useTag tag)
      have hdir : (putNode (useTag tag)).type = 2 → false = true := fun h2 =>
        absurd (h2.symm.trans htype) (by decide)
      have hput := (hsim.writeInode i _).putData (hrep' (putNode (useTag tag)))
        (Img.born_inv hv hi hu hff hfresh hdir) (hd.born hu) hi
        (by rw [Img.born_used, if_pos rfl]) (Img.born_type.trans htype)
        (Img.born_unnamed hv hi hu hff hfresh hdir) base data
      rw [Img.born_boot] at hput
      simp only [hh, hres.trans hblk, if_neg hnb0]
      exact hput

/-- The part of `rm` that frees the blocks. -/
theorem freeInodeData (hs : Sim L h s) (node : Inode) :
    Sim L (h.freeInodeData node) (s.fsFreeInodeData node) := by
  have htree : ∀ r depth {h : Host} {s : Cos}, Sim L h s →
      Sim L (if node.ptr r ≠ 0 then Host.freeIndirectTree depth (node.ptr r) h else h)
        (if node.ptr r ≠ 0 then Cos.freeIndirectTree depth (node.ptr r) s else s) := by
    intro r depth h s hs
    split
    · exact freeIndirectTree depth _ hs
    · exact hs
  refine htree 14 3 (htree 13 2 (htree 12 1 (List.foldl_rel hs fun k _ h' s' hs' => ?_)))
  split
  · exact hs'.freeBlock _
  · exact hs'

end Sim

end Host

namespace Img

variable {L : Layout} {v v' : Img} {d b k e : Nat}

/-- Clearing an entry moves no block. -/
theorem Slot.owns_clear (hs : Slot L v d b k) (hb : Blocks L v) (c : Nat) :
    Owns L (v.clear d b k) e c ↔ Owns L v e c := by
  have hptr : ∀ r p, PtrPlace (e, r) p → (v.clear d b k).ptr L (e, r) p = v.ptr L (e, r) p := by
    intro r p hp
    have h0 : v.ptr L (d, b) [] ≠ 0 := by rw [hs.ptr_eq]; exact hs.ptr
    rw [clear, ← hs.ptr_eq]
    exact ptr_setBlk_leaf hb (Forest.place_nil _) (dir_leaf hs.block) h0 _ hp
  refine and_congr_right fun _ => ⟨?_, ?_⟩
  · rintro ⟨r, p, hp, heq⟩
    exact ⟨r, p, hp, (hptr r p hp).symm.trans heq⟩
  · rintro ⟨r, p, hp, heq⟩
    exact ⟨r, p, hp, (hptr r p hp).trans heq⟩

/-- An entry may be cleared after its inode has been dropped, or before. -/
theorem Dropped.clear (h : Dropped L e v v') (hs : Slot L v d b k) (hb : Blocks L v) :
    Dropped L e (v.clear d b k) (v'.clear d b k) := by
  obtain ⟨bit, rfl⟩ := h.rest
  refine ⟨⟨bit, rfl⟩, fun c => ?_⟩
  rw [hs.owns_clear hb]
  exact h.bit c

end Img

namespace Host.Sim

variable {L : Layout} {h : Host} {s : Cos} {v : Img} {d : Nat}

section

variable (hs : Sim L h s) (hrep : Rep L s v)
include hs hrep

/-- `rm` frees the file and then clears the entry. -/
theorem cmdRm (hv : Img.Inv L v) (dirpart : List CStr)
    (base : CStr) : ∃ s', Sim L (h.cmdRm dirpart base).2 s' ∧ Cos.SoundFrom L v.boot s' := by
  rw [Host.cmdRm]
  cases hp : h.resolvePath dirpart with
  | none => exact ⟨s, hs, v, hrep, hv, Or.inl rfl⟩
  | some p =>
    obtain ⟨hlt, hu⟩ := hs.resolveFrom hrep hv dirpart hv.root.lt hv.root.used hp
    simp only [hs.readInode p, hrep.ino p hlt, hs.dirLookup]
    by_cases ht : (v.ino p).type = 2
    · have hd : Img.IsDir L v p := ⟨hlt, hu, ht⟩
      rw [hrep.dirLookup_eq hv hd]
      cases hfind : v.findSlot p base 12 0 with
      | none => exact ⟨s, hs, v, hrep, hv, Or.inl rfl⟩
      | some bk =>
        obtain ⟨b, k⟩ := bk
        obtain ⟨hslot, hent, he, hue⟩ := hv.find hd hfind
        simp only [Option.map_some, hs.readInode, hrep.ino _ he]
        by_cases htype : (v.ino (v.ent p b k)).type = 2
        · rw [if_pos htype]
          exact ⟨s, hs, v, hrep, hv, Or.inl rfl⟩
        · rw [if_neg htype]
          obtain ⟨v1, hrep1, hdrop⟩ := hrep.drop_spec hv.blocks he hue
          have hs1 := (hs.freeInodeData (v.ino (v.ent p b k))).freeInode (v.ent p b k)
          have hb1 := hdrop.blocks hv.blocks
          have hne : p ≠ v.ent p b k := by
            intro heq
            exact htype (heq ▸ ht)
          have hino : v1.ino p = v.ino p := hdrop.frame.ino p hne
          have hd1 := (hdrop.frame.isDir hne).mpr hd
          have hfind1 : v1.findSlot p base 12 0 = some (b, k) := by
            obtain ⟨bit, rfl⟩ := hdrop.rest
            exact hfind
          obtain ⟨hr1, hr2⟩ := Img.dir_range hb1 hd1 hslot.block (by rw [hino]; exact hslot.ptr)
          -- the entry is where it was
          have hdense : ∀ b', (v1.ino p).ptr b' = 0 → ∀ b'', b' ≤ b'' → b'' < 12 →
              (v1.ino p).ptr b'' = 0 := by
            rw [hino]
            exact fun b' h0 => (hv.dirWf hd).ptr_zero_of_le h0
          have hs2 := hs1.dirRemove hb1 hd1 base
          rw [hrep1.dirRemove_of_dense hd1.type (fun _ => Img.dir_range hb1 hd1) hdense,
            hfind1] at hs2
          have hdel : Img.Delete L v p base (v1.clear p b k) 0 :=
            .done b k _ hfind hslot hent (fun b' k' hs' => absurd hs'.dir.type htype)
              (hdrop.clear hslot hv.blocks)
          rw [← hino]
          exact ⟨_, hs2, v1.clear p b k, hrep1.writeBlk _ hr1 hr2, hdel.inv hv, Or.inl hdel.boot⟩
    · rw [Cos.dirLookup, if_pos ht]
      exact ⟨s, hs, v, hrep, hv, Or.inl rfl⟩

/-! ### Calls of the driver -/

/-- `fs_create_dir` without a block for the directory, in any parent. -/
theorem fsCreateDir_none (hff : v.firstFree L = none)
    (name : CStr) (d : Nat) : ∃ h', Sim L h' (s.fsCreateDir name d).2 := by
  rw [Cos.fsCreateDir]
  split
  · exact ⟨h, hs⟩
  · cases hrep.birth with
    | full hk =>
      rw [hk]
      exact ⟨h, hs⟩
    | bare i s1 hk hz =>
      obtain ⟨h1, -, hs1⟩ := hs.allocInode_eq hk
      simp only [hk, if_pos hz]
      exact ⟨_, hs1.allocBlock.2.freeInode i⟩
    | made i nb s1 _ _ _ _ _ _ hff' => exact absurd (hff.symm.trans hff') (by simp)

/-- `fs_create_dir`. -/
theorem fsCreateDir (hv : Img.Inv L v) (hd : Img.IsDir L v d)
    (name : CStr) : ∃ h', Sim L h' (s.fsCreateDir name d).2 := by
  cases hrep.birth with
  | made i nb s1 hk hblk hnb0 hi hu _ hff hrep' =>
    obtain ⟨h1, -, hs1⟩ := hs.allocInode_eq hk
    have hborn := (hrep' (Inode.blank 2)).zeroBorn hff
    have hblocks : Img.Blocks L (v.born i nb (Inode.blank 2) true) :=
      Img.born_blocks hv.blocks hi hu hff (Inode.fresh_blank 2)
    rw [Cos.fsCreateDir]
    split
    · exact ⟨h, hs⟩
    · simp only [hk, hblk, if_neg hnb0, hborn.ino d hd.lt]
      exact ⟨_, (((hs1.allocBlock.2.writeInode i _).zeroBlock hff).dirAdd hblocks (hd.born hu)
        name i).2⟩
  | bare i s1 hk hz hff => exact hs.fsCreateDir_none hrep hff name d
  | full hk =>
    rw [Cos.fsCreateDir, hk]
    split <;> exact ⟨h, hs⟩

/-- `fs_create_file`. -/
theorem fsCreateFile (hv : Img.Inv L v) (hd : Img.IsDir L v s.gCurrentDir) (name tag : CStr) :
    ∃ h', Sim L h' (s.fsCreateFile name tag).2 := by
  rw [Cos.fsCreateFile]
  split
  · exact ⟨h, hs⟩
  · split
    · exact ⟨h, hs⟩
    · cases hrep.birth with
      | full hk =>
        rw [hk]
        exact ⟨h, hs⟩
      | bare i s1 hk hz =>
        obtain ⟨h1, -, hs1⟩ := hs.allocInode_eq hk
        simp only [hk, if_pos hz]
        exact ⟨_, hs1.allocBlock.2.freeInode i⟩
      | made i nb s1 hk hblk hnb0 hi hu _ hff hrep' =>
        obtain ⟨h1, -, hs1⟩ := hs.allocInode_eq hk
        have hborn := hrep' (Rep.fileNode tag)
        have hblocks : Img.Blocks L (v.born i nb (Rep.fileNode tag) false) :=
          Img.born_blocks hv.blocks hi hu hff (Rep.fresh_fileNode tag)
        have hsim := hs1.allocBlock.2.writeInode i ((Rep.fileNode tag).setPtr 0 nb)
        have hadd := (hsim.dirAdd hblocks (hd.born hu) name i).2
        rw [← hborn.ino _ hd.lt, ← hborn.cwd.trans (Img.born_cwd.trans hrep.cwd.symm)] at hadd
        simp only [hk, hblk, if_neg hnb0]
        exact ⟨_, hadd⟩

/-- `fs_delete_in`. -/
theorem fsDeleteIn (hv : Img.Inv L v) (hd : Img.IsDir L v d)
    (name : CStr) : ∃ h', Sim L h' (s.fsDeleteIn d name).2 := by
  rw [Cos.fsDeleteIn, hrep.ino d hd.lt]
  dsimp only
  rw [if_neg (fun hne => hne hd.type)]
  split
  · exact ⟨h, hs⟩
  · exact ⟨h, hs⟩
  · split
    · exact ⟨h, hs⟩
    · have hremove := hs.dirRemove hv.blocks hd name
      generalize s.dirRemove (v.ino d) name = r at hremove ⊢
      obtain ⟨rc, s1⟩ := r
      dsimp only at hremove ⊢
      split
      · exact ⟨_, hremove⟩
      · dsimp only
        exact ⟨_, (hremove.freeInodeData _).freeInode _⟩

/-- One allowed call of the driver. -/
theorem apply (hv : Img.Inv L v) {op : Op} (hok : s.Allowed op) : ∃ h', Sim L h' (s.apply op) := by
  cases op with
  | createFile dir name tag =>
    have hd := hrep.dirInode_iff.mp hok
    exact (hs.setCwd dir).fsCreateFile (hrep.setCwd dir) (hv.cwd dir) (hd.congr rfl rfl) name tag
  | createDir name parent => exact hs.fsCreateDir hrep hv (hrep.dirInode_iff.mp hok) name
  | write i offset data =>
    obtain ⟨hi, hu, -⟩ := hrep.fileInode_iff.mp hok.1
    exact ⟨_, (hs.fsWrite hrep hv.blocks hi hu hok.2 data).2⟩
  | delete parent name => exact hs.fsDeleteIn hrep hv (hrep.dirInode_iff.mp hok) name

end

end Host.Sim

end Crusadia
