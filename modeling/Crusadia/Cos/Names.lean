import Crusadia.Cos.Fresh

/-!
# Crusadia.Cos.Names

**Names in directories.** `dir_add` ends every name it stores with a NUL in the last byte of
its field, and nothing else writes to an entry that is in use (`Img.Named`). So comparing
an entry with a name never runs into the next entry.
-/

namespace Crusadia

theorem entName_clearEnt_ne {buf : Sector} {k k' j : Nat} (hk : k' ≠ k) (hj : j < 28) :
    entName (clearEnt buf k) k' j = entName buf k' j := by
  rw [entName, clearEnt, Buf.get_splice_out (by omega), entName]

/-- Slot `k` of a directory block is in use and holds `name`. -/
def entMatch (sec : Sector) (k : Nat) (name : CStr) : Bool :=
  entInode sec k != 0 && strEq (entName sec k) name

namespace Img

/-- The last byte of the name in a slot. -/
def term (v : Img) (d b k : Nat) : Byte := entName (v.blk ((v.ino d).ptr b)) k 27

/-- Every name in a directory ends within its field. -/
def Named (L : Layout) (v : Img) : Prop :=
  ∀ d b k, Slot L v d b k → v.ent d b k ≠ 0 → v.term d b k = 0

variable {L : Layout} {v v' : Img} {d i : Nat} {name : CStr}

theorem Named.cwd (h : v.Named L) (c : Nat) : Named L { v with cwd := c } := fun d b k hs =>
  h d b k (hs.congr rfl rfl)

/-- A change that concerns inode `i`: what is left to check is its own slots. -/
theorem Named.frame (hn : Named L v) (h : Frame L i v v')
    (hself : ∀ b k, Slot L v' i b k → v'.ent i b k ≠ 0 → v'.term i b k = 0) : Named L v' := by
  intro d b k hs hent
  by_cases hd : d = i
  · subst hd
    exact hself b k hs hent
  · obtain ⟨hs', hblk⟩ := h.slot hd hs
    rw [ent, hblk] at hent
    rw [term, hblk]
    exact hn d b k hs' hent

/-- A directory block is rewritten, and its entries end within their fields again. -/
theorem Named.setBlk (hn : Named L v) (hb : Blocks L v) {b k : Nat} (hs : Slot L v d b k)
    {sec : Sector} (hsec : ∀ k, k < 16 → entInode sec k ≠ 0 → entName sec k 27 = 0) :
    Named L (v.setBlk ((v.ino d).ptr b) sec) := by
  refine hn.frame (hs.setBlk hb sec).2.toFrame fun b' k' hs' hent => ?_
  have hs1 := slot_setBlk.mp hs'
  rw [ent] at hent
  rw [term]
  simp only [blk_setBlk, show (v.setBlk ((v.ino d).ptr b) sec).ino = v.ino from rfl] at hent ⊢
  split at hent
  · rename_i heq
    rw [if_pos heq]
    exact hsec k' hs'.slot hent
  · rename_i hne
    rw [if_neg hne]
    exact hn d b' k' hs1 hent

/-- `dir_add` keeps names ended. -/
theorem DirAdd.named {idx : Nat} {rc : Int} (ha : DirAdd L v d name idx v' rc) (hn : Named L v)
    (hv : Inv L v) (hd : IsDir L v d) : Named L v' := by
  cases ha with
  | noBlock => exact hn
  | full => exact hn
  | slot b k hs hfree hfull hfirst =>
    refine hn.setBlk hv.blocks (hs.inDir hd) fun k' hk' hent => ?_
    by_cases hk : k' = k
    · rw [hk, entName_putEnt_same hs.slot (by omega), if_neg (by omega)]
    · rw [entInode_putEnt_ne hk] at hent
      rw [entName_putEnt_ne hk (by omega)]
      exact hn d b k' ⟨hd, hs.block, hs.ptr, hk'⟩ hent
  | block b nb hb h0 hfull hff =>
    refine hn.frame (added_block hv hd hb h0 hfull hff).edit.toFrame fun b' k' hs' hent => ?_
    obtain ⟨-, hfree, hnb0, h32⟩ := firstFree_facts hff
    have hptr : ∀ b', ((((v.take nb false).setIno d ((v.ino d).setPtr b nb)).setBlk nb
        (putEnt Buf.zero 0 idx name)).ino d).ptr b' =
        if b' = b then nb else (v.ino d).ptr b' := by
      intro b'
      show (((v.take nb false).setIno d ((v.ino d).setPtr b nb)).ino d).ptr b' = _
      rw [ino_setIno, if_pos rfl]
      split
      · rename_i heq
        rw [heq, Inode.ptr_setPtr_same (by omega), h32]
      · rename_i hne
        rw [Inode.ptr_setPtr_ne hne]
    rw [ent, hptr] at hent
    rw [term, hptr]
    have hblk := blk_setBlk ((v.take nb false).setIno d ((v.ino d).setPtr b nb)) nb
      (putEnt Buf.zero 0 idx name)
    by_cases hbb : b' = b
    · rw [if_pos hbb, hblk, if_pos rfl] at hent ⊢
      by_cases hk : k' = 0
      · rw [hk, entName_putEnt_same (by omega) (by omega), if_neg (by omega)]
      · rw [entInode_putEnt_ne hk, entInode_zero] at hent
        exact absurd rfl hent
    · have hs1 : Slot L v d b' k' :=
        ⟨hd, hs'.block, by have := hs'.ptr; rwa [hptr, if_neg hbb] at this, hs'.slot⟩
      have hne : (v.ino d).ptr b' ≠ nb := by
        rw [← hs1.ptr_eq]
        exact hv.blocks.fresh hfree _ _ (Forest.place_nil _) hnb0
      rw [if_neg hbb, hblk, if_neg hne] at hent ⊢
      exact hn d b' k' hs1 hent

/-- A new directory has no names yet. -/
theorem Named.born {idx nb : Nat} {node : Inode} {zeroed : Bool} (hn : Named L v) (hv : Inv L v)
    (hidx : idx < L.sb.inodeCount) (hu : v.used idx = false) (hff : v.firstFree L = some nb)
    (hf : node.Fresh) (hz : node.type = 2 → zeroed = true) :
    Named L (v.born idx nb node zeroed) := by
  refine hn.frame (born_frame hv.blocks hidx hu hff hf) fun b k hs hent => ?_
  rcases born_slot hv.blocks hidx hu hff hf hz hs with ⟨hne, -⟩ | ⟨-, -, h0⟩
  · exact absurd rfl hne
  · exact absurd h0 hent

theorem Create.named {node : Inode} {zeroed : Bool} {res : Option Nat}
    (hc : Create L v d name node zeroed v' res) (hn : Named L v) (hv : Inv L v) (hd : IsDir L v d)
    (hf : node.Fresh) (hz : node.type = 2 → zeroed = true) : Named L v' := by
  cases hc with
  | refused => exact hn
  | made idx nb _ rc hnew hidx hu hfirst hff hadd =>
    exact hadd.named (hn.born hv hidx hu hff hf hz) (born_inv hv hidx hu hff hf hz) (hd.born hu)

theorem Delete.named {rc : Int} (hc : Delete L v d name v' rc) (hn : Named L v) (hv : Inv L v) :
    Named L v' := by
  cases hc with
  | refused => exact hn
  | done b k _ hfind hs hent hempty hdrop =>
    have hclear : Named L (v.clear d b k) := by
      refine hn.setBlk hv.blocks hs fun k' hk' hne => ?_
      by_cases hk : k' = k
      · rw [hk, entInode_clearEnt_same hs.slot] at hne
        exact absurd rfl hne
      · rw [entInode_clearEnt_ne hk] at hne
        rw [entName_clearEnt_ne hk (by omega)]
        exact hn d b k' ⟨hs.dir, hs.block, hs.ptr, hk'⟩ hne
    refine hclear.frame hdrop.frame fun b' k' hs' _ => ?_
    have := hs'.dir.used
    rw [hdrop.not_used] at this
    cases this

/-- A file has no names. -/
theorem Edit.named (h : Edit L i v v') (hn : Named L v) (hi : (v.ino i).type ≠ 2) : Named L v' :=
  hn.frame h.toFrame fun b k hs _ => absurd ((h.raw 64 (by omega)).symm.trans hs.dir.type) hi

/-! ### Lookups -/

/-- What `dir_lookup` finds in directory `d`. -/
def lookup (v : Img) (d : Nat) (name : CStr) : Option Nat :=
  (v.findSlot d name 12 0).map fun bk => v.ent d bk.1 bk.2

/-- Slot `k` of block `b` holds `name`. -/
def matchesAt (v : Img) (d b k : Nat) (name : CStr) : Bool :=
  entMatch (v.blk ((v.ino d).ptr b)) k name

/-- Searching block by block, when matches of `v` are matches of `v'` and there are no
others before them. -/
theorem findSlot_congr (hptr : ∀ b, b < 12 → (v.ino d).ptr b ≠ 0 → (v'.ino d).ptr b ≠ 0)
    (hmatch : ∀ b k, b < 12 → k < 16 → (v.ino d).ptr b ≠ 0 →
      v'.matchesAt d b k name = v.matchesAt d b k name)
    (count : Nat) : ∀ b bk, b + count ≤ 12 → v.findSlot d name count b = some bk →
    v'.findSlot d name count b = some bk := by
  induction count with
  | zero => exact fun _ _ _ h => h
  | succ count ih =>
    intro b bk hb h
    rw [findSlot] at h ⊢
    by_cases h0 : (v.ino d).ptr b = 0
    · rw [if_pos h0] at h
      cases h
    · rw [if_neg h0] at h
      rw [if_neg (hptr b (by omega) h0)]
      have hfind : (List.range 16).find? (fun k => v'.matchesAt d b k name) =
          (List.range 16).find? fun k => v.matchesAt d b k name :=
        List.find?_congr fun k hk => hmatch b k (by omega) (List.mem_range.mp hk) h0
      simp only [matchesAt, entMatch] at hfind
      simp only [ent] at h ⊢
      rw [hfind]
      split at h
      · exact h
      · exact ih (b + 1) bk (by omega) h

theorem findSlot_name {count b b' k : Nat} (h : v.findSlot d name count b = some (b', k)) :
    strEq (entName (v.blk ((v.ino d).ptr b')) k) name = true := by
  induction count generalizing b with
  | zero => cases h
  | succ count ih =>
    rw [findSlot] at h
    split at h
    · cases h
    · split at h
      · next k' hfind =>
          cases h
          have hmatch := List.find?_some hfind
          rw [Bool.and_eq_true] at hmatch
          exact hmatch.2
      · exact ih h

/-- A search that finds nothing has looked at every slot up to the first missing block. -/
theorem findSlot_none (count : Nat) : ∀ b, v.findSlot d name count b = none →
    ∀ b' k, b ≤ b' → b' < b + count → (∀ c, b ≤ c → c ≤ b' → (v.ino d).ptr c ≠ 0) → k < 16 →
      v.matchesAt d b' k name = false := by
  induction count with
  | zero =>
    intro b _ b' k h1 h2
    omega
  | succ count ih =>
    intro b h b' k h1 h2 hptr hk
    rw [findSlot, if_neg (hptr b (Nat.le_refl _) h1)] at h
    split at h
    · cases h
    · rename_i hnone
      by_cases hb : b' = b
      · subst hb
        have := List.find?_eq_none.mp hnone k (List.mem_range.mpr hk)
        simpa [matchesAt, entMatch, ent] using this
      · exact ih (b + 1) h b' k (by omega) (by omega)
          (fun c hc1 hc2 => hptr c (by omega) hc2) hk

end Img

/-! ### Runs -/

namespace Rep

variable {L : Layout} {s : Cos} {v : Img}

theorem named_img (h : Rep L s v) (hv : Img.Inv L v) (hn : v.Named L) : s.img.Named L := by
  intro d b k hs hent
  have hino : s.img.ino d = v.ino d := h.ino d hs.dir.lt
  have hs' : Img.Slot L v d b k := hs.congr (h.used d hs.dir.lt).symm hino.symm
  obtain ⟨h1, h2⟩ := Img.dir_range hv.blocks hs'.dir hs'.block hs'.ptr
  have hblk : s.img.blk ((s.img.ino d).ptr b) = v.blk ((v.ino d).ptr b) := by
    rw [hino]
    exact h.blk _ h1 h2
  rw [Img.ent, hblk] at hent
  rw [Img.term, hblk]
  exact hn d b k hs' hent

/-- What one call keeps. -/
theorem named_apply (h : Rep L s v) (hv : Img.Inv L v) (hn : v.Named L) {op : Op}
    (hok : s.Allowed op) : (s.apply op).img.Named L := by
  obtain ⟨v', h', he⟩ := h.effect_apply hv hok
  refine h'.named_img (he.inv hv) ?_
  cases he with
  | cwd c => exact hn.cwd c
  | create hd hf hz hc => exact hc.named (hn.cwd _) (hv.cwd _) hd hf hz
  | write ht hw hend => exact hw.edit.named hn ht
  | delete hc => exact hc.named hn hv

end Rep

namespace Cos

/-- The root directory of a new drive is empty. -/
theorem named_rootImg (s0 : Cos) {L : Layout} (hroom : L.sb.dataStart < L.sb.totalBlocks) :
    (Rep.rootImg s0 L).Named L := by
  have hf := Rep.filled_rootImg s0 hroom
  intro d b k hs hent
  obtain rfl : d = 0 := by
    have := hs.dir.used
    rw [hf.used, decide_eq_true_eq, List.length_nil] at this
    omega
  obtain rfl : b = 0 := by
    by_contra hne
    have := hs.block
    exact hs.ptr ((hf.ptr b (by omega)).trans (if_neg hne))
  rw [Img.ent, hf.ptr 0 (by omega), if_pos rfl, hf.ent k hs.slot] at hent
  exact absurd rfl hent

/-- Names end within their fields in every state of a run. -/
theorem Run.named {s0 s : Cos} (h : Run s0 s) (hsize : 6 ≤ s0.driveSectors) :
    s.img.Named s0.layout := by
  induction h with
  | refl =>
    obtain ⟨v, hrep, hv, hn⟩ := Rep.qformatFs_ind s0 hsize
      (named_rootImg s0 (s0.room_iff.mpr hsize))
      fun hv hn hc => hc.named hn hv hv.root (Inode.fresh_blank 2) fun _ => rfl
    exact hrep.named_img hv hn
  | tail hrun hstep ih =>
    obtain ⟨hrep, hv⟩ := (Run.sound hrun hsize).img
    obtain ⟨op, hok, rfl⟩ := hstep
    exact hrep.named_apply hv ih hok

end Cos

end Crusadia
