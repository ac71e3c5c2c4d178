import Crusadia.Cos.Dir

/-!
# Crusadia.Cos.Create

`fs_create_file` and `fs_create_dir`.

Both take a free inode and a free block, store the new inode with that block as
`direct[0]`, and add an entry to the parent; a directory's block is zeroed, a file's is
not. If there is no block the inode is given back. The status of `dir_add` is ignored, so
creation reports success whether or not the entry was stored: `Img.Create` keeps it as
part of the outcome.
-/

namespace Crusadia

namespace Inode

/-- An inode without blocks and of size 0. -/
structure Fresh (n : Inode) : Prop where
  ptr : ∀ r, r < 15 → n.ptr r = 0
  size : n.size = 0

/-- A fresh inode that is given its first block has no other. -/
theorem Fresh.ptr_setPtr {n : Inode} (h : Fresh n) {r b : Nat} (hr : r < 15) (hb : b < 2 ^ 32) :
    (n.setPtr 0 b).ptr r = if r = 0 then b else 0 := by
  split
  · rename_i h0
    rw [h0, ptr_setPtr_same (by omega), Nat.mod_eq_of_lt hb]
  · rename_i h0
    rw [ptr_setPtr_ne h0, h.ptr r hr]

theorem fresh_blank (t : Byte) : Fresh (blank t) := by
  have hget : ∀ k, k < 64 → (blank t).raw.get k = 0 := by
    intro k hk
    rw [blank, Buf.get_put8, if_neg (by omega), Buf.get_zero]
  have hword : ∀ off, off + 4 ≤ 64 → (blank t).raw.get32 off = 0 := by
    intro off hoff
    rw [← Buf.get32_zero (n := 128) off]
    exact Buf.get32_congr fun k hk => by rw [hget _ (by omega), Buf.get_zero]
  exact ⟨fun r hr => hword _ (by omega), hword 0 (by omega)⟩

theorem Fresh.setMainTag {n : Inode} (h : Fresh n) (tag : CStr) : Fresh (n.setMainTag tag) where
  ptr := fun r hr => (Buf.get32_splice_out (by omega)).trans (h.ptr r hr)
  size := (Buf.get32_splice_out (by omega)).trans h.size

theorem Fresh.setTag0 {n : Inode} (h : Fresh n) (tag : CStr) : Fresh (n.setTag0 tag) where
  ptr := fun r hr => (Buf.get32_splice_out (by omega)).trans (h.ptr r hr)
  size := (Buf.get32_splice_out (by omega)).trans h.size

end Inode

namespace Img

/-- Inode `idx` comes into use with block `nb` as its first block. -/
def born (v : Img) (idx nb : Nat) (node : Inode) (zeroed : Bool) : Img :=
  let v := ((v.setUsed idx true).setBit nb true).setIno idx (node.setPtr 0 nb)
  if zeroed then v.setBlk nb Buf.zero else v

section born

variable {L : Layout} {v : Img} {idx nb : Nat} {node : Inode} {zeroed : Bool}

theorem born_used (j : Nat) :
    (v.born idx nb node zeroed).used j = if j = idx then true else v.used j := by
  cases zeroed <;> exact used_setUsed _ _ _ _

theorem born_ino (j : Nat) :
    (v.born idx nb node zeroed).ino j = if j = idx then node.setPtr 0 nb else v.ino j := by
  cases zeroed <;> exact ino_setIno _ _ _ _

theorem born_type : ((v.born idx nb node zeroed).ino idx).type = node.type := by
  rw [born_ino, if_pos rfl]
  exact Inode.raw_setPtr (by omega) (by omega)

theorem born_bit (c : Nat) :
    (v.born idx nb node zeroed).bit c = if c = nb then true else v.bit c := by
  cases zeroed <;> exact bit_setBit _ _ _ _

theorem born_cwd : (v.born idx nb node zeroed).cwd = v.cwd := by
  cases zeroed <;> rfl

theorem born_boot : (v.born idx nb node zeroed).boot = v.boot := by
  cases zeroed <;> rfl

theorem born_blk {c : Nat} (hc : c ≠ nb) : (v.born idx nb node zeroed).blk c = v.blk c := by
  cases zeroed with
  | false => rfl
  | true => exact (blk_setBlk _ _ _ _).trans (if_neg hc)

theorem born_blk_self : (v.born idx nb node true).blk nb = Buf.zero :=
  (blk_setBlk _ _ _ _).trans (if_pos rfl)

section

variable (hb : Blocks L v) (hidx : idx < L.sb.inodeCount) (hu : v.used idx = false)
  (hff : v.firstFree L = some nb) (hn : node.Fresh)
include hb hidx hu hff hn

/-- A new inode adds one place to the forest. -/
theorem born_linked :
    Forest.Linked ptrDepth ptrsPerBlock (v.forest L) ((v.born idx nb node zeroed).forest L)
      (idx, 0) [] nb := by
  obtain ⟨-, hfree, hnb0, h32⟩ := firstFree_facts hff
  refine
    { place := Forest.place_nil _
      empty := by simp [forest, hu]
      parent := fun q k h => absurd h (by simp)
      ne_zero := hnb0
      fresh := fun y p hp => hb.fresh hfree y p hp hnb0
      root_self := fun _ => ?_
      root_other := ?_
      mem_self := fun q k h => absurd h (by simp)
      mem_other := fun c k hc _ => congrArg (Buf.get32 · _) (born_blk hc)
      mem_new := fun h => absurd h (by simp [ptrDepth]) }
  · rw [forest_root hidx (by rw [born_used, if_pos rfl]) (by omega), born_ino, if_pos rfl,
      Inode.ptr_setPtr_same (by omega), h32]
  · rintro ⟨j, r⟩ hne
    simp only [forest, born_used, born_ino]
    by_cases hj : j = idx
    · subst hj
      have hr : r ≠ 0 := fun h => hne ⟨by rw [h], rfl⟩
      simp only [if_true, hu, Bool.false_eq_true, false_and, and_false, if_false, true_and]
      split
      · rename_i hc
        rw [Inode.ptr_setPtr_ne hr, hn.ptr r hc.2]
      · rfl
    · simp only [if_neg hj]

theorem born_blocks : Blocks L (v.born idx nb node zeroed) where
  owned := (born_linked hb hidx hu hff hn).owned hb.owned
  live := by
    intro y q hq h0
    have hlinked : Forest.Linked ptrDepth ptrsPerBlock (v.forest L)
        ((v.born idx nb node zeroed).forest L) (idx, 0) [] nb := born_linked hb hidx hu hff hn
    obtain ⟨hself, hother⟩ := hlinked.ptr_eq hb.owned q y hq
    rw [born_bit]
    by_cases hy : y = (idx, 0) ∧ q = []
    · rw [show ptr L _ y q = nb from hself hy]
      exact ⟨(firstFree_facts hff).1, if_pos rfl⟩
    · rw [show ptr L _ y q = v.ptr L y q from hother hy] at h0 ⊢
      obtain ⟨hr, hbit⟩ := hb.live y q hq h0
      exact ⟨hr, by split <;> simp [hbit]⟩

/-- A new inode is invisible to the others. -/
theorem born_frame : Frame L idx v (v.born idx nb node zeroed) where
  cwd := born_cwd
  used_ne := fun j hj => by rw [born_used, if_neg hj]
  ino := fun j hj => by rw [born_ino, if_neg hj]
  ptr := by
    intro y q hq hy
    refine ((born_linked hb hidx hu hff hn).ptr_eq hb.owned q y hq).2 ?_
    rintro ⟨rfl, -⟩
    exact hy rfl
  blk := by
    intro y q hq _ _
    obtain ⟨-, hfree, hnb0, -⟩ := firstFree_facts hff
    exact born_blk (hb.fresh hfree y q hq hnb0)

/-- A slot after the birth of `idx` is an old one, or a free slot of the new inode. -/
theorem born_slot (hz : node.type = 2 → zeroed = true)
    {d b k : Nat} (hs : Slot L (v.born idx nb node zeroed) d b k) :
    (d ≠ idx ∧ Slot L v d b k ∧ (v.born idx nb node zeroed).ent d b k = v.ent d b k) ∨
      (d = idx ∧ b = 0 ∧ (v.born idx nb node zeroed).ent d b k = 0) := by
  have hf : Frame L idx v (v.born idx nb node zeroed) := born_frame hb hidx hu hff hn
  obtain ⟨-, -, hnb0, h32⟩ := firstFree_facts hff
  by_cases hd : d = idx
  · subst hd
    have hino : (v.born d nb node zeroed).ino d = node.setPtr 0 nb := by rw [born_ino, if_pos rfl]
    have hb0 : b = 0 := by
      by_contra hne
      refine hs.ptr ?_
      rw [hino, Inode.ptr_setPtr_ne hne, hn.ptr b (by have := hs.block; omega)]
    have htype : node.type = 2 := by
      rw [← hs.dir.type, born_type]
    obtain rfl := hz htype
    refine Or.inr ⟨rfl, hb0, ?_⟩
    rw [ent, hino, hb0, Inode.ptr_setPtr_same (by omega), h32, born_blk_self, entInode_zero]
  · exact Or.inl ⟨hd, hf.entry hd hs⟩

end

section

variable (h : Inv L v) (hidx : idx < L.sb.inodeCount) (hu : v.used idx = false)
  (hff : v.firstFree L = some nb) (hn : node.Fresh) (hz : node.type = 2 → zeroed = true)
include h hidx hu hff hn hz

theorem born_inv : Inv L (v.born idx nb node zeroed) := by
  have hf : Frame L idx v (v.born idx nb node zeroed) := born_frame h.blocks hidx hu hff hn
  have h0 := h.root.ne hu
  have hused : ∀ j, v.used j = true → (v.born idx nb node zeroed).used j = true := by
    intro j hj
    rw [born_used]
    split <;> simp [hj]
  refine h.of_old (born_blocks h.blocks hidx hu hff hn) ((hf.isDir h0).mpr h.root) (fun d hd => ?_)
    (fun d b k hs hne => ?_) fun _ _ _ _ _ _ hj => hused _ hj
  · by_cases hdx : d = idx
    · subst hdx
      obtain ⟨-, -, hnb0, h32⟩ := firstFree_facts hff
      have hptr : ∀ r, r < 15 → ((v.born d nb node zeroed).ino d).ptr r =
          if r = 0 then nb else 0 := by
        intro r hr
        rw [born_ino, if_pos rfl, hn.ptr_setPtr hr (by omega)]
      refine .inr ⟨?_, fun b hb hne => absurd ?_ hne⟩
      · rw [hptr 0 (by omega), if_pos rfl]
        exact hnb0
      · rw [hptr _ (by omega), if_neg (by omega)]
    · exact .inl ⟨(hf.isDir hdx).mp hd, hf.ino d hdx⟩
  · rcases born_slot h.blocks hidx hu hff hn hz hs with ⟨-, hold⟩ | ⟨-, -, hent⟩
    · exact hold
    · exact absurd hent hne

/-- No entry names the new inode yet. -/
theorem born_unnamed : ∀ d b k, Slot L (v.born idx nb node zeroed) d b k →
      (v.born idx nb node zeroed).ent d b k ≠ idx := by
  intro d b k hs heq
  have h0 := (h.root.ne hu).symm
  rcases born_slot h.blocks hidx hu hff hn hz hs with ⟨-, hs', hent⟩ | ⟨-, -, hent⟩
  · rw [hent] at heq
    have := (h.live d b k hs' (heq ▸ h0)).2
    rw [heq, hu] at this
    cases this
  · exact h0 (heq.symm.trans hent)

end

end born

end Img

namespace Img

/-- The outcomes of a creation in directory `d`: the image afterwards and the new inode. -/
inductive Create (L : Layout) (v : Img) (d : Nat) (name : CStr) (node : Inode) (zeroed : Bool) :
    Img → Option Nat → Prop
  /-- The name is taken, or there is no inode or no block for it. -/
  | refused (why : v.findSlot d name 12 0 ≠ none ∨ (∀ i, i < L.sb.inodeCount → v.used i = true) ∨
      v.firstFree L = none) : Create L v d name node zeroed v none
  /-- The inode is made; `rc` is what `dir_add` returned. -/
  | made (idx nb : Nat) (v' : Img) (rc : Int) (hnew : v.findSlot d name 12 0 = none)
      (hidx : idx < L.sb.inodeCount) (hu : v.used idx = false)
      (hfirst : ∀ j, j < idx → v.used j = true) (hff : v.firstFree L = some nb)
      (hadd : DirAdd L (v.born idx nb node zeroed) d name idx v' rc) :
      Create L v d name node zeroed v' (some idx)

variable {L : Layout} {v v' : Img} {d : Nat} {name : CStr} {node : Inode} {zeroed : Bool}
  {res : Option Nat}

theorem setUsed_restore {i : Nat} (h : v.used i = false) :
    (v.setUsed i true).setUsed i false = v := by
  have : Function.update v.used i false = v.used := by
    rw [← h]
    exact Function.update_eq_self _ _
  simp [setUsed, this]

theorem IsDir.born {idx nb : Nat} (hd : IsDir L v d) (hu : v.used idx = false) :
    IsDir L (v.born idx nb node zeroed) d :=
  hd.congr ((born_used d).trans (if_neg (hd.ne hu))) ((born_ino d).trans (if_neg (hd.ne hu)))

theorem Create.inv (hc : Create L v d name node zeroed v' res) (h : Inv L v) (hd : IsDir L v d)
    (hn : node.Fresh) (hz : node.type = 2 → zeroed = true) : Inv L v' := by
  cases hc with
  | refused why => exact h
  | made idx nb _ rc hnew hidx hu hfirst hff hadd =>
    have hb := born_inv h hidx hu hff hn hz
    rcases hadd.added hb (hd.born hu) with ⟨-, ha⟩ | ⟨-, rfl⟩
    · exact ha.inv hb ⟨hidx, by rw [born_used, if_pos rfl]⟩
        (born_unnamed h hidx hu hff hn hz)
    · exact hb

end Img

namespace Rep

variable {L : Layout} {s : Cos} {v : Img} {d : Nat}

/-- The inode `fs_create_file` starts from. -/
def fileNode (tag : CStr) : Inode := ((Inode.blank 1).setMainTag tag).setTag0 Cos.normalTag

theorem fresh_fileNode (tag : CStr) : (fileNode tag).Fresh :=
  ((Inode.fresh_blank 1).setMainTag tag).setTag0 _

theorem fileNode_type (tag : CStr) : (fileNode tag).type = 1 := by
  rw [fileNode, Inode.type, Inode.setTag0, Inode.setMainTag, Buf.get_splice_out (by omega),
    Buf.get_splice_out (by omega), Inode.blank, Buf.get_put8, if_pos ⟨rfl, by omega⟩]

theorem fileNode_not_dir (tag : CStr) : (fileNode tag).type = 2 → false = true := fun ht =>
  absurd (ht.symm.trans (fileNode_type tag)) (by decide)

theorem blank_type (t : Byte) : (Inode.blank t).type = t := by
  rw [Inode.type, Inode.blank, Buf.get_put8, if_pos ⟨rfl, by omega⟩]

theorem isSome_dirLookup (h : Rep L s v) (hv : Img.Inv L v) (hd : Img.IsDir L v d) (name : CStr) :
    (s.dirLookup (v.ino d) name).isSome ↔ v.findSlot d name 12 0 ≠ none := by
  rw [h.dirLookup_eq hv hd, Option.isSome_map, Option.isSome_iff_ne_none]

/-- What there is for a new inode: an inode number and a block for it, or a number that has to be
given back, or none. -/
inductive Birth (L : Layout) (s : Cos) (v : Img) : Prop
  | full (hres : s.allocInode = (none, s)) (hall : ∀ i, i < L.sb.inodeCount → v.used i = true)
  | bare (i : Nat) (s₁ : Cos) (hres : s.allocInode = (some i, s₁)) (hblk : s₁.allocBlock.1 = 0)
      (hff : v.firstFree L = none) (hrep : Rep L (s₁.allocBlock.2.freeInode i) v)
  | made (i nb : Nat) (s₁ : Cos) (hres : s.allocInode = (some i, s₁)) (hblk : s₁.allocBlock.1 = nb)
      (hnb : nb ≠ 0) (hi : i < L.sb.inodeCount) (hu : v.used i = false)
      (hfirst : ∀ j, j < i → v.used j = true) (hff : v.firstFree L = some nb)
      (hrep : ∀ node : Inode, Rep L (s₁.allocBlock.2.writeInode i (node.setPtr 0 nb))
        (v.born i nb node false))

theorem birth (h : Rep L s v) : Birth L s v := by
  rcases h.allocInode with ⟨i, hi, hu, hfirst, hres, hrep⟩ | ⟨hall, hres⟩
  · have hpair : s.allocInode = (some i, s.allocInode.2) := by rw [← hres]
    have hfst := hrep.allocBlock_fst
    cases hff : v.firstFree L with
    | none =>
      have hff' : (v.setUsed i true).firstFree L = none := hff
      have hal := hrep.allocBlock.2
      rw [Img.alloc, hff'] at hal
      refine .bare i _ hpair (by rw [hfst, hff', Option.getD_none]) hff ?_
      exact Img.setUsed_restore hu ▸ hal.freeInode hi
    | some nb =>
      have hff' : (v.setUsed i true).firstFree L = some nb := hff
      obtain ⟨-, -, hnb, -⟩ := Img.firstFree_facts hff
      refine .made i nb _ hpair (by rw [hfst, hff', Option.getD_some]) hnb hi hu hfirst hff ?_
      exact fun node => (hrep.take hff' false).writeInode (node.setPtr 0 nb) hi
  · exact .full hres hall

/-- The first block of a directory is zeroed. -/
theorem zeroBorn {i nb : Nat} {node : Inode} (h : Rep L s (v.born i nb node false))
    (hff : v.firstFree L = some nb) : Rep L (s.blockWrite nb Buf.zero) (v.born i nb node true) :=
  h.writeBlk Buf.zero (Img.firstFree_facts hff).1.1 (Img.firstFree_facts hff).1.2

/-- The last step of a creation, once the new inode is stored. -/
theorem dirAdd_born {s' : Cos} {i nb : Nat} {name : CStr} {node : Inode} {zeroed : Bool}
    (hv : Img.Inv L v) (hd : Img.IsDir L v d) (hnew : v.findSlot d name 12 0 = none)
    (hi : i < L.sb.inodeCount) (hu : v.used i = false) (hfirst : ∀ j, j < i → v.used j = true)
    (hff : v.firstFree L = some nb) (hn : node.Fresh) (hz : node.type = 2 → zeroed = true)
    (hrep : Rep L s' (v.born i nb node zeroed)) :
    ∃ v', Rep L (s'.dirAdd d (s'.readInode d) name i).2 v' ∧
      Img.Create L v d name node zeroed v' (some i) := by
  obtain ⟨v', hadd, hcase⟩ :=
    hrep.dirAdd_spec (Img.born_inv hv hi hu hff hn hz) (hd.born hu) name i
  rw [← hrep.ino d hd.lt] at hadd hcase
  exact ⟨v', hadd, .made i nb v' _ hnew hi hu hfirst hff hcase⟩

/-- `fs_create_dir` in a used directory. -/
theorem fsCreateDir_spec (h : Rep L s v) (hv : Img.Inv L v) (hd : Img.IsDir L v d) (name : CStr) :
    ∃ v', Rep L (s.fsCreateDir name d).2 v' ∧
      Img.Create L v d name (Inode.blank 2) true v' (s.fsCreateDir name d).1 := by
  rw [Cos.fsCreateDir, h.ino d hd.lt]
  by_cases hnew : v.findSlot d name 12 0 = none
  · rw [if_neg (by rw [h.isSome_dirLookup hv hd]; simp [hnew])]
    cases h.birth with
    | full hres hall =>
      rw [hres]
      exact ⟨v, h, .refused (Or.inr (Or.inl hall))⟩
    | bare i s₁ hres hblk hff hrep =>
      simp only [hres, if_pos hblk]
      exact ⟨v, hrep, .refused (Or.inr (Or.inr hff))⟩
    | made i nb s₁ hres hblk hnb hi hu hfirst hff hrep =>
      simp only [hres, hblk, if_neg hnb]
      exact dirAdd_born hv hd hnew hi hu hfirst hff (Inode.fresh_blank 2) (fun _ => rfl)
        ((hrep _).zeroBorn hff)
  · rw [if_pos ((h.isSome_dirLookup hv hd name).mpr hnew)]
    exact ⟨v, h, .refused (Or.inl hnew)⟩

/-- `fs_create_file` in the current directory. -/
theorem fsCreateFile_spec (h : Rep L s v) (hv : Img.Inv L v) (hd : Img.IsDir L v v.cwd)
    (name tag : CStr) (htag : tag.length ≠ 0) :
    ∃ v', Rep L (s.fsCreateFile name tag).2 v' ∧
      Img.Create L v v.cwd name (fileNode tag) false v' (s.fsCreateFile name tag).1 := by
  rw [Cos.fsCreateFile, if_neg htag, h.cwd, h.ino _ hd.lt]
  by_cases hnew : v.findSlot v.cwd name 12 0 = none
  · rw [if_neg (by rw [h.isSome_dirLookup hv hd]; simp [hnew])]
    cases h.birth with
    | full hres hall =>
      rw [hres]
      exact ⟨v, h, .refused (Or.inr (Or.inl hall))⟩
    | bare i s₁ hres hblk hff hrep =>
      simp only [hres, if_pos hblk]
      exact ⟨v, hrep, .refused (Or.inr (Or.inr hff))⟩
    | made i nb s₁ hres hblk hnb hi hu hfirst hff hrep =>
      have hborn := hrep (fileNode tag)
      obtain ⟨v', hadd, hcase⟩ := dirAdd_born hv hd hnew hi hu hfirst hff (fresh_fileNode tag)
        (fileNode_not_dir tag) hborn
      rw [← hborn.cwd.trans Img.born_cwd] at hadd
      simp only [hres, hblk, if_neg hnb]
      exact ⟨v', hadd, hcase⟩
  · rw [if_pos ((h.isSome_dirLookup hv hd name).mpr hnew)]
    exact ⟨v, h, .refused (Or.inl hnew)⟩

end Rep

end Crusadia
