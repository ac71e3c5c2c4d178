import Crusadia.Cos.Map

/-!
# Crusadia.Cos.Frame

**What changing one inode leaves alone.** `Img.Frame L i v v'` says that going from image
`v` to `v'` touched inode `i` and the blocks of its trees only: every other inode, and
every block of every other inode, is what it was. `Img.Edit` adds that `i` stays in use.
Linking blocks for `i`, writing a data block of `i` and storing its size are such changes,
and they compose. Reading a file (`Img.fileByte`) or a directory depends on nothing else,
so it cannot see them.
-/

namespace Crusadia

namespace Img

variable {L : Layout} {v v' v'' : Img} {x : Nat × Nat} {path : List Nat} {i : Nat} {r l l' : Nat}
  {p : List Nat}

/-! ### Links seen from other places -/

/-- Only the rows strictly inside the path are written. -/
theorem Grow.blk_place (h : Grow L x path v v') (hb' : Blocks L v') (hx : PtrPlace x path)
    {y : Nat × Nat} {q : List Nat} (hq : PtrPlace y q) (h0 : v.ptr L y q ≠ 0)
    (hne : y = x → q <+: path → q = path) : v'.blk (v.ptr L y q) = v.blk (v.ptr L y q) := by
  refine h.blk _ h0 fun p hp hpne heq => ?_
  have hpx : PtrPlace x p := by
    obtain ⟨t, rfl⟩ := hp
    exact hx.left
  rw [← h.ptr_of_ne_zero hq h0] at heq h0
  obtain ⟨rfl, rfl⟩ := hb'.owned y q x p hq hpx h0 heq.symm
  exact hpne (hne rfl hp)

/-- Paths of logical blocks are comparable only if they are equal. -/
theorem path_eq_of_init {p' : List Nat} (h : Cos.blockPath l = some (r, p))
    (h' : Cos.blockPath l' = some (r, p')) (hp : p' <+: p) : l' = l := by
  have hlen := (blockPath_place h).2.1
  have hlen' := (blockPath_place h').2.1
  have : p' = p := hp.eq_of_length (by rw [hlen, hlen'])
  subst this
  refine blockPath_injective (h'.trans h.symm) ?_
  by_contra hge
  rw [blockPath_eq_none.mpr (by omega)] at h'
  cases h'

/-- Linking the path of logical block `l` maps no other logical block. -/
theorem Grow.dataBlock_ne (h : Grow L (i, r) path v v') (hp : Cos.blockPath l = some (r, path))
    (hne : l' ≠ l) :
    v'.dataBlock L i l' = v.dataBlock L i l' := by
  rw [dataBlock, dataBlock]
  cases hp' : Cos.blockPath l' with
  | none => rfl
  | some rp =>
    obtain ⟨r', p'⟩ := rp
    rcases h.ptr (i, r') p' (ptrPlace_of_path hp') with heq | ⟨hy, hpre, -⟩
    · exact heq
    · cases hy
      exact absurd (path_eq_of_init hp hp' hpre) hne

theorem dataBlock_eq (hp : Cos.blockPath l = some (r, path)) :
    v.dataBlock L i l = v.ptr L (i, r) path := by
  rw [dataBlock, hp]

theorem dataBlock_congr (h : ∀ r p, PtrPlace (i, r) p → v'.ptr L (i, r) p = v.ptr L (i, r) p)
    (l : Nat) : v'.dataBlock L i l = v.dataBlock L i l := by
  rw [dataBlock, dataBlock]
  cases hp : Cos.blockPath l with
  | none => rfl
  | some rp => exact h _ _ (ptrPlace_of_path hp)

/-- A mapped logical block has a place. -/
theorem exists_path (h : v.dataBlock L i l ≠ 0) : ∃ r p, Cos.blockPath l = some (r, p) ∧
    PtrPlace (i, r) p ∧ p.length = ptrDepth (i, r) ∧ v.dataBlock L i l = v.ptr L (i, r) p := by
  rw [dataBlock] at h
  cases hp : Cos.blockPath l with
  | none =>
    rw [hp] at h
    exact absurd rfl h
  | some rp =>
    obtain ⟨r, p⟩ := rp
    exact ⟨r, p, rfl, ptrPlace_of_path hp, (blockPath_place hp).2.1, dataBlock_eq hp⟩

theorem Grow.dataBlock_of_ne_zero (h : Grow L (i, r) path v v')
    (h0 : v.dataBlock L i l ≠ 0) : v'.dataBlock L i l = v.dataBlock L i l := by
  obtain ⟨r', p', hp', hx', -, heq⟩ := exists_path h0
  rw [heq] at h0 ⊢
  rw [dataBlock_eq hp', h.ptr_of_ne_zero hx' h0]

/-- Links leave the contents of mapped data blocks alone. -/
theorem Grow.dataBlock_blk (h : Grow L (i, r) path v v') (hb' : Blocks L v')
    (hp : Cos.blockPath l = some (r, path)) (h0 : v.dataBlock L i l' ≠ 0) :
    v'.blk (v.dataBlock L i l') = v.blk (v.dataBlock L i l') := by
  obtain ⟨r', p', hp', hx', hlen', heq⟩ := exists_path h0
  rw [heq] at h0 ⊢
  refine h.blk_place hb' (ptrPlace_of_path hp) hx' h0 fun hy hpre => ?_
  cases hy
  exact hpre.eq_of_length (hlen'.trans (blockPath_place hp).2.1.symm)

/-! ### Writing a leaf -/

section

variable (hb : Blocks L v) (hp : PtrPlace x p) (hlen : p.length = ptrDepth x) (h0 : v.ptr L x p ≠ 0)
  (sec : Sector)
include hb hp hlen h0

/-- The row of a leaf is no part of any tree. -/
theorem ptr_setBlk_leaf {y : Nat × Nat} {q : List Nat} (hq : PtrPlace y q) :
    (v.setBlk (v.ptr L x p) sec).ptr L y q = v.ptr L y q := by
  have hmem : ∀ q' k, PtrPlace y (q' ++ [k]) → (v.forest L).ptr y q' ≠ 0 →
      ((v.setBlk (v.ptr L x p) sec).forest L).mem ((v.forest L).ptr y q') k =
        (v.forest L).mem ((v.forest L).ptr y q') k := by
    intro q' k hq' hne
    show Buf.get32 ((v.setBlk (v.ptr L x p) sec).blk _) _ = Buf.get32 (v.blk _) _
    rw [blk_setBlk, if_neg]
    intro heq
    obtain ⟨rfl, rfl⟩ := hb.owned y q' x p hq'.left hp hne heq
    have := hq'.lt_of_snoc.1
    omega
  have hroot : ((v.setBlk (v.ptr L x p) sec).forest L).root y = (v.forest L).root y := rfl
  exact Forest.ptr_congr hroot hmem q hq

theorem Blocks.setBlk_leaf : Blocks L (v.setBlk (v.ptr L x p) sec) where
  owned := by
    intro y q z r hq hr hne heq
    have hy := ptr_setBlk_leaf hb hp hlen h0 sec hq
    have hz := ptr_setBlk_leaf hb hp hlen h0 sec hr
    rw [ptr] at hy hz
    rw [hy] at hne heq
    rw [hz] at heq
    exact hb.owned y q z r hq hr hne heq
  live := by
    intro y q hq
    rw [ptr_setBlk_leaf hb hp hlen h0 sec hq]
    exact hb.live y q hq

end

/-! ### The frame of one inode -/

/-- Only inode `i` and the blocks of its trees changed. -/
structure Frame (L : Layout) (i : Nat) (v v' : Img) : Prop where
  cwd : v'.cwd = v.cwd
  used_ne : ∀ j, j ≠ i → v'.used j = v.used j
  ino : ∀ j, j ≠ i → v'.ino j = v.ino j
  ptr : ∀ y q, PtrPlace y q → y.1 ≠ i → v'.ptr L y q = v.ptr L y q
  blk : ∀ y q, PtrPlace y q → y.1 ≠ i → v.ptr L y q ≠ 0 →
    v'.blk (v.ptr L y q) = v.blk (v.ptr L y q)

/-- Moreover inode `i` is still in use, and of the same type. -/
structure Edit (L : Layout) (i : Nat) (v v' : Img) : Prop extends Frame L i v v' where
  used : v'.used = v.used
  raw : ∀ k, 64 ≤ k → (v'.ino i).raw.get k = (v.ino i).raw.get k

theorem Frame.trans (h1 : Frame L i v v') (h2 : Frame L i v' v'') : Frame L i v v'' where
  cwd := h2.cwd.trans h1.cwd
  used_ne := fun j hj => (h2.used_ne j hj).trans (h1.used_ne j hj)
  ino := fun j hj => (h2.ino j hj).trans (h1.ino j hj)
  ptr := fun y q hq hy => (h2.ptr y q hq hy).trans (h1.ptr y q hq hy)
  blk := by
    intro y q hq hy h0
    have heq := h1.ptr y q hq hy
    have := h2.blk y q hq hy (by rw [heq]; exact h0)
    rw [heq] at this
    exact this.trans (h1.blk y q hq hy h0)

theorem Edit.refl (L : Layout) (i : Nat) (v : Img) : Edit L i v v where
  cwd := rfl
  used_ne := fun _ _ => rfl
  ino := fun _ _ => rfl
  ptr := fun _ _ _ _ => rfl
  blk := fun _ _ _ _ _ => rfl
  used := rfl
  raw := fun _ _ => rfl

theorem Edit.trans (h1 : Edit L i v v') (h2 : Edit L i v' v'') : Edit L i v v'' where
  toFrame := h1.toFrame.trans h2.toFrame
  used := h2.used.trans h1.used
  raw := fun k hk => (h2.raw k hk).trans (h1.raw k hk)

theorem Grow.edit (h : Grow L x path v v') (hb' : Blocks L v') (hx : PtrPlace x path) :
    Edit L x.1 v v' where
  cwd := h.cwd
  used_ne := fun j _ => congrFun h.used j
  ino := h.ino_other
  ptr := by
    intro y q hq hy
    rcases h.ptr y q hq with heq | ⟨rfl, -⟩
    · exact heq
    · exact absurd rfl hy
  blk := by
    intro y q hq hy h0
    exact h.blk_place hb' hx hq h0 fun he => absurd (by rw [he]) hy
  used := h.used
  raw := fun k hk => h.ino_raw k (Or.inr hk)

theorem edit_setBlk (hb : Blocks L v) (hp : PtrPlace x p) (hlen : p.length = ptrDepth x)
    (h0 : v.ptr L x p ≠ 0) (sec : Sector) :
    Edit L x.1 v (v.setBlk (v.ptr L x p) sec) where
  cwd := rfl
  used_ne := fun _ _ => rfl
  ino := fun _ _ => rfl
  ptr := fun y q hq _ => ptr_setBlk_leaf hb hp hlen h0 sec hq
  blk := by
    intro y q hq hy hne
    rw [blk_setBlk, if_neg]
    intro heq
    obtain ⟨rfl, -⟩ := hb.owned y q x p hq hp hne heq
    exact hy rfl
  used := rfl
  raw := fun _ _ => rfl

/-- Storing an inode with the same block pointers changes no tree. -/
theorem forest_setIno {n : Inode} (hn : ∀ r, r < 15 → n.ptr r = (v.ino i).ptr r) :
    (v.setIno i n).forest L = v.forest L := by
  have hroot : ((v.setIno i n).forest L).root = (v.forest L).root := by
    funext y
    simp only [forest, ino_setIno]
    show (if y.1 < L.sb.inodeCount ∧ v.used y.1 = true ∧ y.2 < 15 then _ else _) = _
    split
    · rename_i hc
      split
      · rename_i hy
        rw [hn _ hc.2.2, hy]
      · rfl
    · rfl
  rw [← show Forest.mk ((v.setIno i n).forest L).root _ = (v.setIno i n).forest L from rfl, hroot]
  rfl

theorem Blocks.setIno {n : Inode} (hb : Blocks L v)
    (hn : ∀ r, r < 15 → n.ptr r = (v.ino i).ptr r) : Blocks L (v.setIno i n) where
  owned := by
    rw [forest_setIno hn]
    exact hb.owned
  live := by
    intro y q
    rw [ptr, forest_setIno hn]
    exact hb.live y q

theorem edit_setIno {n : Inode} (hn : ∀ r, r < 15 → n.ptr r = (v.ino i).ptr r)
    (hraw : ∀ k, 64 ≤ k → n.raw.get k = (v.ino i).raw.get k) : Edit L i v (v.setIno i n) where
  cwd := rfl
  used_ne := fun _ _ => rfl
  ino := fun j hj => by rw [ino_setIno, if_neg hj]
  ptr := fun y q _ _ => by rw [ptr, forest_setIno hn, ptr]
  blk := fun _ _ _ _ _ => rfl
  used := rfl
  raw := fun k hk => by rw [ino_setIno, if_pos rfl, hraw k hk]

end Img

end Crusadia
