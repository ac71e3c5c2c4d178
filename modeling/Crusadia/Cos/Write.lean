import Crusadia.Cos.Frame

/-!
# Crusadia.Cos.Write

`fs_write`: **what a write stores, what it leaves, and what it costs.**

`Img.Wrote` is the loop's invariant: the first `w` bytes are in place, every block that
was mapped is where it was and keeps its other bytes, and a hole is mapped only if a byte
was stored in it. The cost is counted in empty slots: `neededSet` collects the slots that
the first `k` blocks of the write have to fill, each once, and block `k` is reached just
when there are free blocks for all of them (`Img.Takes`). That settles beforehand how far
a write gets, whether it fails, and whether its failure zeroes sector 0.
-/

namespace Crusadia

namespace Img

/-- Byte `pos` of the data of inode `i`; holes read as 0. -/
def fileByte (L : Layout) (v : Img) (i pos : Nat) : Byte :=
  if v.dataBlock L i (pos / 512) = 0 then 0
  else (v.blk (v.dataBlock L i (pos / 512))).get (pos % 512)

/-! ### Counting empty slots -/

section

variable (L : Layout) (v : Img)

/-- The empty slots on the way to logical block `l` of inode `i`: a block pointer and a
path below it. -/
def missingSet (i l : Nat) : Finset (Nat × List Nat) :=
  match Cos.blockPath l with
  | none => ∅
  | some (r, path) =>
    ((path.inits.filter fun p => v.ptr L (i, r) p = 0).map (Prod.mk r)).toFinset

/-- The empty slots that `k` logical blocks from `l` on have to fill. -/
def neededSet (i l k : Nat) : Finset (Nat × List Nat) :=
  (Finset.range k).biUnion fun j => v.missingSet L i (l + j)

/-- Logical block `l + k` exists, and there are free blocks for everything it and the
`k` blocks before it need. -/
def Takes (i l k : Nat) : Prop :=
  l + k < maxBlocks ∧ (v.neededSet L i l (k + 1)).card ≤ v.free L

/-- The free block that becomes logical block `l` when a write that starts at block `l₀`
maps it: the last one taken for the blocks up to `l`. -/
def leaf (i l₀ l : Nat) : Nat :=
  (v.freeList L).getD ((v.neededSet L i l₀ (l - l₀ + 1)).card - 1) 0

end

variable {L : Layout} {v v' : Img} {i l pos : Nat}

theorem mem_missingSet {y : Nat × List Nat} : y ∈ v.missingSet L i l ↔
    ∃ path, Cos.blockPath l = some (y.1, path) ∧ y.2 <+: path ∧ v.ptr L (i, y.1) y.2 = 0 := by
  rw [missingSet]
  split
  · rename_i hp
    simp [hp]
  · rename_i r path hp
    simp only [List.mem_filter, List.mem_toFinset, List.mem_map, List.mem_inits, hp,
      Option.some.injEq, Prod.mk.injEq, decide_eq_true_eq]
    constructor
    · rintro ⟨p, ⟨hpre, h0⟩, rfl⟩
      exact ⟨path, ⟨rfl, rfl⟩, hpre, h0⟩
    · rintro ⟨path', ⟨rfl, rfl⟩, hpre, h0⟩
      exact ⟨y.2, ⟨hpre, h0⟩, rfl⟩

/-- Counting the empty slots of a path in `inits` order. -/
theorem countP_inits {mem : Nat → Nat → Nat} (ks : List Nat) {b : Nat} (hb : b ≠ 0) :
    ks.inits.countP (fun p => Forest.walk mem b p = 0) = missing mem b ks := by
  induction ks generalizing b with
  | nil => simp [missing, hb]
  | cons k ks ih =>
    rw [List.inits_cons, List.countP_cons, List.countP_map, missing]
    simp only [Forest.walk_nil, hb, decide_false, Bool.false_eq_true, if_false, Nat.add_zero]
    have hcomp : ((fun p => decide (Forest.walk mem b p = 0)) ∘ fun t => k :: t) =
        fun p => decide (Forest.walk mem (mem b k) p = 0) := by
      funext p
      simp [Forest.walk, hb]
    rw [hcomp]
    split
    · rename_i h0
      simp [h0]
    · rename_i h0
      exact ih h0

theorem nodup_inits (p : List Nat) : p.inits.Nodup := by
  induction p with
  | nil => simp
  | cons k p ih =>
    rw [List.inits_cons, List.nodup_cons]
    exact ⟨by simp, ih.map fun _ _ h => (List.cons.inj h).2⟩

theorem missingSet_card (hi : i < L.sb.inodeCount) (hu : v.used i = true) :
    (v.missingSet L i l).card = v.missingBlocks i l := by
  rw [missingSet, missingBlocks]
  cases hp : Cos.blockPath l with
  | none => rfl
  | some rp =>
    obtain ⟨r, path⟩ := rp
    have hnodup : ((path.inits.filter fun p => v.ptr L (i, r) p = 0).map (Prod.mk r)).Nodup :=
      ((nodup_inits path).filter _).map fun _ _ h => (Prod.mk.inj h).2
    have hroot : (v.forest L).root (i, r) = (v.ino i).ptr r :=
      forest_root hi hu (blockPath_place hp).1
    dsimp only
    rw [List.toFinset_card_of_nodup hnodup, List.length_map, ← List.countP_eq_length_filter]
    show path.inits.countP (fun p => Forest.walk (v.forest L).mem ((v.forest L).root (i, r)) p = 0)
      = _
    rw [hroot]
    split
    · rename_i h0
      simp [h0]
    · rename_i h0
      exact countP_inits path h0

/-- A leaf that is there has no empty slot above it. -/
theorem ptr_ne_zero_of_init {x : Nat × Nat} {q p : List Nat} (h : q <+: p)
    (h0 : v.ptr L x p ≠ 0) : v.ptr L x q ≠ 0 := by
  obtain ⟨t, rfl⟩ := h
  exact fun hz => h0 (Forest.ptr_append_of_zero t hz)

/-- Mapping block `l` fills its slots and no others. -/
theorem Grow.missingSet {r : Nat} {path : List Nat} (h : Grow L (i, r) path v v')
    (hp : Cos.blockPath l = some (r, path)) (h0 : v'.dataBlock L i l ≠ 0) (l' : Nat) :
    v'.missingSet L i l' = v.missingSet L i l' \ v.missingSet L i l := by
  rw [dataBlock_eq hp] at h0
  ext ⟨r', q⟩
  rw [Finset.mem_sdiff, mem_missingSet, mem_missingSet, mem_missingSet]
  constructor
  · rintro ⟨path', hp', hpre, hz⟩
    have hq : PtrPlace (i, r') q := by
      obtain ⟨t, rfl⟩ := hpre
      exact (ptrPlace_of_path hp').left
    refine ⟨⟨path', hp', hpre, ?_⟩, ?_⟩
    · by_contra hne
      exact hne ((h.ptr_of_ne_zero hq hne).symm.trans hz)
    · rintro ⟨path'', hp'', hpre'', -⟩
      rw [hp] at hp''
      obtain ⟨rfl, rfl⟩ := Prod.mk.inj (Option.some.inj hp'')
      exact ptr_ne_zero_of_init hpre'' h0 hz
  · rintro ⟨⟨path', hp', hpre, hz⟩, hnot⟩
    have hq : PtrPlace (i, r') q := by
      obtain ⟨t, rfl⟩ := hpre
      exact (ptrPlace_of_path hp').left
    refine ⟨path', hp', hpre, ?_⟩
    rcases h.ptr (i, r') q hq with heq | ⟨hy, hpre', -⟩
    · exact heq.trans hz
    · cases hy
      exact absurd ⟨path, hp, hpre', hz⟩ hnot

theorem neededSet_one_card (hi : i < L.sb.inodeCount) (hu : v.used i = true) :
    (v.neededSet L i l 1).card = v.missingBlocks i l := by
  rw [neededSet, Finset.range_one, Finset.singleton_biUnion, Nat.add_zero, missingSet_card hi hu]

theorem neededSet_succ (L : Layout) (v : Img) (i l k : Nat) :
    v.neededSet L i l (k + 1) = v.neededSet L i l k ∪ v.missingSet L i (l + k) := by
  rw [neededSet, Finset.range_add_one, Finset.biUnion_insert, Finset.union_comm]
  rfl

theorem neededSet_mono {k k' : Nat} (h : k ≤ k') :
    v.neededSet L i l k ⊆ v.neededSet L i l k' :=
  Finset.biUnion_subset_biUnion_of_subset_left _ (Finset.range_mono h)

theorem Takes.mono {k k' : Nat} (h : Takes L v i l k') (hk : k ≤ k') : Takes L v i l k := by
  refine ⟨Nat.lt_of_le_of_lt (by omega) h.1, le_trans (Finset.card_le_card ?_) h.2⟩
  exact neededSet_mono (by omega)

/-! ### One block of a write -/

/-- The first `w` bytes of `data` are stored at `o` in inode `i`, whose size is `sz`, and
nothing else is lost. -/
structure Wrote (L : Layout) (i o : Nat) (data : List Byte) (v₀ : Img) (w sz : Nat) (v : Img) :
    Prop where
  blocks : Blocks L v
  edit : Edit L i v₀ v
  size : (v.ino i).size = sz
  mapped : ∀ l, v₀.dataBlock L i l ≠ 0 → v.dataBlock L i l = v₀.dataBlock L i l
  hole : ∀ l, v₀.dataBlock L i l = 0 → v.dataBlock L i l ≠ 0 →
    ∃ pos, o ≤ pos ∧ pos < o + w ∧ pos / 512 = l
  stored : ∀ pos, o ≤ pos → pos < o + w →
    v.dataBlock L i (pos / 512) ≠ 0 ∧ v.fileByte L i pos = data.getD (pos - o) 0
  kept : ∀ pos, v₀.dataBlock L i (pos / 512) ≠ 0 → ¬ (o ≤ pos ∧ pos < o + w) →
    v.fileByte L i pos = v₀.fileByte L i pos
  stale : ∀ pos, v₀.dataBlock L i (pos / 512) = 0 → v.dataBlock L i (pos / 512) ≠ 0 →
    ¬ (o ≤ pos ∧ pos < o + w) →
    v.fileByte L i pos = (v₀.blk (v₀.leaf L i (o / 512) (pos / 512))).get (pos % 512)

theorem wrote_zero (hb : Blocks L v) (i o : Nat) (data : List Byte) :
    Wrote L i o data v 0 (v.ino i).size v where
  blocks := hb
  edit := Edit.refl L i v
  size := rfl
  mapped := fun _ _ => rfl
  hole := fun _ h h' => absurd h h'
  stored := fun pos h1 h2 => absurd h1 (by omega)
  kept := fun _ _ _ => rfl
  stale := fun _ h h' => absurd h h'

section step

variable {v₀ : Img} {r o w sz c off : Nat} {path : List Nat} {data : List Byte} {buf : Sector}

theorem fileByte_of_ne_zero (h : v.dataBlock L i (pos / 512) ≠ 0) :
    v.fileByte L i pos = (v.blk (v.dataBlock L i (pos / 512))).get (pos % 512) := if_neg h

theorem fileByte_of_zero (h : v.dataBlock L i (pos / 512) = 0) :
    v.fileByte L i pos = 0 := if_pos h

theorem Grow.size (h : Grow L (i, r) path v v') : (v'.ino i).size = (v.ino i).size :=
  Buf.get32_congr fun k hk => h.ino_raw _ (Or.inl (by omega))

/-- Links change no byte of the file. -/
theorem Grow.fileByte (h : Grow L (i, r) path v v') (hb' : Blocks L v')
    (hp : Cos.blockPath l = some (r, path))
    (hne : pos / 512 = l → v.dataBlock L i l ≠ 0) :
    v'.fileByte L i pos = v.fileByte L i pos := by
  by_cases h0 : v.dataBlock L i (pos / 512) = 0
  · have hl : pos / 512 ≠ l := fun he => hne he (he ▸ h0)
    rw [fileByte_of_zero h0, fileByte_of_zero (by rw [h.dataBlock_ne hp hl, h0])]
  · have heq := h.dataBlock_of_ne_zero h0
    rw [fileByte_of_ne_zero h0, fileByte_of_ne_zero (by rw [heq]; exact h0), heq,
      h.dataBlock_blk hb' hp h0]

section

variable (hw : Wrote L i o data v₀ w sz v) (h : Grow L (i, r) path v v') (hb' : Blocks L v')
  (hp : Cos.blockPath l = some (r, path))
include hw h hb' hp

/-- Linking on the way to a block that could not be mapped stores nothing. -/
theorem Wrote.grow (h0 : v'.dataBlock L i l = 0) : Wrote L i o data v₀ w sz v' := by
  have hz : v.dataBlock L i l = 0 := by
    by_contra hne
    exact hne ((h.dataBlock_of_ne_zero hne).symm.trans h0)
  have hdata : ∀ l', v'.dataBlock L i l' = v.dataBlock L i l' := by
    intro l'
    by_cases hl : l' = l
    · rw [hl, h0, hz]
    · exact h.dataBlock_ne hp hl
  have hbyte : ∀ pos, v.dataBlock L i (pos / 512) ≠ 0 →
      v'.fileByte L i pos = v.fileByte L i pos := fun pos hpos =>
    h.fileByte hb' hp fun he => he ▸ hpos
  refine ⟨hb', hw.edit.trans (h.edit hb' (ptrPlace_of_path hp)), h.size.trans hw.size,
    fun l' hl' => (hdata l').trans (hw.mapped l' hl'),
    fun l' hl' hne => hw.hole l' hl' (hdata l' ▸ hne), ?_, ?_, ?_⟩
  · intro pos h1 h2
    obtain ⟨hm, hs⟩ := hw.stored pos h1 h2
    exact ⟨by rw [hdata]; exact hm, (hbyte pos hm).trans hs⟩
  · intro pos hm hout
    refine (hbyte pos ?_).trans (hw.kept pos hm hout)
    rw [hw.mapped _ hm]
    exact hm
  · intro pos hm hne hout
    rw [hdata] at hne
    exact (hbyte pos hne).trans (hw.stale pos hm hne hout)

/-- One round of the loop: block `l` is mapped and its part of the data is put in place.
The bytes around it come from the block itself, whoever left them there. -/
theorem Wrote.step (h0 : v'.dataBlock L i l ≠ 0)
    (hcur : o + w = 512 * l + off) (hc : 0 < c) (hoff : off + c ≤ 512)
    (hbuf : ∀ k, k < 512 → buf.get k = if off ≤ k ∧ k < off + c then data.getD (w + (k - off)) 0
      else (v'.blk (v'.dataBlock L i l)).get k)
    (hleaf : v.dataBlock L i l = 0 → v'.blk (v'.dataBlock L i l) =
      v₀.blk (v₀.leaf L i (o / 512) l)) :
    Wrote L i o data v₀ (w + c) sz (v'.setBlk (v'.dataBlock L i l) buf) := by
  have hx := ptrPlace_of_path (i := i) hp
  have hlen : path.length = ptrDepth (i, r) := (blockPath_place hp).2.1
  have hd := dataBlock_eq (L := L) (v := v') (i := i) hp
  have hp0 : v'.ptr L (i, r) path ≠ 0 := hd ▸ h0
  have hdata : ∀ l', (v'.setBlk (v'.dataBlock L i l) buf).dataBlock L i l' =
      v'.dataBlock L i l' := by
    rw [hd]
    exact dataBlock_congr fun _ _ hq => ptr_setBlk_leaf hb' hx hlen hp0 buf hq
  -- Bytes of block `l` come from `buf`; all the others are those of `v`.
  have hin : ∀ pos, pos / 512 = l →
      (v'.setBlk (v'.dataBlock L i l) buf).fileByte L i pos = buf.get (pos % 512) := by
    intro pos hl
    rw [fileByte_of_ne_zero (by rw [hdata, hl]; exact h0), hdata, hl, blk_setBlk, if_pos rfl]
  have hout : ∀ pos, pos / 512 ≠ l →
      (v'.setBlk (v'.dataBlock L i l) buf).fileByte L i pos = v.fileByte L i pos := by
    intro pos hl
    rw [← h.fileByte hb' hp fun he => absurd he hl]
    by_cases hz : v'.dataBlock L i (pos / 512) = 0
    · rw [fileByte_of_zero hz, fileByte_of_zero (by rw [hdata, hz])]
    · rw [fileByte_of_ne_zero hz, fileByte_of_ne_zero (by rw [hdata]; exact hz), hdata,
        blk_setBlk, if_neg]
      intro heq
      obtain ⟨r', p', hp', hx', -, hd'⟩ := exists_path hz
      rw [hd', hd] at heq
      rw [hd'] at hz
      obtain ⟨hxy, rfl⟩ := hb'.owned _ _ _ _ hx' hx hz heq
      cases hxy
      exact hl (path_eq_of_init hp hp' (List.prefix_refl _))
  -- Bytes of block `l` outside the stored part, if the block was there before.
  have hold : ∀ pos, pos / 512 = l → ¬ (o + w ≤ pos ∧ pos < o + (w + c)) →
      v.dataBlock L i l ≠ 0 →
      (v'.setBlk (v'.dataBlock L i l) buf).fileByte L i pos = v.fileByte L i pos := by
    intro pos hl hnot hm
    rw [hin pos hl, hbuf _ (Nat.mod_lt _ (by omega)), if_neg (by omega),
      h.dataBlock_of_ne_zero hm, h.dataBlock_blk hb' hp hm, ← hl, fileByte_of_ne_zero (hl ▸ hm)]
  refine ⟨hd ▸ hb'.setBlk_leaf hx hlen hp0 buf,
    (hw.edit.trans (h.edit hb' hx)).trans (hd ▸ edit_setBlk hb' hx hlen hp0 buf),
    h.size.trans hw.size, ?_, ?_, ?_, ?_, ?_⟩
  · intro l' hl'
    have := hw.mapped l' hl'
    rw [hdata, h.dataBlock_of_ne_zero (by rw [this]; exact hl'), this]
  · intro l' hl' hne
    by_cases hl : l' = l
    · exact ⟨o + w, by omega, by omega, by omega⟩
    · rw [hdata, h.dataBlock_ne hp hl] at hne
      obtain ⟨pos, h1, h2, h3⟩ := hw.hole l' hl' hne
      exact ⟨pos, h1, by omega, h3⟩
  · intro pos h1 h2
    by_cases hnew : o + w ≤ pos
    · have hl : pos / 512 = l := by omega
      refine ⟨by rw [hdata, hl]; exact h0, ?_⟩
      rw [hin pos hl, hbuf _ (Nat.mod_lt _ (by omega)), if_pos (by omega),
        show w + (pos % 512 - off) = pos - o by omega]
    · obtain ⟨hm, hs⟩ := hw.stored pos h1 (by omega)
      refine ⟨by rw [hdata, h.dataBlock_of_ne_zero hm]; exact hm, ?_⟩
      rw [← hs]
      by_cases hl : pos / 512 = l
      · exact hold pos hl (by omega) (hl ▸ hm)
      · exact hout pos hl
  · intro pos hm hnot
    have hm' := hw.mapped _ hm
    rw [← hw.kept pos hm (by omega)]
    by_cases hl : pos / 512 = l
    · exact hold pos hl (by omega) (by rw [← hl, hm']; exact hm)
    · exact hout pos hl
  · intro pos hm hne hnot
    rw [hdata] at hne
    by_cases hl : pos / 512 = l
    · by_cases hz : v.dataBlock L i l = 0
      · rw [hin pos hl, hbuf _ (Nat.mod_lt _ (by omega)), if_neg (by omega), hleaf hz, hl]
      · rw [hold pos hl (by omega) hz, hw.stale pos hm (by rw [hl]; exact hz) (by omega)]
    · rw [h.dataBlock_ne hp hl] at hne
      rw [hout pos hl, hw.stale pos hm hne (by omega)]

end

/-- The size is not a byte of the file. -/
theorem Wrote.setSize (hw : Wrote L i o data v₀ w sz v) {n : Nat} (hn : n < 2 ^ 32) :
    Wrote L i o data v₀ w n (v.setIno i ((v.ino i).setSize n)) := by
  have hptr : ∀ r, r < 15 → ((v.ino i).setSize n).ptr r = (v.ino i).ptr r := fun r _ =>
    Buf.get32_put32_out (by omega)
  have hforest := forest_setIno (L := L) hptr
  have hdata : ∀ l, (v.setIno i ((v.ino i).setSize n)).dataBlock L i l = v.dataBlock L i l :=
    dataBlock_congr fun r p _ => by rw [ptr, hforest, ptr]
  have hbyte : ∀ pos, (v.setIno i ((v.ino i).setSize n)).fileByte L i pos = v.fileByte L i pos := by
    intro pos
    rw [Img.fileByte, hdata, Img.fileByte]
    rfl
  refine ⟨hw.blocks.setIno hptr, hw.edit.trans (edit_setIno hptr fun k hk => ?_), ?_, ?_, ?_, ?_,
    ?_, ?_⟩
  · exact Buf.get_splice_out (by omega)
  · rw [ino_setIno, if_pos rfl, Inode.size, Inode.setSize, Buf.get32_put32_same _ (by omega)]
    exact Nat.mod_eq_of_lt hn
  · simpa only [hdata] using hw.mapped
  · simpa only [hdata] using hw.hole
  · simpa only [hdata, hbyte] using hw.stored
  · simpa only [hbyte] using hw.kept
  · simpa only [hdata, hbyte] using hw.stale

end step

/-! ### The cost of a write -/

/-- `k` blocks of a write that starts at logical block `l₀` have been mapped. What is still
free has not been touched. -/
structure Paid (L : Layout) (i l₀ k : Nat) (v₀ v : Img) : Prop where
  missing : ∀ l, v.missingSet L i l = v₀.missingSet L i l \ v₀.neededSet L i l₀ k
  enough : (v₀.neededSet L i l₀ k).card ≤ v₀.free L
  freeList : v.freeList L = (v₀.freeList L).drop (v₀.neededSet L i l₀ k).card
  untouched : ∀ c ∈ v.freeList L, v.blk c = v₀.blk c
  boot : v.boot = v₀.boot
  takes : ∀ j, j < k → Takes L v₀ i l₀ j

theorem paid_zero (L : Layout) (i l₀ : Nat) (v : Img) : Paid L i l₀ 0 v v where
  missing := fun l => by simp [neededSet]
  enough := by simp [neededSet]
  freeList := by simp [neededSet]
  untouched := fun _ _ => rfl
  boot := rfl
  takes := fun j hj => absurd hj (by omega)

section paid

variable {v₀ : Img} {r l₀ k : Nat} {path : List Nat}

/-- What the next block needs beyond the blocks before it. -/
theorem Paid.next_card (h : Paid L i l₀ k v₀ v) :
    (v₀.neededSet L i l₀ (k + 1)).card =
      (v₀.neededSet L i l₀ k).card + (v.missingSet L i (l₀ + k)).card := by
  rw [h.missing, neededSet_succ, ← Finset.union_sdiff_self_eq_union,
    Finset.card_union_of_disjoint Finset.disjoint_sdiff]

theorem Paid.free (h : Paid L i l₀ k v₀ v) :
    v.free L + (v₀.neededSet L i l₀ k).card = v₀.free L := by
  have := h.enough
  rw [Img.free, h.freeList, List.length_drop, Img.free] at *
  omega

/-- A block that is free afterwards was not linked on the way. -/
theorem Grow.blk_free {x : Nat × Nat} (h : Grow L x path v v') (hb' : Blocks L v')
    (hx : PtrPlace x path) {c : Nat} (hc : c ∈ v'.freeList L) : v'.blk c = v.blk c := by
  obtain ⟨⟨hr, -⟩, hbit⟩ := mem_freeList.mp hc
  have hds := L.dataStart_gt
  refine h.blk c (by omega) fun q hq _ => ?_
  obtain ⟨t, rfl⟩ := hq
  exact hb'.fresh hbit x q hx.left (by omega)

section

variable (h : Paid L i l₀ k v₀ v) (hg : Grow L (i, r) path v v') (hb' : Blocks L v')
  (hp : Cos.blockPath (l₀ + k) = some (r, path))
include h hg hb' hp

/-- The leaf that a round maps, and what it holds. -/
theorem Paid.leaf (h0 : v.dataBlock L i (l₀ + k) = 0)
    (hacc : Account L (v.missingSet L i (l₀ + k)).card v v' (v'.dataBlock L i (l₀ + k)))
    (hne : v'.dataBlock L i (l₀ + k) ≠ 0) :
    v'.blk (v'.dataBlock L i (l₀ + k)) = v₀.blk (v₀.leaf L i l₀ (l₀ + k)) := by
  have hx := ptrPlace_of_path (i := i) hp
  have hd := dataBlock_eq (L := L) (v := v') (i := i) hp
  have hm : (v.missingSet L i (l₀ + k)).card ≠ 0 := by
    rw [Finset.card_ne_zero]
    refine ⟨(r, path), mem_missingSet.mpr ⟨path, hp, List.prefix_refl _, ?_⟩⟩
    rw [← dataBlock_eq hp]
    exact h0
  rcases hacc with ⟨-, -, -, -, hlast⟩ | ⟨-, hz, -⟩
  · have hget := hlast hm
    have hmem : v'.dataBlock L i (l₀ + k) ∈ v.freeList L := List.mem_of_getElem? hget
    have hleaf : v₀.leaf L i l₀ (l₀ + k) = v'.dataBlock L i (l₀ + k) := by
      rw [h.freeList, List.getElem?_drop] at hget
      rw [Img.leaf, List.getD_eq_getElem?_getD, Nat.add_sub_cancel_left, h.next_card,
        Nat.add_sub_assoc (Nat.one_le_iff_ne_zero.mpr hm), hget]
      rfl
    rw [hleaf, ← h.untouched _ hmem]
    refine hg.blk _ hne fun q hq hqp he => hqp ?_
    obtain ⟨t, rfl⟩ := hq
    rw [hd] at he hne
    exact (hb'.owned _ _ _ _ hx.left hx (fun hz => hne (he.symm.trans hz)) he).2
  · exact absurd hz hne

theorem Paid.step (h0 : v'.dataBlock L i (l₀ + k) ≠ 0)
    (hacc : Account L (v.missingSet L i (l₀ + k)).card v v' (v'.dataBlock L i (l₀ + k))) :
    Paid L i l₀ (k + 1) v₀ v' := by
  have hx := ptrPlace_of_path (i := i) hp
  obtain ⟨hle, hboot, hfree⟩ : (v.missingSet L i (l₀ + k)).card ≤ v.free L ∧ v'.boot = v.boot ∧
      v'.freeList L = (v.freeList L).drop (v.missingSet L i (l₀ + k)).card := by
    rcases hacc with ⟨h1, -, h2, h3, -⟩ | ⟨-, hz, -⟩
    · exact ⟨h1, h2, h3⟩
    · exact absurd hz h0
  have hcount := h.free
  have hcard := h.next_card
  refine ⟨?_, by omega, ?_, ?_, hboot.trans h.boot, ?_⟩
  · intro l
    rw [hg.missingSet hp h0, h.missing, h.missing, neededSet_succ]
    ext y
    simp only [Finset.mem_sdiff, Finset.mem_union]
    tauto
  · rw [hfree, h.freeList, List.drop_drop, hcard]
  · intro c hc
    rw [hg.blk_free hb' hx hc]
    rw [hfree] at hc
    exact h.untouched c (List.mem_of_mem_drop hc)
  · intro j hj
    by_cases hjk : j < k
    · exact h.takes j hjk
    · obtain rfl : j = k := by omega
      refine ⟨?_, by omega⟩
      by_contra hge
      rw [blockPath_eq_none.mpr (by omega)] at hp
      cases hp

end

/-- Writing a leaf costs nothing. -/
theorem Paid.congr {v'' : Img} (h : Paid L i l₀ k v₀ v')
    (hptr : ∀ r p, PtrPlace (i, r) p → v''.ptr L (i, r) p = v'.ptr L (i, r) p)
    (hbit : v''.bit = v'.bit) (hboot : v''.boot = v'.boot)
    (hblk : ∀ c ∈ v'.freeList L, v''.blk c = v'.blk c) : Paid L i l₀ k v₀ v'' where
  missing := by
    intro l
    rw [← h.missing]
    ext y
    rw [mem_missingSet, mem_missingSet]
    refine exists_congr fun path => and_congr_right fun hp => and_congr_right fun hpre => ?_
    rw [hptr]
    obtain ⟨t, rfl⟩ := hpre
    exact (ptrPlace_of_path hp).left
  enough := h.enough
  freeList := by rw [Img.freeList, hbit, ← h.freeList, Img.freeList]
  untouched := by
    intro c hc
    rw [Img.freeList, hbit] at hc
    exact (hblk c hc).trans (h.untouched c hc)
  boot := hboot.trans h.boot
  takes := h.takes

/-- A block that was not reached, and what its failure did to sector 0. -/
theorem Paid.fail (h : Paid L i l₀ k v₀ v) {res : Nat}
    (hacc : Account L (v.missingSet L i (l₀ + k)).card v v' res) (h0 : res = 0) :
    ¬ Takes L v₀ i l₀ k ∧ v'.boot =
      if (v₀.neededSet L i l₀ (k + 1)).card = v₀.free L + 1 then v₀.boot else Buf.zero := by
  have hcard := h.next_card
  have hfree := h.free
  rcases hacc with ⟨-, hne, -⟩ | ⟨hlt, -, -, hboot⟩
  · exact absurd h0 hne
  · refine ⟨fun ht => ?_, ?_⟩
    · have := ht.2
      omega
    · rw [hboot, h.boot]
      refine if_congr ?_ rfl rfl
      omega

end paid

end Img

/-- The number of bytes that a call of `fs_write` stores, whether it fails or not. -/
def Cos.storedLength (s : Cos) (i o : Nat) (data : List Byte) : Nat :=
  (Cos.fsWriteLoop i o data 0 (s.readInode i) Buf.zero s).written

namespace Rep

variable {L : Layout} {s : Cos} {v v₀ v' : Img} {i o sz w : Nat} {data : List Byte}

/-- How the loop of `fs_write` ends, in terms of the image it started from. -/
inductive WriteEnd (L : Layout) (i o : Nat) (data : List Byte) (v₀ v' : Img) (ok : Bool)
    (written : Nat) : Prop
  /-- Every block was reached. -/
  | full (hok : ok = true) (hw : written = data.length) (hboot : v'.boot = v₀.boot)
      (htakes : ∀ pos, o ≤ pos → pos < o + data.length →
        Img.Takes L v₀ i (o / 512) (pos / 512 - o / 512))
      (hcost : data ≠ [] → v'.free L + (v₀.neededSet L i (o / 512)
        ((o + data.length - 1) / 512 - o / 512 + 1)).card = v₀.free L)
  /-- Block `k` was not reached. -/
  | short (k : Nat) (hok : ok = false) (hw : written = 512 * (o / 512 + k) - o)
      (hlt : written < data.length) (hfail : ¬ Img.Takes L v₀ i (o / 512) k)
      (htakes : ∀ j, j < k → Img.Takes L v₀ i (o / 512) j)
      (hboot : v'.boot = if maxBlocks ≤ o / 512 + k ∨
          (v₀.neededSet L i (o / 512) (k + 1)).card = v₀.free L + 1 then v₀.boot else Buf.zero)

/-- When every block is reached, the end of the data is in range. -/
theorem WriteEnd.end_le (h : WriteEnd L i o data v₀ v' true w)
    (hne : data ≠ []) : o + data.length ≤ 512 * maxBlocks := by
  have hpos := List.length_pos_of_ne_nil hne
  cases h with
  | full hok hw hboot htakes hcost =>
    have := (htakes (o + data.length - 1) (by omega) (by omega)).1
    omega
  | short k hok => cases hok

theorem WriteEnd.sum_lt (h : WriteEnd L i o data v₀ v' true w)
    (ho : o < 2 ^ 32) : o + data.length < 2 ^ 32 := by
  by_cases hne : data = []
  · simpa [hne] using ho
  · have := h.end_le hne
    rw [maxBlocks] at this
    omega

/-- Sector 0 keeps its contents or is zeroed. -/
theorem WriteEnd.boot {ok : Bool} (h : WriteEnd L i o data v₀ v' ok w) :
    v'.boot = v₀.boot ∨ v'.boot = Buf.zero := by
  cases h with
  | full hok hw hboot => exact Or.inl hboot
  | short k hok hw hlt hfail htakes hboot =>
    split at hboot
    · exact Or.inl hboot
    · exact Or.inr hboot

/-- The loop of `fs_write` from any of its rounds. -/
theorem fsWriteLoop_spec (hi : i < L.sb.inodeCount) (hu : v₀.used i = true) (ho : o < 2 ^ 32)
    (n : Nat) : ∀ {s : Cos} {v : Img} (w k : Nat) (buf : Sector), data.length - w = n →
    Rep L s v → Img.Wrote L i o data v₀ w sz v →
    Img.Paid L i (o / 512) k v₀ v → w ≤ data.length →
    (w < data.length → w = 512 * (o / 512 + k) - o ∧ (o + w) / 512 = o / 512 + k) →
    (∀ pos, o ≤ pos → pos < o + w → pos / 512 < o / 512 + k) →
    (0 < w → (o + w - 1) / 512 + 1 = o / 512 + k) →
    ∃ v', Rep L (Cos.fsWriteLoop i o data w (v.ino i) buf s).state v' ∧
      Img.Wrote L i o data v₀ (Cos.fsWriteLoop i o data w (v.ino i) buf s).written sz v' ∧
      (Cos.fsWriteLoop i o data w (v.ino i) buf s).node = v'.ino i ∧
      WriteEnd L i o data v₀ v' (Cos.fsWriteLoop i o data w (v.ino i) buf s).ok
        (Cos.fsWriteLoop i o data w (v.ino i) buf s).written := by
  induction n using Nat.strongRecOn with
  | _ n ih =>
  intro s v w k buf hn h hw hpaid hle hhead hbelow hlast
  rw [Cos.fsWriteLoop]
  by_cases hlt : w < data.length
  · obtain ⟨hwk, hblk⟩ := hhead hlt
    have hused : v.used i = true := by
      rw [hw.edit.used]
      exact hu
    -- No round wraps: every earlier block is below `maxBlocks`.
    have hcur : (o + w) % 2 ^ 32 = o + w := by
      refine Nat.mod_eq_of_lt ?_
      by_cases hk : k = 0
      · omega
      · have := (hpaid.takes (k - 1) (by omega)).1
        rw [maxBlocks] at this
        omega
    simp only [if_pos hlt, hcur, sectorSize, hblk]
    cases hp : Cos.blockPath (o / 512 + k) with
    | none =>
      have hge := blockPath_eq_none.mp hp
      rw [getPhysicalBlock_none _ _ hge, if_pos rfl]
      refine ⟨v, h, hw, rfl, .short k rfl hwk hlt (fun ht => ?_) hpaid.takes ?_⟩
      · have := ht.1
        omega
      · rw [if_pos (Or.inl hge), hpaid.boot]
    | some rp =>
      obtain ⟨r, path⟩ := rp
      obtain ⟨v1, hrep, hb1, hgrow, hnode, hres, hacc, -⟩ := h.getPhysicalBlock_alloc hw.blocks hi
        hused hp
      rw [← Img.missingSet_card hi hused] at hacc
      rw [hres, hnode]
      by_cases h0 : v1.dataBlock L i (o / 512 + k) = 0
      · rw [if_pos h0]
        obtain ⟨hfail, hboot⟩ := hpaid.fail hacc h0
        refine ⟨v1, hrep, hw.grow hgrow hb1 hp h0, rfl,
          .short k rfl hwk hlt hfail hpaid.takes ?_⟩
        have hlt' : ¬ maxBlocks ≤ o / 512 + k := by
          intro hge
          rw [blockPath_eq_none.mpr hge] at hp
          cases hp
        simp only [hboot, hlt', false_or]
      · rw [if_neg h0]
        obtain ⟨r', p', hp', hx', hlen', hd'⟩ := Img.exists_path h0
        have hp0 : v1.ptr L (i, r') p' ≠ 0 := hd' ▸ h0
        obtain ⟨⟨hr1, hr2⟩, -⟩ := hb1.live _ _ hx' hp0
        rw [← hd'] at hr1 hr2
        set c := min (512 - (o + w) % 512) (data.length - w) with hc
        set buf' := (if (o + w) % 512 > 0 ∨ data.length - w < 512
          then (s.getPhysicalBlock i (v.ino i) (o / 512 + k) true).2.2.blockRead
            (v1.dataBlock L i (o / 512 + k)) else buf).splice ((o + w) % 512) c
            (fun j => data.getD (w + j) 0) with hbuf'
        have hget : ∀ j, j < 512 → buf'.get j =
            if (o + w) % 512 ≤ j ∧ j < (o + w) % 512 + c then data.getD (w + (j - (o + w) % 512)) 0
            else (v1.blk (v1.dataBlock L i (o / 512 + k))).get j := by
          intro j hj
          rw [hbuf', Buf.get_splice]
          split
          · rename_i hin
            rw [if_pos hin.2]
          · rename_i hout
            rw [if_neg (fun hh => hout ⟨hj, hh⟩), if_pos (by omega), hrep.blk _ hr1 hr2]
        have hstep := hw.step hgrow hb1 hp h0
          (show o + w = 512 * (o / 512 + k) + (o + w) % 512 by omega) (c := c) (by omega)
          (by omega) hget fun hz => hpaid.leaf hgrow hb1 hp hz hacc h0
        have hpaid' : Img.Paid L i (o / 512) (k + 1) v₀
            (v1.setBlk (v1.dataBlock L i (o / 512 + k)) buf') :=
          (hpaid.step hgrow hb1 hp h0 hacc).congr
            (fun r p hq => hd' ▸ Img.ptr_setBlk_leaf hb1 hx' hlen' hp0 buf' hq) rfl rfl
            fun c hc => by
              rw [Img.blk_setBlk, if_neg]
              obtain ⟨⟨hge, -⟩, hbit⟩ := Img.mem_freeList.mp hc
              have hds := L.dataStart_gt
              rw [hd']
              exact fun he => hb1.fresh hbit _ _ hx' (by omega) he.symm
        have hrest := ih (data.length - (w + c)) (by omega) (w + c) (k + 1) buf' rfl
          (hrep.writeBlk buf' hr1 hr2) hstep hpaid' (by omega) (by omega) (by
            intro pos h1 h2
            by_cases hold : pos < o + w
            · have := hbelow pos h1 hold
              omega
            · omega) (by omega)
        exact hrest
  · rw [if_neg hlt]
    have hend : w = data.length := by omega
    refine ⟨v, h, hw, rfl, .full rfl hend hpaid.boot (fun pos h1 h2 => ?_) fun hne => ?_⟩
    · have := hbelow pos h1 (by omega)
      exact hpaid.takes _ (by omega)
    · have hpos := List.length_pos_of_ne_nil hne
      have hk := hlast (by omega)
      rw [show (o + data.length - 1) / 512 - o / 512 + 1 = k by omega]
      exact hpaid.free

/-- `fs_write` on a used inode. -/
theorem fsWrite_spec (h : Rep L s v) (hb : Img.Blocks L v) (hi : i < L.sb.inodeCount)
    (hu : v.used i = true) (ho : o < 2 ^ 32) (data : List Byte) :
    ∃ v' w sz ok, Rep L (s.fsWrite i o data).2 v' ∧ Img.Wrote L i o data v w sz v' ∧
      WriteEnd L i o data v v' ok w ∧ w = s.storedLength i o data ∧
      ((ok = true ∧ (s.fsWrite i o data).1 = data.length ∧
        sz = max (v.ino i).size (o + data.length) ∧
          (data ≠ [] → o + data.length ≤ 512 * maxBlocks)) ∨
        (ok = false ∧ (s.fsWrite i o data).1 = -1 ∧ sz = (v.ino i).size)) := by
  obtain ⟨v1, hrep, hw, hnode, hend⟩ := fsWriteLoop_spec hi hu ho _ 0 0 Buf.zero rfl h
    (Img.wrote_zero hb i o data) (Img.paid_zero L i (o / 512) v) (Nat.zero_le _)
    (fun _ => ⟨by omega, by omega⟩) (fun pos h1 h2 => by omega) (by omega)
  rw [Cos.storedLength, Cos.fsWrite, h.ino i hi]
  set R := Cos.fsWriteLoop i o data 0 (v.ino i) Buf.zero s
  dsimp only
  cases hok : R.ok with
  | false =>
    rw [hok] at hend
    exact ⟨v1, R.written, _, false, by simpa using hrep, hw, hend, rfl, Or.inr ⟨rfl, by simp, rfl⟩⟩
  | true =>
    rw [hok] at hend
    have hmax := hend.end_le
    have hsum := hend.sum_lt ho
    rcases hend with ⟨-, hlen, hboot, htakes, hcost⟩ | ⟨_, hfalse, -⟩
    · have hint : Cos.asInt data.length = data.length := by
        have : data.length < 2 ^ 31 := by
          by_cases hne : data = []
          · simp [hne]
          · have := hmax hne
            rw [maxBlocks] at this
            omega
        rw [Cos.asInt, if_pos (by omega)]
        omega
      have hsz : R.node.size = (v.ino i).size := by rw [hnode, hw.size]
      simp only [hlen, hsz, Nat.mod_eq_of_lt hsum, hint, Bool.not_true, Bool.false_eq_true,
        if_false]
      rw [hlen] at hw
      split
      · rename_i hgt
        have hrep' := hrep.writeInode ((v1.ino i).setSize (o + data.length)) hi
        rw [← hnode] at hrep'
        refine ⟨_, _, _, true, hrep', hnode ▸ hw.setSize hsum, .full rfl rfl hboot htakes hcost,
          rfl, Or.inl ⟨rfl, rfl, ?_, hmax⟩⟩
        omega
      · rename_i hle
        refine ⟨v1, _, _, true, hrep, hw, .full rfl rfl hboot htakes hcost,
          rfl, Or.inl ⟨rfl, rfl, ?_, hmax⟩⟩
        omega
    · cases hfalse

end Rep

end Crusadia
