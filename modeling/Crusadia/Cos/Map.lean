import Crusadia.Cos.Tree

/-!
# Crusadia.Cos.Map

`get_physical_block`: **from a logical block of a file to a data block**.

`blockPath` splits a logical index into a block pointer of the inode and the slots
below it; it is injective, and defined below 2113676 = 12 + 128 + 128² + 128³. Without
`do_alloc` the function returns the pointer at that place and changes nothing
(`Rep.getPhysicalBlock_read`); with it, the missing blocks of the path are linked as far
as the bitmap goes (`Rep.getPhysicalBlock_alloc`).
-/

namespace Crusadia

/-! ### Paths -/

/-- The number of logical blocks `get_physical_block` can address. -/
def maxBlocks : Nat := 2113676

/-- `blockPath` with the running subtractions carried out. -/
theorem blockPath_eq (l : Nat) : Cos.blockPath l =
    if l < 12 then some (l, [])
    else if l < 140 then some (12, [l - 12])
    else if l < 16524 then some (13, [(l - 140) / 128, (l - 140) % 128])
    else if l < 2113676 then
      some (14, [(l - 16524) / 16384, (l - 16524) % 16384 / 128, (l - 16524) % 16384 % 128])
    else none := by
  have hdef : Cos.blockPath l =
      if l < 12 then some (l, [])
      else if l - 12 < 128 then some (12, [l - 12])
      else if l - 12 - 128 < 16384 then some (13, [(l - 12 - 128) / 128, (l - 12 - 128) % 128])
      else if l - 12 - 128 - 16384 < 2097152 then
        some (14, [(l - 12 - 128 - 16384) / 16384, (l - 12 - 128 - 16384) % 16384 / 128,
          (l - 12 - 128 - 16384) % 16384 % 128])
      else none := rfl
  rw [hdef, show l - 12 - 128 - 16384 = l - 16524 by omega, show l - 12 - 128 = l - 140 by omega]
  split_ifs <;> first | rfl | omega

theorem blockPath_eq_none {l : Nat} : Cos.blockPath l = none ↔ maxBlocks ≤ l := by
  rw [blockPath_eq, maxBlocks]
  split_ifs <;> simp <;> omega

variable {path ks : List Nat} {l : Nat}

/-- A path goes to the bottom of the tree it is in. -/
theorem blockPath_place {r : Nat} (h : Cos.blockPath l = some (r, path)) :
    r < 15 ∧ path.length = r - 11 ∧ ∀ k ∈ path, k < ptrsPerBlock := by
  rw [blockPath_eq] at h
  rw [ptrsPerBlock]
  split_ifs at h <;>
    (simp only [Option.some.injEq, Prod.mk.injEq] at h; obtain ⟨rfl, rfl⟩ := h) <;> simp <;> omega

/-- Different logical blocks have different paths. -/
theorem blockPath_injective {l' : Nat} (h : Cos.blockPath l = Cos.blockPath l')
    (hl : l < maxBlocks) : l = l' := by
  rw [blockPath_eq, blockPath_eq] at h
  rw [maxBlocks] at hl
  split_ifs at h <;> simp at h <;> omega

namespace Img

/-- The block that holds logical block `l` of inode `i`, 0 for a hole. -/
def dataBlock (L : Layout) (v : Img) (i l : Nat) : Nat :=
  match Cos.blockPath l with
  | none => 0
  | some (r, path) => v.ptr L (i, r) path

/-- Sector 0 zeroed, when it was to be an inner block. -/
def zeroBoot (v : Img) (inner : Bool) : Img := if inner then { v with boot := Buf.zero } else v

theorem zeroBoot_bit (v : Img) (inner : Bool) : (v.zeroBoot inner).bit = v.bit := by
  cases inner <;> simp [zeroBoot]

theorem zeroBoot_ino (v : Img) (inner : Bool) : (v.zeroBoot inner).ino = v.ino := by
  cases inner <;> simp [zeroBoot]

theorem zeroBoot_forest (L : Layout) (v : Img) (inner : Bool) :
    (v.zeroBoot inner).forest L = v.forest L := by
  cases inner <;> simp [zeroBoot, forest]

/-- Blocks still missing on the way to logical block `l` of inode `i`. -/
def missingBlocks (v : Img) (i l : Nat) : Nat :=
  match Cos.blockPath l with
  | none => 0
  | some (r, path) =>
    if (v.ino i).ptr r = 0 then path.length + 1
    else missing (fun b k => (v.blk b).get32 (4 * k)) ((v.ino i).ptr r) path

end Img

theorem ptrPlace_of_path {i r : Nat} (h : Cos.blockPath l = some (r, path)) :
    PtrPlace (i, r) path :=
  ⟨(blockPath_place h).2.1.le, (blockPath_place h).2.2⟩

namespace Rep

variable {L : Layout} {s : Cos} {v : Img} {x : Nat × Nat}

section

variable (h : Rep L s v)
include h

theorem blockRead_ptr (hb : Img.Blocks L v) {p : List Nat} (hp : PtrPlace x p)
    (h0 : v.ptr L x p ≠ 0) : s.blockRead (v.ptr L x p) = v.blk (v.ptr L x p) := by
  obtain ⟨⟨h1, h2⟩, -⟩ := hb.live x p hp h0
  exact h.blk _ h1 h2

/-! ### Reading -/

theorem descend_read (hb : Img.Blocks L v) : ∀ ks q, PtrPlace x (q ++ ks) →
      Cos.descend false ks (v.ptr L x q) s = (v.ptr L x (q ++ ks), s) := by
  intro ks
  induction ks with
  | nil =>
    intro q _
    rw [List.append_nil]
    rfl
  | cons k ks ih =>
    intro q hx
    rw [List.append_cons] at hx ⊢
    rw [Cos.descend]
    split
    · rename_i h0
      rw [show v.ptr L x (q ++ [k] ++ ks) = 0 from Forest.ptr_append_of_zero ks
        (Forest.ptr_append_of_zero [k] h0)]
    · rename_i h0
      rw [if_neg (by simp), h.blockRead_ptr hb hx.left.left h0, ← ih (q ++ [k]) hx,
        Img.ptr_snoc, if_neg h0]

/-- Without `do_alloc` nothing changes, and a hole on the path reads as 0. -/
theorem getPhysicalBlock_read (hb : Img.Blocks L v) {i : Nat}
    (hi : i < L.sb.inodeCount) (hu : v.used i = true) (l : Nat) :
    s.getPhysicalBlock i (v.ino i) l false = (v.dataBlock L i l, v.ino i, s) := by
  rw [Cos.getPhysicalBlock, Img.dataBlock]
  cases hp : Cos.blockPath l with
  | none => rfl
  | some rp =>
    obtain ⟨r, path⟩ := rp
    have hroot : (v.ino i).ptr r = v.ptr L (i, r) [] :=
      (Img.forest_root hi hu (blockPath_place hp).1).symm
    have hd := h.descend_read hb path [] (ptrPlace_of_path (i := i) hp)
    simp only [Cos.rootBlock, Bool.false_eq_true, and_false, if_false, hroot, hd, List.nil_append]

/-! ### Allocating -/

/-- The state after taking a block from the bitmap and, if it is an inner one, zeroing it. -/
theorem take {nb : Nat} (hff : v.firstFree L = some nb) (inner : Bool) :
    Rep L (if inner then s.allocBlock.2.zeroBlock nb else s.allocBlock.2) (v.take nb inner) := by
  have hal := h.allocBlock.2
  rw [Img.alloc, hff] at hal
  obtain ⟨⟨h1, h2⟩, -⟩ := Img.firstFree_eq_some.mp hff
  cases inner with
  | false => exact hal
  | true => exact hal.writeBlk _ h1 h2

/-- A failed allocation: the failure value 0 is zeroed like any other block number. -/
theorem zeroBoot (hff : v.firstFree L = none) (inner : Bool) :
    Rep L (if inner then s.allocBlock.2.zeroBlock 0 else s.allocBlock.2) (v.zeroBoot inner) := by
  have hal := h.allocBlock.2
  rw [Img.alloc, hff] at hal
  cases inner with
  | false => exact hal
  | true => exact hal.writeBoot _

theorem allocBlock_fst : s.allocBlock.1 = (v.firstFree L).getD 0 := by
  rw [h.allocBlock.1, Img.alloc]
  split <;> simp [*]

end

end Rep

namespace Img

variable {L : Layout} {v v' v₁ : Img} {x : Nat × Nat} {path : List Nat}

/-- A row without pointers has every slot of the path missing. -/
theorem missing_zero_row {mem : Nat → Nat → Nat} {b : Nat}
    (h : ∀ k ∈ ks, mem b k = 0) : missing mem b ks = ks.length := by
  cases ks with
  | nil => rfl
  | cons k ks => rw [missing, if_pos (h k (by simp)), List.length_cons]

/-- Sector 0 belongs to no tree. -/
theorem Blocks.zeroBoot (h : Blocks L v) (inner : Bool) : Blocks L (v.zeroBoot inner) := by
  refine ⟨by rw [zeroBoot_forest]; exact h.owned, ?_⟩
  simp only [ptr, zeroBoot_forest, zeroBoot_bit]
  exact h.live

theorem grow_zeroBoot (L : Layout) (x : Nat × Nat) (path : List Nat) (v : Img) (inner : Bool) :
    Grow L x path v (v.zeroBoot inner) where
  used := by cases inner <;> simp [zeroBoot]
  cwd := by cases inner <;> simp [zeroBoot]
  ino_other := by cases inner <;> simp [zeroBoot]
  ino_raw := by cases inner <;> simp [zeroBoot]
  bit := by simp [zeroBoot_bit]
  ptr := fun y q _ => Or.inl (by rw [ptr, zeroBoot_forest, ptr])
  blk := by cases inner <;> simp [zeroBoot]

/-- One more block in front of an accounted run. -/
theorem Account.cons {m res nb : Nat} (hboot : v₁.boot = v.boot)
    (hfree : v.freeList L = nb :: v₁.freeList L) (hres : m = 0 → res = nb)
    (h : Account L m v₁ v' res) : Account L (m + 1) v v' res := by
  have hlen : v.free L = v₁.free L + 1 := by rw [free, hfree, List.length_cons, free]
  rcases h with ⟨h1, h2, h3, h4, h5⟩ | ⟨h1, h2, h3, h4⟩
  · refine Or.inl ⟨by omega, h2, h3.trans hboot, ?_, fun _ => ?_⟩
    · rw [h4, hfree, List.drop_succ_cons]
    · rw [hfree, Nat.add_sub_cancel]
      cases m with
      | zero => rw [hres rfl, List.getElem?_cons_zero]
      | succ m => exact (List.getElem?_cons_succ).trans (h5 (by omega))
  · refine Or.inr ⟨by omega, h2, h3, ?_⟩
    rw [h4, hboot, hlen]
    simp

/-- A link and what follows it: the row of the new block is empty. -/
theorem LinkStep.account {p : List Nat} {nb res : Nat} (h : LinkStep L x p path nb v v₁)
    (hpath : path = p ++ ks) (hx : PtrPlace x path) (hlen : path.length = ptrDepth x)
    (hacc : Account L (missing (v₁.forest L).mem nb ks) v₁ v' res) (hres : ks = [] → res = nb) :
    Account L (ks.length + 1) v v' res := by
  subst hpath
  rw [missing_zero_row] at hacc
  · exact hacc.cons h.boot h.freeList fun hnil => hres (List.length_eq_zero_iff.mp hnil)
  · intro j hj
    refine h.linked.mem_new ?_ j (hx.2 j (List.mem_append_right _ hj))
    have := List.length_pos_of_mem hj
    rw [List.length_append] at hlen
    omega

/-- Nothing to link. -/
theorem Account.nil {res : Nat} (h : res ≠ 0) : Account L 0 v v res :=
  Or.inl ⟨Nat.zero_le _, h, rfl, rfl, fun hne => absurd rfl hne⟩

/-- The bitmap is empty at the first link of a path whose remaining part is `ks`. -/
theorem Account.fail (L : Layout) (h : v.firstFree L = none) :
    Account L (ks.length + 1) v (v.zeroBoot (!ks.isEmpty)) 0 := by
  have hfree := free_eq_zero.mpr h
  refine Or.inr ⟨by omega, rfl, ?_, ?_⟩
  · rw [free, freeList, zeroBoot_bit]
    exact hfree
  · rw [hfree]
    cases ks <;> simp [Img.zeroBoot]

end Img

namespace Cos

/-- One round of the descent: slot `k` of row `b`, which is filled if it is empty and may be. -/
def round (doAlloc : Bool) (k : Nat) (inner : Bool) (b : Nat) (s : Cos) : Nat × Cos :=
  let ptrs := s.blockRead b
  if ptrs.get32 (4 * k) = 0 ∧ doAlloc = true then
    let (nb, s) := s.allocBlock
    let s := if inner then s.zeroBlock nb else s
    (nb, s.blockWrite b (ptrs.put32 (4 * k) nb))
  else (ptrs.get32 (4 * k), s)

theorem descend_cons {doAlloc : Bool} {k b : Nat} {s : Cos} (h0 : b ≠ 0) :
    descend doAlloc (k :: ks) b s = descend doAlloc ks (s.round doAlloc k (!ks.isEmpty) b).1
      (s.round doAlloc k (!ks.isEmpty) b).2 := by
  by_cases hk : (s.blockRead b).get32 (4 * k) = 0 ∧ doAlloc = true
  · cases ks <;> simp only [descend, if_neg h0, round, if_pos hk] <;> rfl
  · simp only [descend, if_neg h0, round, if_neg hk]

/-- Every row that the descent comes to lies behind the bitmaps. -/
def Clear (L : Layout) (doAlloc : Bool) : List Nat → Nat → Cos → Prop
  | [], _, _ => True
  | k :: ks, b, s => b = 0 ∨ L.sb.inodeStart ≤ b ∧
    Clear L doAlloc ks (s.round doAlloc k (!ks.isEmpty) b).1 (s.round doAlloc k (!ks.isEmpty) b).2

theorem clear_zero (L : Layout) (doAlloc : Bool) (ks : List Nat) (s : Cos) :
    Clear L doAlloc ks 0 s := by
  cases ks <;> simp [Clear]

end Cos

namespace Rep

variable {L : Layout} {s : Cos} {v : Img} {x : Nat × Nat}

theorem descend_zero (doAlloc : Bool) (ks : List Nat) (s : Cos) :
    Cos.descend doAlloc ks 0 s = (0, s) := by
  cases ks <;> simp [Cos.descend]

/-- The descent with allocation, from a block that is there. -/
theorem descend_alloc : ∀ ks q {s : Cos} {v : Img}, Rep L s v → Img.Blocks L v →
    PtrPlace x (q ++ ks) → (q ++ ks).length = ptrDepth x → v.ptr L x q ≠ 0 →
    ∃ v', Rep L (Cos.descend true ks (v.ptr L x q) s).2 v' ∧ Img.Blocks L v' ∧
      Img.Grow L x (q ++ ks) v v' ∧ v'.ino = v.ino ∧
      (Cos.descend true ks (v.ptr L x q) s).1 = v'.ptr L x (q ++ ks) ∧
      Img.Account L (Img.missing (v.forest L).mem (v.ptr L x q) ks) v v'
        (v'.ptr L x (q ++ ks)) ∧ Cos.Clear L true ks (v.ptr L x q) s := by
  intro ks
  induction ks with
  | nil =>
    intro q s v h hb _ _ h0
    rw [List.append_nil]
    exact ⟨v, h, hb, Img.Grow.refl _ _ _ _, rfl, rfl, Img.Account.nil h0, trivial⟩
  | cons k ks ih =>
    intro q s v h hb hx hlen h0
    have hxk : PtrPlace x ((q ++ [k]) ++ ks) := by rwa [← List.append_cons]
    have hlen' : ((q ++ [k]) ++ ks).length = ptrDepth x := by rwa [← List.append_cons]
    obtain ⟨⟨hr1, hr2⟩, -⟩ := hb.live x q hxk.left.left h0
    have hsnoc : v.ptr L x (q ++ [k]) = (v.blk (v.ptr L x q)).get32 (4 * k) := by
      rw [Img.ptr_snoc, if_neg h0]
    have hrow : L.sb.inodeStart ≤ v.ptr L x q := by
      have := L.dataStart
      omega
    rw [Cos.descend_cons h0, Cos.Clear, Cos.round, h.blk _ hr1 hr2, Img.missing]
    by_cases hk : (v.blk (v.ptr L x q)).get32 (4 * k) = 0
    · rw [if_pos ⟨hk, rfl⟩, if_pos (show (v.forest L).mem (v.ptr L x q) k = 0 from hk)]
      simp only [h.allocBlock_fst]
      cases hff : v.firstFree L with
      | none =>
        -- The row is written back with the 0 it had.
        have hself : (v.blk (v.ptr L x q)).put32 (4 * k) 0 = v.blk (v.ptr L x q) := by
          rw [← hk, Buf.put32_get32]
        have hrep := (h.zeroBoot hff (!ks.isEmpty)).writeBlk (v.blk (v.ptr L x q)) hr1 hr2
        have hblk : (v.zeroBoot (!ks.isEmpty)).setBlk (v.ptr L x q) (v.blk (v.ptr L x q)) =
            v.zeroBoot (!ks.isEmpty) := by
          cases ks <;> exact Img.setBlk_self _ _
        rw [hblk] at hrep
        simp only [Option.getD_none, hself, descend_zero]
        have hptr : (v.zeroBoot (!ks.isEmpty)).ptr L x (q ++ k :: ks) = 0 := by
          rw [List.append_cons, Img.ptr, Img.zeroBoot_forest]
          exact Forest.ptr_append_of_zero ks (hsnoc.trans hk)
        refine ⟨_, hrep, hb.zeroBoot _, Img.grow_zeroBoot _ _ _ _ _, Img.zeroBoot_ino _ _,
          hptr.symm, ?_, Or.inr ⟨hrow, Cos.clear_zero _ _ _ _⟩⟩
        rw [hptr]
        exact Img.Account.fail L hff
      | some nb =>
        have hstep := Img.linkRow hb hff hx hlen h0 hk
        have hrep := (h.take hff (!ks.isEmpty)).writeBlk
          ((v.blk (v.ptr L x q)).put32 (4 * k) nb) hr1 hr2
        set v₁ := (v.take nb (!ks.isEmpty)).setBlk (v.ptr L x q)
          ((v.blk (v.ptr L x q)).put32 (4 * k) nb)
        have hnb : v₁.ptr L x (q ++ [k]) = nb :=
          (hstep.linked.ptr_eq hb.owned _ _ hxk.left).1 ⟨rfl, rfl⟩
        obtain ⟨v', h1, h2, h3, hino, h4, h5, hclear⟩ :=
          ih (q ++ [k]) hrep (hstep.blocks hb) hxk hlen'
          (by rw [hnb]; exact hstep.linked.ne_zero)
        rw [hnb, ← List.append_cons] at *
        refine ⟨v', h1, h2, (hstep.grow hb).trans hx h3, hino.trans Img.take_ino, h4,
          hstep.account (List.append_cons ..) hx hlen h5 fun hnil => ?_, Or.inr ⟨hrow, hclear⟩⟩
        subst hnil
        exact h4.symm
    · rw [if_neg (fun hh => hk hh.1), if_neg (show (v.forest L).mem (v.ptr L x q) k ≠ 0 from hk)]
      obtain ⟨v', h1, h2, h3, hino, h4, h5, hclear⟩ :=
        ih (q ++ [k]) h hb hxk hlen' (by rw [hsnoc]; exact hk)
      rw [hsnoc, ← List.append_cons] at *
      exact ⟨v', h1, h2, h3, hino, h4, h5, Or.inr ⟨hrow, hclear⟩⟩

/-- With `do_alloc`: the missing blocks of the path are linked, as far as there are free
blocks for them, and the inode in memory is the one on disk afterwards. -/
theorem getPhysicalBlock_alloc (h : Rep L s v) (hb : Img.Blocks L v) {i r : Nat}
    (hi : i < L.sb.inodeCount) (hu : v.used i = true) (hp : Cos.blockPath l = some (r, path)) :
    ∃ v', Rep L (s.getPhysicalBlock i (v.ino i) l true).2.2 v' ∧ Img.Blocks L v' ∧
      Img.Grow L (i, r) path v v' ∧
      (s.getPhysicalBlock i (v.ino i) l true).2.1 = v'.ino i ∧
      (s.getPhysicalBlock i (v.ino i) l true).1 = v'.dataBlock L i l ∧
      Img.Account L (v.missingBlocks i l) v v' (v'.dataBlock L i l) ∧
      Cos.Clear L true path (s.rootBlock i (v.ino i) r (!path.isEmpty) true).1
        (s.rootBlock i (v.ino i) r (!path.isEmpty) true).2.2 := by
  obtain ⟨hr, hdepth, -⟩ := blockPath_place hp
  have hx : PtrPlace (i, r) ([] ++ path) := ptrPlace_of_path hp
  have hroot : v.ptr L (i, r) [] = (v.ino i).ptr r := Img.forest_root hi hu hr
  simp only [Cos.getPhysicalBlock, Img.dataBlock, Img.missingBlocks, hp, Cos.rootBlock]
  by_cases h0 : (v.ino i).ptr r = 0
  · simp only [h0, true_and, if_true, h.allocBlock_fst]
    cases hff : v.firstFree L with
    | none =>
      -- The inode is written back with the 0 it had.
      have hself : (v.ino i).setPtr r 0 = v.ino i := by rw [← h0, Inode.setPtr_self]
      have hrep := (h.zeroBoot hff (!path.isEmpty)).writeInode (v.ino i) hi
      rw [← Img.zeroBoot_ino v (!path.isEmpty), Img.setIno_self, Img.zeroBoot_ino] at hrep
      have hptr : (v.zeroBoot (!path.isEmpty)).ptr L (i, r) path = 0 := by
        rw [Img.ptr, Img.zeroBoot_forest]
        exact Forest.ptr_append_of_zero (p := []) path (hroot.trans h0)
      simp only [Option.getD_none, hself, descend_zero]
      refine ⟨_, hrep, hb.zeroBoot _, Img.grow_zeroBoot _ _ _ _ _, ?_, hptr.symm, ?_,
        Cos.clear_zero _ _ _ _⟩
      · rw [Img.zeroBoot_ino]
      · rw [hptr]
        exact Img.Account.fail L hff
    | some nb =>
      have hstep := Img.linkRoot hb hff hi hu hr hdepth h0
      have hrep := (h.take hff (!path.isEmpty)).writeInode ((v.ino i).setPtr r nb) hi
      set v₁ := (v.take nb (!path.isEmpty)).setIno i ((v.ino i).setPtr r nb) with hv1
      have hnb : v₁.ptr L (i, r) [] = nb :=
        (hstep.linked.ptr_eq hb.owned _ _ (Forest.place_nil _)).1 ⟨rfl, rfl⟩
      obtain ⟨v', h1, h2, h3, hino, h4, h5, hclear⟩ := descend_alloc path [] hrep (hstep.blocks hb)
        hx hdepth (by rw [hnb]; exact hstep.linked.ne_zero)
      rw [hnb] at h1 h4 h5 hclear
      refine ⟨v', h1, h2, (hstep.grow hb).trans hx h3, ?_, h4,
        hstep.account rfl hx hdepth h5 fun hnil => ?_, hclear⟩
      · rw [hino, hv1, Img.ino_setIno, if_pos rfl]
        rfl
      · subst hnil
        exact h4.symm
  · simp only [h0, false_and, if_false]
    obtain ⟨v', h1, h2, h3, hino, h4, h5⟩ := descend_alloc path [] h hb hx hdepth
      (by rw [hroot]; exact h0)
    rw [hroot] at h1 h4 h5
    exact ⟨v', h1, h2, h3, by rw [hino], h4, h5⟩

/-- Past the triple indirect range nothing is allocated. -/
theorem getPhysicalBlock_none {i : Nat} (node : Inode) (s : Cos) (hl : maxBlocks ≤ l)
    (doAlloc : Bool) : s.getPhysicalBlock i node l doAlloc = (0, node, s) := by
  rw [Cos.getPhysicalBlock, blockPath_eq_none.mpr hl]

end Rep

end Crusadia
