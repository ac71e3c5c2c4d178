import Crusadia.Host.Sim

/-!
# Crusadia.Host.File

**File data, on both sides.** Reading, and freeing a tree of blocks, do the same on any two states
that are related by `Sim`, whatever pointers they follow. With allocation the two sides also write
pointer blocks and data, and there the pointers matter: the driver keeps the block bitmap on the
drive, the tool has it in memory, so a write to a bitmap sector would be seen by one of them only.
The pointers of an inode in use lead to data blocks (`Img.Blocks`), and then `get_physical_block`
and `fs_write` agree, whether there are blocks left or not.
-/

namespace Crusadia.Host.Sim

variable {L : Layout} {h : Host} {s : Cos} {v : Img}

/-! ### Reading -/

/-- Without `do_alloc` the descent only reads. -/
theorem descend_false (hs : Sim L h s) : ∀ ks b, ∃ b',
    Host.descend false ks b h = (b', h) ∧ Cos.descend false ks b s = (b', s) := by
  intro ks
  induction ks with
  | nil => exact fun b => ⟨b, rfl, rfl⟩
  | cons k ks ih =>
    intro b
    simp only [Host.descend, Cos.descend, Bool.false_eq_true, and_false, if_false, hs.sectors]
    by_cases hb : b = 0
    · exact ⟨0, if_pos hb, if_pos hb⟩
    · rw [if_neg hb, if_neg hb]
      exact ih _

section

variable (hs : Sim L h s) (i : Nat) (node : Inode)
include hs

/-- `get_physical_block` without `do_alloc`, for any inode in memory. -/
theorem getPhysicalBlock_false (l : Nat) : ∃ b, h.getPhysicalBlock i node l false = (b, node, h) ∧
      s.getPhysicalBlock i node l false = (b, node, s) := by
  rw [Host.getPhysicalBlock, Cos.getPhysicalBlock]
  cases Cos.blockPath l with
  | none => exact ⟨0, rfl, rfl⟩
  | some rp =>
    obtain ⟨r, path⟩ := rp
    obtain ⟨b, hh, hk⟩ := hs.descend_false path (node.ptr r)
    simp only [Host.rootBlock, Cos.rootBlock, Bool.false_eq_true, and_false, if_false, hh, hk]
    exact ⟨b, rfl, rfl⟩

theorem fsReadLoop (o size n : Nat) : ∀ done,
    size - done = n → h.fsReadLoop i node o size done = s.fsReadLoop i node o size done := by
  induction n using Nat.strongRecOn with
  | _ n ih =>
  intro done hn
  rw [Host.fsReadLoop, Cos.fsReadLoop]
  split
  · rename_i hlt
    obtain ⟨b, hh, hk⟩ := hs.getPhysicalBlock_false i node ((o + done) % 2 ^ 32 / sectorSize)
    simp only [hh, hk, hs.sectors]
    congr 1
    have hmod : (o + done) % 2 ^ 32 % sectorSize < sectorSize := Nat.mod_lt _ (by decide)
    exact ih _ (by omega) _ rfl
  · rfl

/-- `fs_read`. At the end of the file the driver stops one test earlier. -/
theorem fsRead {o size : Nat} (hsum : o + size < 2 ^ 32) :
    h.fsRead i node o size = s.fsRead i node o size := by
  simp only [Host.fsRead, Cos.fsRead, Nat.mod_eq_of_lt hsum, hs.fsReadLoop i node o _ _ 0 rfl]
  by_cases hend : o = node.size
  · have hzero : (if o + size > node.size then node.size - o else size) = 0 := by
      split <;> omega
    have hloop : s.fsReadLoop i node o 0 0 = [] := by
      rw [Cos.fsReadLoop, if_neg (by omega)]
    simp only [hzero, hloop, ite_self]
  · have hiff : o > node.size ↔ o ≥ node.size := by omega
    simp only [hiff]

end

/-! ### Freeing -/

/-- `free_indirect_tree`, from any block. -/
theorem freeIndirectTree (depth : Nat) : ∀ {h : Host} {s : Cos} (b : Nat), Sim L h s →
    Sim L (Host.freeIndirectTree depth b h) (Cos.freeIndirectTree depth b s) := by
  induction depth with
  | zero =>
    intro h s b hs
    rw [Host.freeIndirectTree, Cos.freeIndirectTree]
    split
    · exact hs
    · exact hs.freeBlock b
  | succ depth ih =>
    intro h s b hs
    rw [Host.freeIndirectTree, Cos.freeIndirectTree]
    split
    · exact hs
    · simp only [hs.sectors]
      refine freeBlock (List.foldl_rel hs fun k _ h' s' hs' => ?_) b
      split
      · exact ih _ hs'
      · exact hs'

/-! ### Allocating -/

/-- A new block, zeroed if it is an inner one; the failure value 0 is zeroed too. -/
theorem take (hs : Sim L h s) (inner : Bool) : h.allocBlock.1 = s.allocBlock.1 ∧
    Sim L (if inner then h.allocBlock.2.zeroBlock s.allocBlock.1 else h.allocBlock.2)
      (if inner then s.allocBlock.2.zeroBlock s.allocBlock.1 else s.allocBlock.2) := by
  obtain ⟨hres, hal⟩ := hs.allocBlock
  refine ⟨hres, ?_⟩
  cases inner with
  | false => exact hal
  | true =>
    refine hal.blockWrite ?_ Buf.zero
    rw [hs.rep.allocBlock_fst]
    cases hff : s.img.firstFree L with
    | none => exact Or.inl rfl
    | some b =>
      have hb := (Img.firstFree_eq_some.mp hff).1.1
      have := L.dataStart
      exact Or.inr (by rw [Option.getD_some]; omega)

/-- The descent, where it keeps clear of the bitmaps on the drive. -/
theorem descend {doAlloc : Bool} :
    ∀ ks b {h : Host} {s : Cos}, Sim L h s → Cos.Clear L doAlloc ks b s →
    (Host.descend doAlloc ks b h).1 = (Cos.descend doAlloc ks b s).1 ∧
      Sim L (Host.descend doAlloc ks b h).2 (Cos.descend doAlloc ks b s).2 := by
  intro ks
  induction ks with
  | nil => exact fun b h s hs _ => ⟨rfl, hs⟩
  | cons k ks ih =>
    intro b h s hs hc
    by_cases h0 : b = 0
    · rw [Host.descend, Cos.descend, if_pos h0, if_pos h0]
      exact ⟨rfl, hs⟩
    · obtain ⟨hrow, hrest⟩ := hc.resolve_left h0
      rw [Cos.descend_cons h0, Host.descend, if_neg h0, hs.sectors]
      by_cases hk : (s.blockRead b).get32 (4 * k) = 0 ∧ doAlloc = true
      · rw [Cos.round, if_pos hk] at hrest ⊢
        obtain ⟨hres, htake⟩ := hs.take (!ks.isEmpty)
        have hif : ∀ nb, (if ks = [] then h.allocBlock.2 else h.allocBlock.2.zeroBlock nb) =
            if !ks.isEmpty then h.allocBlock.2.zeroBlock nb else h.allocBlock.2 := by
          cases ks <;> simp
        simp only [if_pos hk, hif, hres]
        exact ih _ (htake.blockWrite (Or.inr hrow) _) hrest
      · rw [Cos.round, if_neg hk] at hrest ⊢
        rw [if_neg hk]
        exact ih _ hs hrest

theorem rootBlock (hs : Sim L h s) (i : Nat) (node : Inode) (r : Nat) (inner doAlloc : Bool) :
    (h.rootBlock i node r inner doAlloc).1 = (s.rootBlock i node r inner doAlloc).1 ∧
      (h.rootBlock i node r inner doAlloc).2.1 = (s.rootBlock i node r inner doAlloc).2.1 ∧
      Sim L (h.rootBlock i node r inner doAlloc).2.2 (s.rootBlock i node r inner doAlloc).2.2 := by
  obtain ⟨hres, htake⟩ := hs.take inner
  rw [Host.rootBlock, Cos.rootBlock]
  split
  · simp only [hres]
    exact ⟨trivial, trivial, htake.writeInode i _⟩
  · exact ⟨rfl, rfl, hs⟩

/-- `get_physical_block` with `do_alloc`, for an inode in use. -/
theorem getPhysicalBlock_true (hs : Sim L h s) (hrep : Rep L s v) (hb : Img.Blocks L v) {i : Nat}
    (hi : i < L.sb.inodeCount) (hu : v.used i = true) (l : Nat) :
    (h.getPhysicalBlock i (v.ino i) l true).1 = (s.getPhysicalBlock i (v.ino i) l true).1 ∧
      (h.getPhysicalBlock i (v.ino i) l true).2.1 = (s.getPhysicalBlock i (v.ino i) l true).2.1 ∧
      Sim L (h.getPhysicalBlock i (v.ino i) l true).2.2
        (s.getPhysicalBlock i (v.ino i) l true).2.2 := by
  rw [Host.getPhysicalBlock, Cos.getPhysicalBlock]
  cases hp : Cos.blockPath l with
  | none => exact ⟨rfl, rfl, hs⟩
  | some rp =>
    obtain ⟨r, path⟩ := rp
    obtain ⟨-, -, -, -, -, -, -, hclear⟩ := hrep.getPhysicalBlock_alloc hb hi hu hp
    obtain ⟨hroot, hnode, hsim⟩ := hs.rootBlock i (v.ino i) r (!path.isEmpty) true
    obtain ⟨hres, hend⟩ := hsim.descend path _ hclear
    simp only [hroot]
    exact ⟨hres, hnode, hend⟩

/-! ### Writing -/

/-- The loop of `fs_write` from any of its rounds. -/
theorem fsWriteLoop {i : Nat} (o : Nat) (data : List Byte) (hi : i < L.sb.inodeCount) (n : Nat) :
    ∀ {h : Host} {s : Cos} {v : Img} (w : Nat) (buf : Sector), data.length - w = n → Sim L h s →
    Rep L s v → Img.Blocks L v → v.used i = true →
    (Host.fsWriteLoop i o data w (v.ino i) buf h).ok =
      (Cos.fsWriteLoop i o data w (v.ino i) buf s).ok ∧
      (Host.fsWriteLoop i o data w (v.ino i) buf h).written =
        (Cos.fsWriteLoop i o data w (v.ino i) buf s).written ∧
      (Host.fsWriteLoop i o data w (v.ino i) buf h).node =
        (Cos.fsWriteLoop i o data w (v.ino i) buf s).node ∧
      Sim L (Host.fsWriteLoop i o data w (v.ino i) buf h).state
        (Cos.fsWriteLoop i o data w (v.ino i) buf s).state := by
  induction n using Nat.strongRecOn with
  | _ n ih =>
  intro h s v w buf hn hs hrep hb hu
  rw [Host.fsWriteLoop, Cos.fsWriteLoop]
  by_cases hlt : w < data.length
  · have hmod : (o + w) % 2 ^ 32 % sectorSize < sectorSize := Nat.mod_lt _ (by decide)
    simp only [if_pos hlt]
    set l := (o + w) % 2 ^ 32 / sectorSize
    obtain ⟨hres, hnode, hsim⟩ := hs.getPhysicalBlock_true hrep hb hi hu l
    rw [hres, hnode]
    by_cases hz : (s.getPhysicalBlock i (v.ino i) l true).1 = 0
    · simp only [if_pos hz]
      exact ⟨trivial, trivial, trivial, hsim⟩
    · simp only [if_neg hz, hsim.sectors]
      -- the block that was found is a leaf of the inode's tree
      cases hp : Cos.blockPath l with
      | none => exact absurd (by rw [Cos.getPhysicalBlock, hp]) hz
      | some rp =>
        obtain ⟨v1, hrep1, hb1, hgrow, hino, hdata, -⟩ := hrep.getPhysicalBlock_alloc hb hi hu hp
        rw [hdata] at hz
        obtain ⟨r, p, -, hx, hlen, hd⟩ := Img.exists_path hz
        have hp0 : v1.ptr L (i, r) p ≠ 0 := hd ▸ hz
        obtain ⟨⟨hr1, hr2⟩, -⟩ := hb1.live _ _ hx hp0
        have hds := L.dataStart
        have hu1 : v1.used i = true := by rw [hgrow.used]; exact hu
        set c := min (sectorSize - (o + w) % 2 ^ 32 % sectorSize) (data.length - w)
        have hrest := fun buf' : Sector => ih (data.length - (w + c)) (by omega) (w + c) buf' rfl
          (hsim.blockWrite (Or.inr (by omega)) buf') (hrep1.writeBlk buf' hr1 hr2)
          (hb1.setBlk_leaf hx hlen hp0 buf') hu1
        rw [hino, hdata, hd]
        exact hrest _
  · simp only [if_neg hlt]
    exact ⟨trivial, trivial, trivial, hs⟩

/-- `fs_write`, for an inode in use. The end of the data is computed with 64 bits on one side and
with 32 on the other; a write that gets there is below both limits. -/
theorem fsWrite (hs : Sim L h s) (hrep : Rep L s v) (hb : Img.Blocks L v) {i o : Nat}
    (hi : i < L.sb.inodeCount) (hu : v.used i = true) (ho : o < 2 ^ 32) (data : List Byte) :
    (h.fsWrite i o data).1 = (s.fsWrite i o data).1 ∧
      Sim L (h.fsWrite i o data).2 (s.fsWrite i o data).2 := by
  obtain ⟨hok, hwritten, hnode, hsim⟩ := fsWriteLoop o data hi _ 0 Buf.zero rfl hs hrep hb hu
  obtain ⟨v1, -, -, -, hend⟩ := Rep.fsWriteLoop_spec hi hu ho _ 0 0 Buf.zero rfl hrep
    (Img.wrote_zero hb i o data) (Img.paid_zero L i (o / 512) v) (Nat.zero_le _)
    (fun _ => ⟨by omega, by omega⟩) (fun pos h1 h2 => by omega) (by omega)
  rw [Host.fsWrite, Cos.fsWrite, hs.readInode, hrep.ino i hi]
  simp only [hok, hwritten, hnode]
  cases hres : (Cos.fsWriteLoop i o data 0 (v.ino i) Buf.zero s).ok with
  | false => exact ⟨rfl, hsim⟩
  | true =>
    rw [hres] at hend
    have hsum := hend.sum_lt ho
    have hlen : (Cos.fsWriteLoop i o data 0 (v.ino i) Buf.zero s).written = data.length := by
      cases hend with
      | full hok hw => exact hw
      | short k hok => cases hok
    simp only [hlen, Nat.mod_eq_of_lt hsum, Bool.not_true, Bool.false_eq_true, if_false]
    split
    · exact ⟨rfl, hsim.writeInode i _⟩
    · exact ⟨rfl, hsim⟩

end Crusadia.Host.Sim
