import Crusadia.Kernel.Heap

/-!
# Crusadia.Kernel.Arena

What the functions of `heap.c` do to the **list of blocks** an arena stands for.

A header is read as a whole (`hdr`), so each store of the source changes one record. The
invariant `Arena.Wf` ties an arena and the memory to a list of blocks. Splitting a block,
merging two and changing a free flag each replace a piece of that list by another one and
write to headers only (`Frame`); the specifications of the interface are put together from
these.
-/

namespace Crusadia.Kernel

open Hdr

/-! ### Headers as records -/

/-- `block_header_t` -/
structure Header where
  magic : Nat
  size : Nat
  free : Bool
  next : Nat
  prev : Nat

/-- The header at `b`. -/
def hdr (m : Mem) (b : Nat) : Header := ⟨magic m b, size m b, Hdr.free m b, next m b, prev m b⟩

/-- Byte `x` is not in the header at `b`. -/
def Off (b x : Nat) : Prop := x < b ∨ b + 24 ≤ x

/-- Two headers are the same or share no byte. -/
def Far (b c : Nat) : Prop := c = b ∨ b + 24 ≤ c ∨ c + 24 ≤ b

section stores

variable {m m' : Mem} {b c x v : Nat}

theorem hdr_congr (h : ∀ x, c ≤ x → x < c + 24 → m' x = m x) : hdr m' c = hdr m c := by
  have h32 : ∀ i, i + 4 ≤ 24 → m'.get32 (c + i) = m.get32 (c + i) := fun i hi =>
    Mem.get32_congr fun k hk => h _ (by omega) (by omega)
  simp only [hdr, magic, size, Hdr.free, next, prev, h32 4 (by omega), h32 12 (by omega),
    h32 16 (by omega), h (c + 8) (by omega) (by omega)]
  rw [Mem.get32_congr fun k hk => h _ (by omega) (by omega)]

/-- A store inside another header. -/
theorem hdr_store_ne {i len : Nat} {src : Nat → Byte} (h : Far b c ∧ c ≠ b) (hi : i + len ≤ 24) :
    hdr (m.store (b + i) len src) c = hdr m c :=
  hdr_congr fun x h1 h2 => Mem.store_out (by unfold Far at h; omega)

theorem store_off {i len : Nat} {src : Nat → Byte} (h : Off b x) (hi : i + len ≤ 24) :
    m.store (b + i) len src x = m x :=
  Mem.store_out (by unfold Off at h; omega)

theorem setMagic_off (h : Off b x) : setMagic m b v x = m x := store_off (i := 0) h (by decide)

theorem setSize_off (h : Off b x) : setSize m b v x = m x := store_off h (by decide)

theorem setFree_off {v : Bool} (h : Off b x) : setFree m b v x = m x := by
  unfold setFree Mem.put8
  exact store_off h (by decide)

theorem setNext_off (h : Off b x) : setNext m b v x = m x := store_off h (by decide)

theorem setPrev_off (h : Off b x) : setPrev m b v x = m x := store_off h (by decide)

theorem get32_put8_out {a : Nat} {w : Byte} (h : x + 4 ≤ a ∨ a + 1 ≤ x) :
    (m.put8 a w).get32 x = m.get32 x := Mem.get32_store_out h

theorem put32_out (h : x < b ∨ b + 4 ≤ x) : m.put32 b v x = m x := Mem.store_out h

theorem hdr_setMagic_ne (h : Far b c ∧ c ≠ b) : hdr (setMagic m b v) c = hdr m c :=
  hdr_store_ne (i := 0) h (by decide)

theorem hdr_setSize_ne (h : Far b c ∧ c ≠ b) : hdr (setSize m b v) c = hdr m c :=
  hdr_store_ne h (by decide)

theorem hdr_setFree_ne {v : Bool} (h : Far b c ∧ c ≠ b) : hdr (setFree m b v) c = hdr m c :=
  hdr_store_ne h (by decide)

theorem hdr_setNext_ne (h : Far b c ∧ c ≠ b) : hdr (setNext m b v) c = hdr m c :=
  hdr_store_ne h (by decide)

theorem hdr_setPrev_ne (h : Far b c ∧ c ≠ b) : hdr (setPrev m b v) c = hdr m c :=
  hdr_store_ne h (by decide)

/-- A store of one word changes its own field. -/
theorem hdr_set_self : hdr (setMagic m b v) b = { hdr m b with magic := v % 2 ^ 32 } ∧
    hdr (setSize m b v) b = { hdr m b with size := v % 2 ^ 32 } ∧
    hdr (setNext m b v) b = { hdr m b with next := v % 2 ^ 32 } ∧
    hdr (setPrev m b v) b = { hdr m b with prev := v % 2 ^ 32 } := by
  simp (disch := omega) [hdr, magic, size, Hdr.free, next, prev, setMagic, setSize, setNext,
    setPrev, put32_out, Mem.get32_put32_out, Mem.get32_put32_same]

theorem hdr_setFree_self {v : Bool} : hdr (setFree m b v) b = { hdr m b with free := v } := by
  have hv : (m.put8 (b + 8) (if v then 1 else 0) (b + 8) != 0) = v := by
    rw [Mem.put8, Mem.store_in (Nat.le_refl _) (Nat.lt_succ_self _)]
    cases v <;> rfl
  simp (disch := omega) only [hdr, magic, size, Hdr.free, next, prev, setFree, get32_put8_out, hv]

/-- The five stores that fill in a header. -/
def putHeader (m : Mem) (b : Nat) (h : Header) : Mem :=
  setPrev (setNext (setFree (setSize (setMagic m b h.magic) b h.size) b h.free) b h.next) b h.prev

/-- Every field fits its word. -/
structure Header.Fits (h : Header) : Prop where
  magic : h.magic < 2 ^ 32
  size : h.size < 2 ^ 32
  next : h.next < 2 ^ 32
  prev : h.prev < 2 ^ 32

theorem hdr_putHeader_self {h : Header} (hfit : h.Fits) : hdr (putHeader m b h) b = h := by
  have hmod : ∀ {v : Nat}, v < 2 ^ 32 → v % 2 ^ 32 = v := Nat.mod_eq_of_lt
  simp only [putHeader, hdr_set_self, hdr_setFree_self, hmod hfit.magic, hmod hfit.size,
    hmod hfit.next, hmod hfit.prev]

theorem hdr_putHeader_ne {h : Header} (hne : Far b c ∧ c ≠ b) :
    hdr (putHeader m b h) c = hdr m c := by
  rw [putHeader, hdr_setPrev_ne hne, hdr_setNext_ne hne, hdr_setFree_ne hne, hdr_setSize_ne hne,
    hdr_setMagic_ne hne]

theorem putHeader_off {h : Header} (hoff : Off b x) : putHeader m b h x = m x := by
  unfold putHeader
  rw [setPrev_off hoff, setNext_off hoff, setFree_off hoff, setSize_off hoff, setMagic_off hoff]

end stores

/-! ### The invariant -/

variable {a : Arena} {m m' : Mem} {kept : Finset Nat} {b c : Blk} {l r bs : List Blk} {size p : Nat}

/-- Block `b` is in memory, with its neighbours at `p` and `n`. -/
def At (m : Mem) (b : Blk) (p n : Nat) : Prop := hdr m b.addr = ⟨HEAP_MAGIC, b.size, b.free, n, p⟩

theorem At.fields {n : Nat} (h : At m b p n) : magic m b.addr = HEAP_MAGIC ∧
    Hdr.size m b.addr = b.size ∧ Hdr.free m b.addr = b.free ∧ next m b.addr = n ∧
      prev m b.addr = p := by
  simpa only [At, hdr, Header.mk.injEq] using h

/-- A block by itself: it is aligned and lies in the frames of the arena. -/
structure BlkOk (kept : Finset Nat) (b : Blk) : Prop where
  pos : 0 < b.addr
  align : b.addr % 8 = 0
  size : b.size % 8 = 0
  le : b.stop 24 ≤ 2 ^ 32
  inside : ∀ x, b.addr ≤ x → x < b.stop 24 → x / 4096 ∈ kept

/-- The bytes that a list of blocks takes. -/
def bytes (bs : List Blk) : Nat := (bs.map fun b => b.size + 24).sum

/-- The arena is the list `bs`, which takes up the frames `kept`. -/
structure Arena.Wf (a : Arena) (m : Mem) (kept : Finset Nat) (bs : List Blk) : Prop where
  linked : Linked.Seg Blk.addr (At m) 0 bs 0
  head : a.head = Linked.first Blk.addr 0 bs
  tail : a.tail = Linked.last Blk.addr 0 bs
  ok : ∀ b ∈ bs, BlkOk kept b
  sep : bs.Pairwise (Blk.Sep 24)
  total : bytes bs = 4096 * kept.card

/-- Byte `x` belongs to nobody but the owner of a block, or to none of the blocks. -/
def Quiet (bs : List Blk) (x : Nat) : Prop :=
  ∀ c ∈ bs, Off c.addr x ∧ (c.free = true → x < c.addr ∨ c.stop 24 ≤ x)

/-- Every byte that changed lies in a header. -/
def Frame (m m' : Mem) (bs : List Blk) : Prop := ∀ x, (∀ c ∈ bs, Off c.addr x) → m' x = m x

/-- Every byte that changed lies in a header or in a free block. -/
def Keeps (m m' : Mem) (bs : List Blk) : Prop := ∀ x, Quiet bs x → m' x = m x

theorem Frame.keeps (h : Frame m m' bs) : Keeps m m' bs := fun x hx => h x fun c hc => (hx c hc).1

/-- The blocks that are handed out. -/
def used (bs : List Blk) : Set Blk := { b | b ∈ bs ∧ b.free = false }

@[simp] theorem mem_used : b ∈ used bs ↔ b ∈ bs ∧ b.free = false := Iff.rfl

@[simp] theorem used_append (l r : List Blk) : used (l ++ r) = used l ∪ used r := by
  ext d
  simp [or_and_right]

theorem used_cons_free (h : b.free = true) : used (b :: bs) = used bs := by
  ext d
  simp only [mem_used, List.mem_cons, or_and_right, or_iff_right_iff_imp, and_imp]
  rintro rfl hd
  simp [h] at hd

theorem used_cons_taken (h : b.free = false) : used (b :: bs) = insert b (used bs) := by
  ext d
  simp only [mem_used, List.mem_cons, or_and_right, Set.mem_insert_iff]
  constructor
  · rintro (⟨rfl, -⟩ | hd)
    · exact Or.inl rfl
    · exact Or.inr hd
  · rintro (rfl | hd)
    · exact Or.inl ⟨rfl, h⟩
    · exact Or.inr hd

theorem apart_of_sep (h : Blk.Sep 24 b c) : Far b.addr c.addr ∧ c.addr ≠ b.addr := by
  unfold Blk.Sep Blk.stop at h
  unfold Far
  omega

namespace Arena.Wf

section

variable (h : a.Wf m kept (l ++ b :: r))
include h

/-- The list cut at a block. -/
theorem cut :
    Linked.Seg Blk.addr (At m) 0 l b.addr ∧
      At m b (Linked.last Blk.addr 0 l) (Linked.first Blk.addr 0 r) ∧
      Linked.Seg Blk.addr (At m) b.addr r 0 := by
  simpa using h.linked

theorem okAt : BlkOk kept b := h.ok b (by simp)

theorem addr_ne : b.addr ≠ 0 := Nat.pos_iff_ne_zero.mp h.okAt.pos

/-- The same list, seen from the next block. -/
theorem shift : a.Wf m kept ((l ++ [b]) ++ r) := by simpa using h

/-- A block is apart from those before it and those behind it. -/
theorem sepAt :
    (∀ c ∈ l, Blk.Sep 24 b c) ∧ (∀ c ∈ r, Blk.Sep 24 b c) := by
  have := h.sep
  simp only [List.pairwise_append, List.pairwise_cons, List.mem_cons] at this
  obtain ⟨-, ⟨hr, -⟩, hl⟩ := this
  exact ⟨fun c hc => (hl c hc b (Or.inl rfl)).symm, hr⟩

end

end Arena.Wf

/-- Nodes whose headers are as before. -/
theorem seg_congr {n : Nat} (h : Linked.Seg Blk.addr (At m) p l n)
    (hm : ∀ c ∈ l, hdr m' c.addr = hdr m c.addr) : Linked.Seg Blk.addr (At m') p l n :=
  h.mono fun c hc _ _ hat => (hm c hc).trans hat

@[simp] theorem bytes_nil : bytes [] = 0 := rfl

@[simp] theorem bytes_cons (b : Blk) (bs : List Blk) :
    bytes (b :: bs) = b.size + 24 + bytes bs := by
  simp [bytes]

@[simp] theorem bytes_append (l r : List Blk) : bytes (l ++ r) = bytes l + bytes r := by
  simp [bytes]

/-- A piece of the list is replaced by blocks that take the same bytes. -/
theorem Arena.Wf.reshape {a' : Arena} (old new : List Blk) (h : a.Wf m kept (l ++ (old ++ r)))
    (hlinked : Linked.Seg Blk.addr (At m') 0 (l ++ (new ++ r)) 0) (hhead : a'.head = a.head)
    (hfirst : Linked.first Blk.addr 0 (new ++ r) = Linked.first Blk.addr 0 (old ++ r))
    (htail : a'.tail = Linked.last Blk.addr 0 (l ++ (new ++ r))) (hok : ∀ b ∈ new, BlkOk kept b)
    (hsep : (l ++ (new ++ r)).Pairwise (Blk.Sep 24)) (hbytes : bytes new = bytes old) :
    a'.Wf m' kept (l ++ (new ++ r)) where
  linked := hlinked
  head := by
    rw [hhead, h.head, Linked.first_append _ l, Linked.first_append _ l, hfirst]
  tail := htail
  ok b hb := by
    simp only [List.mem_append] at hb
    rcases hb with hb | hb | hb
    · exact h.ok b (by simp [hb])
    · exact hok b hb
    · exact h.ok b (by simp [hb])
  sep := hsep
  total := by
    have := h.total
    simp only [bytes_append] at this ⊢
    omega

/-! ### A free flag -/

theorem Arena.Wf.setFree (h : a.Wf m kept (l ++ b :: r)) (v : Bool) :
    a.Wf (Hdr.setFree m b.addr v) kept (l ++ { b with free := v } :: r) := by
  obtain ⟨hl, hb, hr⟩ := h.cut
  obtain ⟨hsl, hsr⟩ := h.sepAt
  refine h.reshape [b] [{ b with free := v }] ?_ rfl rfl ?_ ?_ ?_ rfl
  · have hself : At (Hdr.setFree m b.addr v) { b with free := v } (Linked.last Blk.addr 0 l)
        (Linked.first Blk.addr 0 r) := by
      unfold At at hb ⊢
      rw [hdr_setFree_self, hb]
    simpa using ⟨seg_congr hl fun c hc => hdr_setFree_ne (apart_of_sep (hsl c hc)), hself,
      seg_congr hr fun c hc => hdr_setFree_ne (apart_of_sep (hsr c hc))⟩
  · rw [h.tail]
    simp
  · simpa using ⟨h.okAt.pos, h.okAt.align, h.okAt.size, h.okAt.le, h.okAt.inside⟩
  · have := h.sep
    simp only [List.pairwise_append, List.pairwise_cons, List.cons_append, List.nil_append,
      List.mem_cons, forall_eq_or_imp] at this ⊢
    exact this

/-! ### The link back -/

/-- The store `block->next->prev = p`, when there is a block behind. -/
def setFirstPrev (m : Mem) (r : List Blk) (p : Nat) : Mem :=
  match r with
  | [] => m
  | c :: _ => setPrev m c.addr p

theorem hdr_setFirstPrev {x : Nat} (h : ∀ c ∈ r, Far c.addr x ∧ x ≠ c.addr) :
    hdr (setFirstPrev m r p) x = hdr m x := by
  cases r with
  | nil => rfl
  | cons c r => exact hdr_setPrev_ne (h c (by simp))

theorem setFirstPrev_off {x : Nat} (h : ∀ c ∈ r, Off c.addr x) : setFirstPrev m r p x = m x := by
  cases r with
  | nil => rfl
  | cons c r => exact setPrev_off (h c (by simp))

/-- After it the blocks behind are linked to `p`. -/
theorem seg_setFirstPrev {p' : Nat} (h : Linked.Seg Blk.addr (At m) p r 0) (hp : p' < 2 ^ 32)
    (hsep : r.Pairwise (Blk.Sep 24)) : Linked.Seg Blk.addr (At (setFirstPrev m r p')) p' r 0 := by
  cases r with
  | nil => trivial
  | cons c r =>
    rw [List.pairwise_cons] at hsep
    refine h.relink (fun x hx n hat => ?_) fun d hd _ _ hat => ?_
    · obtain rfl : c = x := Option.some.inj hx
      unfold At at hat ⊢
      rw [setFirstPrev, hdr_set_self.2.2.2, hat, Nat.mod_eq_of_lt hp]
    · exact (hdr_setPrev_ne (apart_of_sep (hsep.1 d hd))).trans hat

/-! ### Splitting -/

/-- A block cut behind `size` bytes, if what is left makes a block. -/
def cutAt (b : Blk) (size : Nat) : List Blk :=
  if b.size - size < 32 then [b]
  else [{ b with size }, ⟨b.addr + 24 + size, b.size - size - 24, true⟩]

/-- What `split_block` stores when it does cut: a new header, and the links around it. -/
theorem splitBlock_eq {block newBlock s nx pv : Nat} {f : Bool}
    (hb : hdr m block = ⟨HEAP_MAGIC, s, f, nx, pv⟩) (hroom : ¬ s < size + 32)
    (hnew : newBlock = block + 24 + size) (hlt : newBlock < 2 ^ 32) :
    splitBlock a m block size =
      let m1 := putHeader m newBlock ⟨HEAP_MAGIC, s - size - 24, true, nx, block⟩
      if nx ≠ 0 then
        (a, setSize (setNext (setPrev m1 nx newBlock) block newBlock) block size)
      else ({ a with tail := newBlock }, setSize (setNext m1 block newBlock) block size) := by
  have hsize : Hdr.size m block = s := congrArg Header.size hb
  have hne : Far newBlock block ∧ block ≠ newBlock := by
    unfold Far
    omega
  have hwrap : wrap (block + HEADER_SIZE + size) = newBlock := by
    rw [hnew]
    exact Nat.mod_eq_of_lt (hnew ▸ hlt)
  -- the header of the block is read again between the stores to the new one
  have hsize1 : ∀ v, Hdr.size (setMagic m newBlock v) block = s := fun v =>
    congrArg Header.size ((hdr_setMagic_ne hne).trans hb)
  have hnext2 : ∀ v w, next (Hdr.setFree (setSize (setMagic m newBlock v) newBlock w) newBlock true)
      block = nx := fun v w => congrArg Header.next
    ((hdr_setFree_ne hne).trans ((hdr_setSize_ne hne).trans ((hdr_setMagic_ne hne).trans hb)))
  have hnext3 : ∀ h, next (putHeader m newBlock h) block = nx := fun h =>
    congrArg Header.next ((hdr_putHeader_ne hne).trans hb)
  unfold splitBlock
  rw [hsize, if_neg (by omega), if_neg (by unfold HEADER_SIZE ALIGN; omega)]
  dsimp only
  rw [hwrap, hsize1, hnext2]
  have hput : setPrev (setNext (Hdr.setFree (setSize (setMagic m newBlock HEAP_MAGIC) newBlock
      (s - size - HEADER_SIZE)) newBlock true) newBlock nx) newBlock block =
      putHeader m newBlock ⟨HEAP_MAGIC, s - size - 24, true, nx, block⟩ := rfl
  rw [hput, hnext3]
  split <;> rfl

namespace Arena.Wf

theorem first_lt (h : a.Wf m kept (l ++ b :: r)) : Linked.first Blk.addr 0 r < 2 ^ 32 := by
  rw [← h.cut.2.1.fields.2.2.2.1]
  exact Mem.get32_lt _ _

/-- The tail does not depend on what comes before the last block. -/
theorem tail_cons (h : a.Wf m kept (l ++ b :: c :: r)) (p : Nat) :
    { a with tail := Linked.last Blk.addr p (c :: r) } = a := by
  have := h.tail
  simp only [Linked.last_append, Linked.last_cons] at this ⊢
  rw [← this]

section

variable (h : a.Wf m kept (l ++ b :: r))
include h

theorem splitBlock_wf_eq (hroom : size + 32 ≤ b.size) : Kernel.splitBlock a m b.addr size =
      ({ a with tail := Linked.last Blk.addr (b.addr + 24 + size) r },
        setSize (setNext (setFirstPrev (putHeader m (b.addr + 24 + size)
          ⟨HEAP_MAGIC, b.size - size - 24, true, Linked.first Blk.addr 0 r, b.addr⟩) r
            (b.addr + 24 + size)) b.addr (b.addr + 24 + size)) b.addr size) := by
  have hle := h.okAt.le
  unfold Blk.stop at hle
  rw [splitBlock_eq h.cut.2.1 (by omega) rfl (by omega)]
  dsimp only
  cases r with
  | nil => rfl
  | cons c r =>
    rw [h.tail_cons]
    exact if_pos h.shift.addr_ne

theorem sep_right : r.Pairwise (Blk.Sep 24) := by
  have := h.sep
  simp only [List.pairwise_append, List.pairwise_cons] at this
  exact this.2.1.2

/-- Blocks before and behind a block are apart. -/
theorem sep_left_right {d : Blk} (hc : c ∈ l) (hd : d ∈ r) : Blk.Sep 24 d c := by
  have := h.sep
  simp only [List.pairwise_append, List.mem_cons] at this
  exact (this.2.2 c hc d (Or.inr hd)).symm

/-- The stores of `split_block` cut the block in two. -/
theorem splitBlock_cut (hal : size % 8 = 0) (hroom : size + 32 ≤ b.size) :
    (Kernel.splitBlock a m b.addr size).1.Wf (Kernel.splitBlock a m b.addr size).2 kept
      (l ++ ({ b with size } :: ⟨b.addr + 24 + size, b.size - size - 24, true⟩ :: r)) := by
  obtain ⟨hl, hb, hr⟩ := h.cut
  obtain ⟨hsl, hsr⟩ := h.sepAt
  have hok := h.okAt
  have hle := hok.le
  have halign := hok.align
  have hsz := hok.size
  have hpos := hok.pos
  rw [h.splitBlock_wf_eq hroom]
  generalize hnew : b.addr + 24 + size = newBlock
  -- the new header lies inside the block
  have hin : ∀ c : Blk, Blk.Sep 24 b c → (Far newBlock c.addr ∧ c.addr ≠ newBlock) ∧
      Far c.addr newBlock ∧ newBlock ≠ c.addr := by
    intro c hc
    unfold Blk.Sep Blk.stop at hc
    unfold Far
    omega
  have hnb : (Far newBlock b.addr ∧ b.addr ≠ newBlock) ∧ Far b.addr newBlock ∧
      newBlock ≠ b.addr := by
    unfold Far
    omega
  unfold Blk.stop at hle
  set H : Header := ⟨HEAP_MAGIC, b.size - size - 24, true, Linked.first Blk.addr 0 r, b.addr⟩
  have hfit : H.Fits := ⟨show HEAP_MAGIC < 2 ^ 32 by decide, show b.size - size - 24 < _ by omega,
    h.first_lt, show b.addr < _ by omega⟩
  set m1 := putHeader m newBlock H
  set m2 := setFirstPrev m1 r newBlock
  set m3 := setSize (setNext m2 b.addr newBlock) b.addr size
  have h3 : ∀ {x}, Far b.addr x ∧ x ≠ b.addr → hdr m3 x = hdr m2 x := fun hx =>
    (hdr_setSize_ne hx).trans (hdr_setNext_ne hx)
  have hself : hdr m3 b.addr = ⟨HEAP_MAGIC, size, b.free, newBlock, Linked.last Blk.addr 0 l⟩ := by
    rw [hdr_set_self.2.1, hdr_set_self.2.2.1,
      hdr_setFirstPrev fun c hc => apart_of_sep (hsr c hc).symm,
      hdr_putHeader_ne hnb.1, hb, Nat.mod_eq_of_lt (show size < 2 ^ 32 by omega),
      Nat.mod_eq_of_lt (show newBlock < 2 ^ 32 by omega)]
  have hnewh : hdr m3 newBlock = H := by
    rw [h3 hnb.2, hdr_setFirstPrev fun c hc => (hin c (hsr c hc)).2, hdr_putHeader_self hfit]
  refine h.reshape [b] [{ b with size }, ⟨newBlock, b.size - size - 24, true⟩]
    ?_ rfl rfl ?_ ?_ ?_ ?_
  · have hleft : Linked.Seg Blk.addr (At m3) 0 l b.addr := seg_congr hl fun c hc => by
      rw [h3 (apart_of_sep (hsl c hc)),
        hdr_setFirstPrev fun d hd => apart_of_sep (h.sep_left_right hc hd),
        hdr_putHeader_ne (hin c (hsl c hc)).1]
    have hright : Linked.Seg Blk.addr (At m3) newBlock r 0 := by
      have hr1 : Linked.Seg Blk.addr (At m1) b.addr r 0 :=
        seg_congr hr fun c hc => hdr_putHeader_ne (hin c (hsr c hc)).1
      exact seg_congr (seg_setFirstPrev hr1 (by omega) h.sep_right) fun c hc =>
        h3 (apart_of_sep (hsr c hc))
    simpa using ⟨hleft, hself, hnewh, hright⟩
  · simp
  · simp only [List.mem_cons, List.not_mem_nil, or_false]
    rintro c (rfl | rfl)
    · refine ⟨hpos, halign, hal, ?_, fun x h1 h2 => hok.inside x h1 ?_⟩
      · unfold Blk.stop
        dsimp only
        omega
      · unfold Blk.stop at h2 ⊢
        dsimp only at h2
        omega
    · refine ⟨by dsimp only; omega, by dsimp only; omega, by dsimp only; omega, ?_,
        fun x h1 h2 => hok.inside x (by dsimp only at h1; omega) ?_⟩
      · unfold Blk.stop
        dsimp only
        omega
      · unfold Blk.stop at h2 ⊢
        dsimp only at h2
        omega
  · refine Blk.sep_split h.sep rfl ?_ ?_
    · unfold Blk.stop
      exact hnew.symm
    · unfold Blk.stop
      dsimp only
      omega
  · simp only [bytes_cons, bytes_nil]
    omega

/-- `split_block` cuts the block when there is room, and writes to headers only. -/
theorem splitBlock (hsize : size ≤ b.size) (hal : size % 8 = 0) :
    (Kernel.splitBlock a m b.addr size).1.Wf (Kernel.splitBlock a m b.addr size).2 kept
      (l ++ (cutAt b size ++ r)) ∧
    Frame m (Kernel.splitBlock a m b.addr size).2 (l ++ (cutAt b size ++ r)) := by
  unfold cutAt
  by_cases hroom : b.size - size < 32
  · have heq : Kernel.splitBlock a m b.addr size = (a, m) := by
      unfold Kernel.splitBlock
      rw [h.cut.2.1.fields.2.1, if_neg (by omega), if_pos (show _ < HEADER_SIZE + ALIGN from hroom)]
    rw [if_pos hroom, heq]
    exact ⟨h, fun _ _ => rfl⟩
  · rw [if_neg hroom]
    refine ⟨h.splitBlock_cut hal (by omega), fun x hx => ?_⟩
    have hoff : ∀ c ∈ r, Off c.addr x := fun c hc => hx c (by simp [hc])
    have hb : Off b.addr x := hx { b with size } (by simp)
    have hn := hx ⟨b.addr + 24 + size, b.size - size - 24, true⟩ (by simp)
    rw [h.splitBlock_wf_eq (by omega)]
    dsimp only
    rw [setSize_off hb, setNext_off hb, setFirstPrev_off hoff, putHeader_off hn]

end

/-! ### Merging -/

section

variable (h : a.Wf m kept (l ++ b :: c :: r))
include h

/-- The stores of `coalesce` when a block takes the one behind it. -/
theorem mergeNext_eq (hfree : c.free = true) (hadj : c.addr = b.stop 24) : mergeNext a m b.addr =
      ({ a with tail := Linked.last Blk.addr b.addr r },
        setFirstPrev (setNext (setSize m b.addr (b.size + (24 + c.size))) b.addr
          (Linked.first Blk.addr 0 r)) r b.addr) := by
  have hc := h.shift.cut.2.1
  have hok := h.shift.okAt
  have hbc := apart_of_sep ((h.sepAt).2 c (by simp))
  obtain ⟨-, hsize, -, hnext, -⟩ := h.cut.2.1.fields
  obtain ⟨-, hcsize, hcfree, -⟩ := hc.fields
  rw [Linked.first_cons] at hnext
  have hcnext : ∀ v, next (setSize m b.addr v) c.addr = Linked.first Blk.addr 0 r := fun v =>
    congrArg Header.next ((hdr_setSize_ne hbc).trans hc)
  have hcnext' : ∀ v w, next (setNext (setSize m b.addr v) b.addr w) c.addr =
      Linked.first Blk.addr 0 r := fun v w =>
    (congrArg Header.next (hdr_setNext_ne hbc)).trans (hcnext v)
  have hwrap : wrap (b.addr + HEADER_SIZE + b.size) = c.addr := by
    have := hok.le
    rw [hadj]
    unfold Blk.stop at this hadj ⊢
    exact Nat.mod_eq_of_lt (show b.addr + 24 + b.size < 2 ^ 32 by omega)
  have hcond : next m b.addr ≠ 0 ∧ Hdr.free m (next m b.addr) ∧
      wrap (b.addr + HEADER_SIZE + Hdr.size m b.addr) = next m b.addr := by
    rw [hnext, hsize]
    exact ⟨h.shift.addr_ne, hcfree.trans hfree, hwrap⟩
  unfold mergeNext
  rw [if_pos hcond]
  dsimp only
  rw [hnext, hsize, hcsize, hcnext, hcnext']
  cases r with
  | nil => rfl
  | cons d r =>
    rw [h.shift.tail_cons]
    exact if_pos h.shift.shift.addr_ne

/-- The block that two neighbours become. -/
theorem merged_ok (hadj : c.addr = b.stop 24) :
    BlkOk kept { b with size := b.size + (24 + c.size) } := by
  have hb := h.okAt
  have hc : BlkOk kept c := h.ok c (by simp)
  have hbs := hb.size
  have hcs := hc.size
  have hcl := hc.le
  unfold Blk.stop at hadj hcl
  refine ⟨hb.pos, hb.align, show (b.size + (24 + c.size)) % 8 = 0 by omega, ?_, fun x h1 h2 => ?_⟩
  · unfold Blk.stop
    dsimp only
    omega
  · unfold Blk.stop at h2
    dsimp only at h1 h2
    by_cases hx : x < c.addr
    · exact hb.inside x h1 (by unfold Blk.stop; omega)
    · exact hc.inside x (by omega) (by unfold Blk.stop; omega)

theorem mergeNext_merge (hfree : c.free = true) (hadj : c.addr = b.stop 24) :
    (mergeNext a m b.addr).1.Wf (mergeNext a m b.addr).2 kept
      (l ++ { b with size := b.size + (24 + c.size) } :: r) ∧
    Frame m (mergeNext a m b.addr).2 (l ++ { b with size := b.size + (24 + c.size) } :: r) := by
  obtain ⟨hl, hb, hr⟩ := h.cut
  obtain ⟨hsl, hsr⟩ := h.sepAt
  have hmok := h.merged_ok hadj
  have hmle := hmok.le
  unfold Blk.stop at hmle
  dsimp only at hmle
  have hsr' : ∀ d ∈ r, Blk.Sep 24 b d := fun d hd => hsr d (by simp [hd])
  rw [h.mergeNext_eq hfree hadj]
  set m1 := setNext (setSize m b.addr (b.size + (24 + c.size))) b.addr (Linked.first Blk.addr 0 r)
  have h1 : ∀ {x}, Far b.addr x ∧ x ≠ b.addr → hdr m1 x = hdr m x := fun hx =>
    (hdr_setNext_ne hx).trans (hdr_setSize_ne hx)
  have hself : hdr (setFirstPrev m1 r b.addr) b.addr = ⟨HEAP_MAGIC, b.size + (24 + c.size), b.free,
      Linked.first Blk.addr 0 r, Linked.last Blk.addr 0 l⟩ := by
    rw [hdr_setFirstPrev fun d hd => apart_of_sep (hsr' d hd).symm, hdr_set_self.2.2.1,
      hdr_set_self.2.1, hb, Nat.mod_eq_of_lt h.shift.first_lt,
      Nat.mod_eq_of_lt (show b.size + (24 + c.size) < 2 ^ 32 by omega)]
  refine ⟨h.reshape [b, c] [{ b with size := b.size + (24 + c.size) }]
    ?_ rfl rfl ?_ ?_ ?_ ?_, fun x hx => ?_⟩
  · have hleft : Linked.Seg Blk.addr (At (setFirstPrev m1 r b.addr)) 0 l b.addr :=
      seg_congr hl fun d hd => by
        rw [hdr_setFirstPrev fun e he =>
          apart_of_sep (h.sep_left_right hd (List.mem_cons_of_mem c he)),
          h1 (apart_of_sep (hsl d hd))]
    have hright : Linked.Seg Blk.addr (At (setFirstPrev m1 r b.addr)) b.addr r 0 := by
      have hr1 : Linked.Seg Blk.addr (At m1) c.addr r 0 :=
        seg_congr hr.2 fun d hd => h1 (apart_of_sep (hsr' d hd))
      exact seg_setFirstPrev hr1 (by omega) h.shift.sep_right
    simpa using ⟨hleft, hself, hright⟩
  · simp
  · simpa using hmok
  · refine Blk.sep_merge (by decide) h.sep hadj rfl ?_
    unfold Blk.stop at hadj ⊢
    dsimp only
    omega
  · simp only [bytes_cons, bytes_nil]
    omega
  · have hoff : Off b.addr x := hx { b with size := b.size + (24 + c.size) } (by simp)
    dsimp only
    rw [setFirstPrev_off fun d hd => hx d (by simp [hd])]
    exact (setNext_off hoff).trans (setSize_off hoff)

end

/-- The first half of `coalesce`: a free block behind that meets this one is taken. -/
theorem mergeNext_spec (h : a.Wf m kept (l ++ b :: r)) :
    ∃ b' r', b'.addr = b.addr ∧ b'.free = b.free ∧ used r' = used r ∧
      (mergeNext a m b.addr).1.Wf (mergeNext a m b.addr).2 kept (l ++ b' :: r') ∧
      Keeps m (mergeNext a m b.addr).2 (l ++ b' :: r') ∧
      (b.free = true → ∀ x, Quiet (l ++ b' :: r') x → Quiet (l ++ b :: r) x) := by
  obtain ⟨-, hsize, -, hnext, -⟩ := h.cut.2.1.fields
  by_cases hmerge : ∃ c r', r = c :: r' ∧ c.free = true ∧ c.addr = b.stop 24
  · obtain ⟨c, r', rfl, hfree, hadj⟩ := hmerge
    obtain ⟨hwf, hframe⟩ := h.mergeNext_merge hfree hadj
    refine ⟨{ b with size := b.size + (24 + c.size) }, r', rfl, rfl, (used_cons_free hfree).symm,
      hwf, hframe.keeps, fun hbf x hx d hd => ?_⟩
    · -- the two old blocks lie in the new one, which is free
      have hnew := (hx { b with size := b.size + (24 + c.size) } (by simp)).2 hbf
      unfold Blk.stop at hadj hnew
      dsimp only at hnew
      simp only [List.mem_append, List.mem_cons] at hd
      rcases hd with hd | rfl | rfl | hd
      · exact hx d (by simp [hd])
      · unfold Off Blk.stop
        omega
      · unfold Off Blk.stop
        omega
      · exact hx d (by simp [hd])
  · have heq : mergeNext a m b.addr = (a, m) := by
      unfold mergeNext
      rw [if_neg]
      rintro ⟨hne, hfree, hadj⟩
      rw [hnext] at hne hfree hadj
      cases r with
      | nil => exact hne rfl
      | cons c r =>
        have hle := h.okAt.le
        have hpos := h.shift.okAt.pos
        rw [Linked.first_cons, h.shift.cut.2.1.fields.2.2.1] at hfree
        rw [hsize, Linked.first_cons] at hadj
        refine hmerge ⟨c, r, rfl, hfree, ?_⟩
        unfold Blk.stop at hle ⊢
        change (b.addr + 24 + b.size) % 2 ^ 32 = c.addr at hadj
        omega
    rw [heq]
    exact ⟨b, r, rfl, rfl, rfl, h, fun _ _ => rfl, fun _ _ hx => hx⟩

/-- The second half is the first one, seen from the block before. -/
theorem mergePrev_eq (h : a.Wf m kept (l ++ b :: c :: r)) (hfree : c.free = true) :
    mergePrev a m c.addr = if b.free then mergeNext a m b.addr else (a, m) := by
  obtain ⟨-, -, hbf, hnext, -⟩ := h.cut.2.1.fields
  obtain ⟨-, -, hcf, -, hprev⟩ := h.shift.cut.2.1.fields
  simp only [Linked.first_cons, Linked.last_append, Linked.last_cons,
    Linked.last_nil] at hnext hprev
  unfold mergePrev mergeNext
  rw [hprev, hnext, hbf, hcf, hfree]
  cases b.free with
  | false => simp
  | true =>
    simp only [h.addr_ne, h.shift.addr_ne, ne_eq, not_false_eq_true, true_and, if_true]

/-- `coalesce` around a free block changes no block that is handed out. -/
theorem coalesce (h : a.Wf m kept (l ++ b :: r)) (hfree : b.free = true) :
    ∃ bs, (coalesce a m b.addr).1.Wf (Kernel.coalesce a m b.addr).2 kept bs ∧
      Keeps m (Kernel.coalesce a m b.addr).2 bs ∧ used bs = used (l ++ b :: r) ∧
      ∀ x, Quiet bs x → Quiet (l ++ b :: r) x := by
  obtain ⟨b', r', haddr, hf, hused, h1, hframe, hquiet⟩ := h.mergeNext_spec
  unfold Kernel.coalesce
  generalize mergeNext a m b.addr = s at h1 hframe
  obtain ⟨a1, m1⟩ := s
  dsimp only at h1 hframe ⊢
  have hused1 : used (l ++ b' :: r') = used (l ++ b :: r) := by
    rw [used_append, used_append, used_cons_free (hf.trans hfree), used_cons_free hfree, hused]
  rcases List.eq_nil_or_concat' l with rfl | ⟨l', p, rfl⟩
  · -- nothing comes before
    have hprev : prev m1 b.addr = 0 := haddr ▸ h1.cut.2.1.fields.2.2.2.2
    refine ⟨b' :: r', ?_, ?_, hused1, hquiet hfree⟩
    · unfold mergePrev
      rw [if_neg (by simp [hprev])]
      exact h1
    · unfold mergePrev
      rw [if_neg (by simp [hprev])]
      exact hframe
  · simp only [List.append_assoc, List.cons_append, List.nil_append] at h1 hframe hused1 hquiet ⊢
    rw [← haddr, h1.mergePrev_eq (hf.trans hfree)]
    cases hp : p.free with
    | false => exact ⟨_, h1, hframe, hused1, hquiet hfree⟩
    | true =>
      obtain ⟨p', r2, -, hf2, hused2, h2, hframe2, hquiet2⟩ := h1.mergeNext_spec
      refine ⟨l' ++ p' :: r2, h2, fun x hx => ?_, ?_, fun x hx => hquiet hfree x (hquiet2 hp x hx)⟩
      · rw [if_pos rfl, hframe2 x hx, hframe x (hquiet2 hp x hx)]
      · rw [← hused1, used_append, used_append, used_cons_free (hf2.trans hp), used_cons_free hp,
          hused2]

end Arena.Wf

end Crusadia.Kernel
