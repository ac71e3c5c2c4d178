import Crusadia.Kernel.Boot

/-!
# Crusadia.Kernel.Frames

**Runs of the frame allocator** (`pmm.c`): what holds of the bitmap over any sequence of
calls, and not over one call.

There are two kinds of runs. Clients call `pmm_alloc_block`, and `pmm_free_block` on what
they were given (`Frames.Run`); frame 0 is never free, so the address 0 means that
no frame is left. Anybody may call anything with any arguments (`PmmCall`); then the counter
is right except where `pmm_init_region` sets the bit of frame 0 without counting it.
The last section is about reserved ranges, of which only whole pages are taken out.
-/

namespace Crusadia.Kernel

/-! ### Clients of the allocator -/

/-- The bitmap and the outstanding addresses: handed out and not yet freed. -/
structure Frames where
  pmm : Pmm
  out : Finset Nat

inductive FrameOp
  | alloc
  | free (addr : Nat)
  deriving DecidableEq

namespace Frames

/-- Only outstanding addresses are freed. -/
def Allowed (σ : Frames) : FrameOp → Prop
  | .alloc => True
  | .free addr => addr ∈ σ.out

def step (σ : Frames) : FrameOp → Frames
  | .alloc =>
    let (a, p) := σ.pmm.allocBlock
    ⟨p, if a = 0 then σ.out else insert a σ.out⟩
  | .free addr => ⟨σ.pmm.freeBlock addr, σ.out.erase addr⟩

/-- The states that clients reach from a bitmap of which nothing is handed out. -/
inductive Run (p : Pmm) : Frames → Prop
  | init : Run p ⟨p, ∅⟩
  | step {σ : Frames} (h : Run p σ) (op : FrameOp) (hop : σ.Allowed op) : Run p (σ.step op)

/-- Outstanding addresses are those of frames that are not free, and frame 0 is neither. -/
structure Inv (σ : Frames) : Prop where
  zero : 0 ∉ σ.pmm.free
  out : ∀ a ∈ σ.out, ∃ f, a = f * 4096 ∧ f ≠ 0 ∧ f < 2 ^ 20 ∧ f ∉ σ.pmm.free

variable {σ : Frames} {p : Pmm}

theorem Inv.step (h : σ.Inv) {op : FrameOp} (hop : σ.Allowed op) : (σ.step op).Inv := by
  cases op with
  | alloc =>
    simp only [Frames.step]
    refine σ.pmm.allocBlock_cases (fun hfree => ?_) fun f p _ hmem hfree => ?_ <;> dsimp only
    · simpa using h
    · have hf : f ≠ 0 := fun h0 => h.zero (h0 ▸ hmem)
      have hlt := (Pmm.mem_free.mp hmem).1
      rw [if_neg (Nat.mul_ne_zero hf (by decide))]
      refine ⟨by simp [hfree, h.zero], fun a ha => ?_⟩
      rcases Finset.mem_insert.mp ha with rfl | ha
      · exact ⟨f, rfl, hf, hlt, by simp [hfree]⟩
      · obtain ⟨g, rfl, hg, hgl, hgf⟩ := h.out a ha
        exact ⟨g, rfl, hg, hgl, by simp [hfree, hgf]⟩
  | free addr =>
    obtain ⟨f, rfl, hf, hlt, hff⟩ := h.out addr hop
    have hfree := Pmm.free_freeBlock (p := σ.pmm) (show f * 4096 < 2 ^ 32 by omega)
    rw [Nat.mul_div_cancel f (by decide)] at hfree
    simp only [Frames.step]
    refine ⟨by simp [hfree, h.zero, hf.symm], fun a ha => ?_⟩
    obtain ⟨hne, ha⟩ := Finset.mem_erase.mp ha
    obtain ⟨g, rfl, hg, hgl, hgf⟩ := h.out a ha
    have hgne : g ≠ f := fun h => hne (by rw [h])
    exact ⟨g, rfl, hg, hgl, by simp [hfree, hgf, hgne]⟩

theorem Run.inv (h : Run p σ) (hp : 0 ∉ p.free) : σ.Inv := by
  induction h with
  | init => exact ⟨hp, by simp⟩
  | step _ op hop ih => exact ih.step hop

/-- What a client can rely on in a state. -/
structure Sound (σ : Frames) : Prop where
  /-- nothing is returned only when nothing is free -/
  none : σ.pmm.allocBlock.1 = 0 ↔ σ.pmm.free = ∅
  /-- what is returned is a frame, it was free, is not outstanding, and it alone is taken -/
  some : σ.pmm.allocBlock.1 ≠ 0 → ∃ f ∈ σ.pmm.free, σ.pmm.allocBlock.1 = f * 4096 ∧ f ≠ 0 ∧
    f * 4096 ∉ σ.out ∧ σ.pmm.allocBlock.2.free = σ.pmm.free.erase f
  /-- freeing an outstanding address adds its frame to the free ones, where it was not -/
  free : ∀ a ∈ σ.out, a / 4096 ∉ σ.pmm.free ∧
    (σ.pmm.freeBlock a).free = insert (a / 4096) σ.pmm.free

theorem Inv.sound (h : σ.Inv) : σ.Sound := by
  have hfree : ∀ a ∈ σ.out, a / 4096 ∉ σ.pmm.free ∧
      (σ.pmm.freeBlock a).free = insert (a / 4096) σ.pmm.free := fun a ha => by
    obtain ⟨f, rfl, -, hlt, hff⟩ := h.out a ha
    exact ⟨by simpa using hff, Pmm.free_freeBlock (by omega)⟩
  refine σ.pmm.allocBlock_cases (motive := fun r => σ.pmm.allocBlock = r → σ.Sound)
    (fun hempty hr => ?_) (fun f p' _ hmem herase hr => ?_) rfl
  · exact ⟨by simp [hr, hempty], by simp [hr], hfree⟩
  · have hf : f ≠ 0 := fun h0 => h.zero (h0 ▸ hmem)
    refine ⟨?_, fun _ => ⟨f, hmem, by rw [hr], hf, fun hout => ?_, by rw [hr, herase]⟩, hfree⟩
    · simp only [hr]
      exact iff_of_false (Nat.mul_ne_zero hf (by decide)) (Finset.ne_empty_of_mem hmem)
    · have := (hfree _ hout).1
      rw [Nat.mul_div_cancel f (by decide)] at this
      exact this hmem

end Frames

/-! ### The bitmap that `parse_multiboot` leaves -/

theorem zero_notMem_mmapEntry {b : Boot} (h : 0 ∉ b.pmm.free) (baseLow lenLow type : Nat) :
    0 ∉ (mmapEntry b baseLow lenLow type).pmm.free := by
  unfold mmapEntry
  split
  · simp [Pmm.mem_free_initRegion]
  · exact h

theorem zero_notMem_mmapLoop {m : Mem} {stop fuel cur : Nat} {b b' : Boot}
    (h : 0 ∉ b.pmm.free) (hrun : mmapLoop m stop fuel cur b = some b') : 0 ∉ b'.pmm.free := by
  induction fuel generalizing cur b with
  | zero =>
    unfold mmapLoop at hrun
    split at hrun
    · simp at hrun
    · simpa [← Option.some.inj hrun] using h
  | succ fuel ih =>
    unfold mmapLoop at hrun
    split at hrun
    · exact ih (zero_notMem_mmapEntry h _ _ _) hrun
    · simpa [← Option.some.inj hrun] using h

/-- Frame 0 is not free, whatever the memory map is and whether it is well formed or not. -/
theorem zero_notMem_parseMultiboot {I : Image} {m : Mem} {mb : Nat} {b b' : Boot} (hmb : mb ≠ 0)
    (h : parseMultiboot I m 0x2BADB002 mb b = some b') : 0 ∉ b'.pmm.free := by
  rw [parseMultiboot, if_neg (by decide), if_neg hmb] at h
  obtain ⟨b1, h1, rfl⟩ := Option.map_eq_some_iff.mp h
  rw [parseFb_pmm]
  have hinit : 0 ∉ b.pmm.init.free := by simp [Pmm.free_init]
  unfold parseMmap at h1
  dsimp only at h1
  split at h1
  · obtain ⟨b2, h2, h1⟩ := Option.bind_eq_some_iff.mp h1
    simp only [pure, Option.some.injEq] at h1
    have := zero_notMem_mmapLoop (b := { b with pmm := b.pmm.init }) hinit h2
    subst h1
    simp [Pmm.mem_free_deinitRegion, this]
  · simpa [← Option.some.inj h1] using hinit

/-- The allocator is sound and complete over any calls of its clients, from every bitmap that
`parse_multiboot` makes. -/
theorem Frames.sound_of_parseMultiboot {I : Image} {m : Mem} {mb : Nat} {b b' : Boot}
    {σ : Frames} (hmb : mb ≠ 0) (h : parseMultiboot I m 0x2BADB002 mb b = some b')
    (hrun : Frames.Run b'.pmm σ) : σ.Sound :=
  (hrun.inv (zero_notMem_parseMultiboot hmb h)).sound

theorem Frames.sound_of_parseMultiboot_low :
    ∃ b', parseMultiboot smallImage (oneEntryMap 0x600000 0 0x7A00000) 0x2BADB002 4 zeroBoot =
        some b' ∧ Frames.Run b'.pmm (Frames.step ⟨b'.pmm, ∅⟩ .alloc) ∧
      (Frames.step ⟨b'.pmm, ∅⟩ .alloc).Sound := by
  have hmap : HasMap (oneEntryMap 0x600000 0 0x7A00000) 4 [lowEntry] :=
    ⟨by decide, by decide, by decide, by decide⟩
  obtain ⟨b', hb', -⟩ := mem_free_parseMultiboot smallImage hmap zeroBoot
  have hrun : Frames.Run b'.pmm (Frames.step ⟨b'.pmm, ∅⟩ .alloc) :=
    Frames.Run.init.step .alloc trivial
  exact ⟨b', hb', hrun, Frames.sound_of_parseMultiboot (by decide) hb' hrun⟩

/-! ### The counter -/

/-- `pmm_count_mem`, in KiB. -/
def Pmm.countMem (p : Pmm) : Nat := ((BitVec.ofNat 32 PMM_MAX_BLOCKS - p.usedBlocks) * 4).toNat

/-- The calls that change the bitmap once `pmm_init` has run. -/
inductive PmmCall
  | initRegion (baseAddr size : Nat)
  | deinitRegion (baseAddr size : Nat)
  | allocBlock
  | freeBlock (addr : Nat)
  deriving DecidableEq

def PmmCall.run (p : Pmm) : PmmCall → Pmm
  | .initRegion baseAddr size => p.initRegion baseAddr size
  | .deinitRegion baseAddr size => p.deinitRegion baseAddr size
  | .allocBlock => p.allocBlock.2
  | .freeBlock addr => p.freeBlock addr

namespace Pmm

variable {p q : Pmm}

/-- The number of set bits in the bitmap. -/
def setBits (p : Pmm) : Nat :=
  ((Finset.range PMM_MAX_BLOCKS).filter fun f => p.bitmapTest f = true).card

/-- The counter is the number of set bits, and `pmm_count_mem` the memory of the clear ones. -/
structure Exact (p : Pmm) : Prop where
  used : p.usedBlocks.toNat = p.setBits
  mem : p.countMem = 4 * p.free.card

theorem setBits_add_card_free (p : Pmm) : p.setBits + p.free.card = 2 ^ 20 := by
  have h := Finset.card_filter_add_card_filter_not (s := Finset.range PMM_MAX_BLOCKS)
    fun f => p.bitmapTest f = true
  simp only [Bool.not_eq_true, Finset.card_range] at h
  exact h

theorem exact_iff : p.Exact ↔ p.usedBlocks.toNat + p.free.card = 2 ^ 20 := by
  have hsum := p.setBits_add_card_free
  refine ⟨fun h => h.used ▸ hsum, fun h => ⟨by omega, ?_⟩⟩
  have hmax : (BitVec.ofNat 32 PMM_MAX_BLOCKS).toNat = 2 ^ 20 := by decide
  rw [countMem, BitVec.toNat_mul, BitVec.toNat_sub, hmax]
  change (2 ^ 32 - p.usedBlocks.toNat + 2 ^ 20) % 2 ^ 32 * 4 % 2 ^ 32 = _
  omega

theorem exact_init (p : Pmm) : p.init.Exact := by
  rw [exact_iff, free_init, Finset.card_empty]
  rfl

/-- A frame is taken out and counted. -/
theorem Exact.takeOut (h : p.Exact) {f : Nat} (hf : f ∈ p.free) (hfree : q.free = p.free.erase f)
    (hused : q.usedBlocks = p.usedBlocks + 1) : q.Exact := by
  have hcard := Finset.card_erase_add_one hf
  rw [exact_iff] at h ⊢
  rw [hfree, hused, BitVec.toNat_add]
  change (p.usedBlocks.toNat + 1) % 2 ^ 32 + _ = _
  omega

/-- A frame is put back and counted. -/
theorem Exact.putBack (h : p.Exact) {f : Nat} (hf : f ∉ p.free) (hlt : f < 2 ^ 20)
    (hfree : q.free = insert f p.free) (hused : q.usedBlocks = p.usedBlocks - 1) : q.Exact := by
  have hcard := Finset.card_insert_of_notMem hf
  -- the frame's own bit is set, so that the counter is not 0
  have hle : (insert f p.free).card ≤ 2 ^ 20 := by
    refine (Finset.card_le_card fun g hg => ?_).trans_eq (Finset.card_range (2 ^ 20))
    rw [Finset.mem_range]
    rcases Finset.mem_insert.mp hg with rfl | hg
    · exact hlt
    · exact (mem_free.mp hg).1
  rw [exact_iff] at h ⊢
  rw [hfree, hused, BitVec.toNat_sub]
  change (2 ^ 32 - 1 + p.usedBlocks.toNat) % 2 ^ 32 + _ = _
  omega

theorem free_bitmapClear {f : Nat} (hlt : f < PMM_MAX_BLOCKS) :
    (p.bitmapClear f).free = insert f p.free := by
  ext g
  by_cases hg : g = f <;> simp [mem_free, hg, hlt]

theorem free_bitmapSet (f : Nat) : (p.bitmapSet f).free = p.free.erase f := by
  ext g
  by_cases hg : g = f <;> simp [mem_free, hg]

theorem Exact.initBlocks (h : p.Exact) (n bit : Nat) : (Pmm.initBlocks n bit p).Exact := by
  induction n generalizing bit p with
  | zero => exact h
  | succ n ih =>
    rw [Pmm.initBlocks]
    split
    · exact h
    · rename_i hbit
      refine ih ?_ _
      split
      · rename_i ht
        exact h.putBack (by simp [mem_free, ht]) (Nat.lt_of_not_le hbit)
          (free_bitmapClear (Nat.lt_of_not_le hbit)) rfl
      · exact h

theorem Exact.deinitBlocks (h : p.Exact) (n bit : Nat) : (Pmm.deinitBlocks n bit p).Exact := by
  induction n generalizing bit p with
  | zero => exact h
  | succ n ih =>
    rw [Pmm.deinitBlocks]
    split
    · exact h
    · rename_i hbit
      refine ih ?_ _
      split
      · rename_i ht
        exact h.takeOut (mem_free.mpr ⟨Nat.lt_of_not_le hbit, by simpa using ht⟩)
          (free_bitmapSet bit) rfl
      · exact h

theorem Exact.allocBlock (h : p.Exact) : p.allocBlock.2.Exact := by
  unfold Pmm.allocBlock
  split
  · rename_i b hb
    exact h.takeOut (next_mem hb) (free_take _ _ _) rfl
  · exact h

theorem Exact.freeBlock (h : p.Exact) (addr : Nat) : (p.freeBlock addr).Exact := by
  unfold Pmm.freeBlock
  dsimp only
  split
  · rename_i hlt
    split
    · exact h
    · rename_i ht
      have hf : addr / PMM_BLOCK_SIZE ∉ p.free := by simpa [mem_free, hlt] using ht
      refine h.putBack hf hlt (free_bitmapClear hlt) (if_pos ?_)
      have hcard : 0 < p.setBits := Finset.card_pos.mpr
        ⟨_, Finset.mem_filter.mpr ⟨Finset.mem_range.mpr hlt, by simpa using ht⟩⟩
      rw [← h.used] at hcard
      exact BitVec.lt_def.mpr hcard
  · exact h

/-- `bitmap_set(0)` is not counted: the counter stays right exactly when frame 0 is not free
at that point. -/
theorem exact_initRegion (h : p.Exact) (base size : Nat) :
    (p.initRegion base size).Exact ↔ ¬ (0 ∈ p.free ∨ base < 4096 ∧ 4096 ≤ size) := by
  have hloop := h.initBlocks (size / PMM_BLOCK_SIZE) (base / PMM_BLOCK_SIZE)
  have hmem := mem_free_initBlocks (size / PMM_BLOCK_SIZE) (base / PMM_BLOCK_SIZE) p 0
  have hrange : (0 < PMM_MAX_BLOCKS ∧ base / PMM_BLOCK_SIZE ≤ 0 ∧
      0 < base / PMM_BLOCK_SIZE + size / PMM_BLOCK_SIZE) ↔ base < 4096 ∧ 4096 ≤ size := by
    change (0 < 1048576 ∧ base / 4096 ≤ 0 ∧ 0 < base / 4096 + size / 4096) ↔ _
    omega
  rw [hrange] at hmem
  rw [← hmem, initRegion]
  generalize Pmm.initBlocks _ _ p = q at hloop
  rw [exact_iff] at hloop ⊢
  rw [free_bitmapSet]
  change q.usedBlocks.toNat + _ = _ ↔ _
  by_cases h0 : 0 ∈ q.free
  · have := Finset.card_erase_add_one h0
    exact iff_of_false (by omega) (not_not_intro h0)
  · rw [Finset.erase_eq_of_notMem h0]
    exact iff_of_true hloop h0

end Pmm

/-- `pmm_init_region` counts right: frame 0 is neither free before nor in the region. -/
def PmmCall.Counts (p : Pmm) : PmmCall → Prop
  | .initRegion baseAddr size => ¬ (0 ∈ p.free ∨ baseAddr < 4096 ∧ 4096 ≤ size)
  | _ => True

theorem PmmCall.exact_run {p : Pmm} (h : p.Exact) (c : PmmCall) : (c.run p).Exact ↔ c.Counts p := by
  cases c with
  | initRegion base size => exact Pmm.exact_initRegion h base size
  | deinitRegion base size => exact iff_of_true (h.deinitBlocks _ _) trivial
  | allocBlock => exact iff_of_true h.allocBlock trivial
  | freeBlock addr => exact iff_of_true (h.freeBlock addr) trivial

/-- The counter is right after `pmm_init` and all along a sequence of calls exactly when every
`pmm_init_region` among them is made with frame 0 in use and outside the region. -/
theorem Pmm.exact_along_iff (p : Pmm) (calls : List PmmCall) :
    (∀ s, s <+: calls → (s.foldl PmmCall.run p.init).Exact) ↔
      ∀ s c, s ++ [c] <+: calls → c.Counts (s.foldl PmmCall.run p.init) := by
  constructor
  · intro h s c hs
    rw [← PmmCall.exact_run (h s ((List.prefix_append s [c]).trans hs))]
    simpa using h _ hs
  · intro h s
    induction s using List.reverseRecOn with
    | nil => exact fun _ => p.exact_init
    | append_singleton s c ih =>
      intro hs
      have hexact := ih ((List.prefix_append s [c]).trans hs)
      rw [List.foldl_append]
      exact (PmmCall.exact_run hexact c).mpr (h s c hs)

/-- A region with the first page: its bit is cleared and counted, then set and not counted. -/
theorem Pmm.not_exact_initRegion_zero :
    ¬ ([PmmCall.initRegion 0 4096].foldl PmmCall.run zeroBoot.pmm.init).Exact := by
  rw [List.foldl_cons, List.foldl_nil, PmmCall.exact_run (Pmm.exact_init _)]
  simp [PmmCall.Counts]

/-! ### Reserved ranges -/

/-- Frame `f` has a byte in the `size` bytes from `base` on. -/
def Overlaps (f base size : Nat) : Prop :=
  ∃ x, f * 4096 ≤ x ∧ x < f * 4096 + 4096 ∧ base ≤ x ∧ x < base + size

theorem overlaps_iff {f base size : Nat} :
    Overlaps f base size ↔ 0 < size ∧ base / 4096 ≤ f ∧ f * 4096 < base + size := by
  constructor
  · intro ⟨x, h1, h2, h3, h4⟩
    omega
  · intro h
    exact ⟨max (f * 4096) base, by omega, by omega, by omega, by omega⟩

namespace Pmm

/-- The pages that `pmm_deinit_region` leaves out although the range reaches into them, and
that were free. -/
def LeftFree (p : Pmm) (base size reserved f : Nat) : Prop :=
  Overlaps f base size ∧ base / 4096 + reserved / 4096 ≤ f ∧ f ∈ p.free

theorem mem_free_deinitRegion_overlaps (p : Pmm) (base size reserved f : Nat) :
    Overlaps f base size ∧ f ∈ (p.deinitRegion base reserved).free ↔
      p.LeftFree base size reserved f := by
  rw [mem_free_deinitRegion, LeftFree, overlaps_iff, PMM_BLOCK_SIZE]
  constructor
  · intro ⟨h, hf, hout⟩
    exact ⟨h, by omega, hf⟩
  · intro ⟨h, hle, hf⟩
    exact ⟨h, hf, by omega⟩

end Pmm

/-- The static variables of `vesa.c` that `vesa_init_from_params` sets. -/
structure Vesa where
  lfb : Nat
  back : Nat
  fbWidth : Nat
  fbHeight : Nat
  fbBpp : Nat
  fbPitch : Nat
  vesaReady : Bool

/-- The geometry that `vesa_init_from_params` settles on: Full HD in place of one it does not
accept, and a pitch without padding where none is given. -/
def screen (physAddr width height bpp pitch : Nat) : Vesa :=
  if width = 0 ∨ height = 0 ∨ width > 8192 ∨ height > 8192 then
    ⟨physAddr, 0x800000, 1920, 1080, 32, 1920 * 4, true⟩
  else
    ⟨physAddr, 0x800000, width, height, bpp,
      if pitch ≠ 0 then pitch else wrap (width * (wrap (bpp + 7) / 8)), true⟩

/-- The length of the back buffer. -/
def Vesa.backBytes (v : Vesa) : Nat := v.fbPitch * v.fbHeight

/-- `vesa_init_from_params` -/
def vesaInitFromParams (p : Pmm) (physAddr width height bpp pitch : Nat) : Vesa × Pmm :=
  let v := screen physAddr width height bpp pitch
  (v, p.deinitRegion v.back (wrap v.backBytes))

namespace Frames

variable {σ : Frames} {p : Pmm}

/-- Frames that are neither free nor outstanding stay so. -/
theorem Run.avoids (h : Run p σ) {f : Nat} (hf : f ∉ p.free) :
    f ∉ σ.pmm.free ∧ ∀ a ∈ σ.out, a < 2 ^ 32 ∧ a / 4096 ≠ f := by
  induction h with
  | init => exact ⟨hf, by simp⟩
  | @step σ _ op hop ih =>
    cases op with
    | alloc =>
      simp only [Frames.step]
      refine σ.pmm.allocBlock_cases (fun hfree => ?_) fun g p' _ hmem hfree => ?_ <;> dsimp only
      · simpa using ih
      · have hne : g ≠ f := fun h => ih.1 (h ▸ hmem)
        have hlt : g < 2 ^ 20 := (Pmm.mem_free.mp hmem).1
        refine ⟨by simp [hfree, ih.1], fun a ha => ?_⟩
        split at ha
        · exact ih.2 a ha
        · rcases Finset.mem_insert.mp ha with rfl | ha
          · exact ⟨show g * 4096 < 2 ^ 32 by omega, by rwa [Nat.mul_div_cancel g (by decide)]⟩
          · exact ih.2 a ha
    | free addr =>
      obtain ⟨hlt, hne⟩ := ih.2 addr hop
      simp only [Frames.step]
      refine ⟨?_, fun a ha => ih.2 a (Finset.mem_of_mem_erase ha)⟩
      rw [Pmm.free_freeBlock hlt, Finset.mem_insert, not_or]
      exact ⟨hne.symm, ih.1⟩

/-- A free frame is handed out by some later call. -/
theorem Run.exists_alloc (h : Run p σ) {f : Nat} (hf : f ∈ σ.pmm.free) :
    ∃ σ', Run p σ' ∧ σ'.pmm.allocBlock.1 = f * 4096 := by
  -- by the number of frames that are still free
  generalize hn : σ.pmm.free.card = n
  induction n generalizing σ with
  | zero => simp [Finset.card_eq_zero.mp hn] at hf
  | succ n ih =>
    have hstep : (σ.step .alloc).pmm = σ.pmm.allocBlock.2 := rfl
    by_cases hnow : σ.pmm.allocBlock.1 = f * 4096
    · exact ⟨σ, h, hnow⟩
    · refine ih (h.step .alloc trivial) ?_ ?_
      all_goals
        rw [hstep]
        revert hnow
        refine σ.pmm.allocBlock_cases (fun hfree => ?_) fun g p' _ hmem hfree hnow => ?_
        · simp [hfree] at hf
        · have hne : f ≠ g := fun h => hnow (by rw [h])
          have hcard := Finset.card_erase_of_mem hmem
          simp [hfree, hne, hf, hcard, hn]

/-- No run hands out the frame of an address that is not 0 exactly when it is not free. -/
theorem forall_run_alloc_ne_iff {f : Nat} (hf : f ≠ 0) :
    (∀ σ, Run p σ → σ.pmm.allocBlock.1 ≠ f * 4096) ↔ f ∉ p.free := by
  constructor
  · intro h hmem
    obtain ⟨σ, hrun, hσ⟩ := Run.init.exists_alloc (σ := ⟨p, ∅⟩) hmem
    exact h σ hrun hσ
  · intro h σ hrun heq
    revert heq
    refine σ.pmm.allocBlock_cases (fun _ heq => ?_) fun g p' _ hmem _ heq => ?_ <;>
      dsimp only at heq
    · omega
    · rw [Nat.mul_right_cancel (by decide) heq] at hmem
      exact (hrun.avoids h).1 hmem

end Frames

/-- After `pmm_deinit_region` no frame of the range is free exactly when those of its last
bytes, behind as many whole pages as the size has, were in use already. So it is for the back
buffer, of which a later call hands out a frame unless those were in use. -/
theorem deinitRegion_reserves_iff (p : Pmm) :
    (∀ base size, (∀ f, Overlaps f base size → f ∉ (p.deinitRegion base size).free) ↔
      ∀ f, ¬ p.LeftFree base size size f) ∧
    ∀ physAddr width height bpp pitch,
      let v := screen physAddr width height bpp pitch
      (∀ σ, Frames.Run (vesaInitFromParams p physAddr width height bpp pitch).2 σ →
        ∀ f, σ.pmm.allocBlock.1 = f * 4096 → ¬ Overlaps f v.back v.backBytes) ↔
      ∀ f, ¬ p.LeftFree v.back v.backBytes (wrap v.backBytes) f := by
  refine ⟨fun base size => forall_congr' fun f => ?_, fun physAddr width height bpp pitch => ?_⟩
  · rw [← p.mem_free_deinitRegion_overlaps, not_and]
  · intro v
    have hback : v.back = 0x800000 := by
      simp only [v, screen]
      split <;> rfl
    have hswap : ∀ f, Overlaps f v.back v.backBytes → f ≠ 0 := fun f h => by
      have := overlaps_iff.mp h
      omega
    constructor
    · intro h f hleft
      obtain ⟨hover, hmem⟩ := (p.mem_free_deinitRegion_overlaps ..).mpr hleft
      refine (Frames.forall_run_alloc_ne_iff (hswap f hover)).mp ?_ hmem
      exact fun σ hrun heq => h σ hrun f heq hover
    · intro h σ hrun f heq hover
      refine (Frames.forall_run_alloc_ne_iff (hswap f hover)).mpr ?_ σ hrun heq
      exact fun hmem => h f ((p.mem_free_deinitRegion_overlaps ..).mp ⟨hover, hmem⟩)

/-- A machine with 128 MiB and a screen of 1366 by 768 pixels: the buffer ends in the middle of
frame `0xC00`, which stays free and is handed out. -/
theorem vesaInitFromParams_1366x768 :
    let p := zeroBoot.pmm.init.initRegion 0x600000 0x7A00000
    let r := vesaInitFromParams p 0xE0000000 1366 768 32 5464
    Overlaps 0xC00 r.1.back r.1.backBytes ∧ 0xC00 ∈ r.2.free ∧
      ∃ σ, Frames.Run r.2 σ ∧ σ.pmm.allocBlock.1 = 0xC00 * 4096 := by
  intro p r
  have hfree : 0xC00 ∈ p.free :=
    (Pmm.mem_free_initRegion ..).mpr ⟨by decide, Or.inr (by decide)⟩
  have hover : Overlaps 0xC00 r.1.back r.1.backBytes := overlaps_iff.mpr (by decide)
  have hmem : 0xC00 ∈ (p.deinitRegion r.1.back (wrap r.1.backBytes)).free :=
    ((p.mem_free_deinitRegion_overlaps r.1.back r.1.backBytes _ _).mpr ⟨hover, by decide, hfree⟩).2
  have hr : r.2 = p.deinitRegion r.1.back (wrap r.1.backBytes) := rfl
  rw [← hr] at hmem
  refine ⟨hover, hmem, ?_⟩
  generalize r.2 = q at hmem
  exact Frames.Run.init.exists_alloc (σ := ⟨q, ∅⟩) hmem

end Crusadia.Kernel
