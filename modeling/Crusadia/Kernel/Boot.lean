import Crusadia.Kernel.Pmm

/-!
# Crusadia.Kernel.Boot

What the boot loader's **memory map** makes of the physical memory manager
(`parse_multiboot` of `bootinfo.c`).

The loop is modelled on raw memory: it follows the `size` words of the entries and
reads only the low words of base and length. `MapAt` says which list of 64-bit entries
a piece of memory encodes; the loop then visits exactly that list
(`mmapLoop_eq`), and the frames it leaves free are those the low words of a type-1
entry describe, from 6 MiB and from the end of the kernel on (`mem_free_parseMultiboot`).
-/

namespace Crusadia.Kernel

/-- The addresses the linker script fixes: the end of the kernel image and the two
arrays of stacks of `task.c` inside it. -/
structure Image where
  /-- `&kernel_end` -/
  kernelEnd : Nat
  /-- `task_stacks` -/
  taskStacks : Nat
  /-- `task_kstacks` -/
  taskKstacks : Nat
  kernelEnd_page : kernelEnd % 4096 = 0
  /-- the image lies below the user heap -/
  kernelEnd_le : kernelEnd ≤ 0x40000000
  taskStacks_page : taskStacks % 4096 = 0
  taskKstacks_page : taskKstacks % 4096 = 0
  taskStacks_ge : 0x100000 ≤ taskStacks
  taskStacks_le : taskStacks + 32 * (4096 + 16384) ≤ kernelEnd
  taskKstacks_ge : 0x100000 ≤ taskKstacks
  taskKstacks_le : taskKstacks + 32 * (4096 + 8192) ≤ kernelEnd
  stacks_apart : taskStacks + 32 * (4096 + 16384) ≤ taskKstacks ∨
    taskKstacks + 32 * (4096 + 8192) ≤ taskStacks

theorem Image.kernelEnd_lt (I : Image) : I.kernelEnd < 2 ^ 32 :=
  Nat.lt_of_le_of_lt I.kernelEnd_le (by decide)

theorem Image.le_kernelEnd (I : Image) : 0x100000 ≤ I.kernelEnd := by
  have := I.taskStacks_ge
  have := I.taskStacks_le
  omega

/-- What `parse_multiboot` sets: the frame bitmap and the `boot_*` variables. -/
structure Boot where
  pmm : Pmm
  /-- `boot_ram_top_below_4g` -/
  ramTop : Nat
  hasFb : Bool
  fbAddr : Nat
  fbWidth : Nat
  fbHeight : Nat
  fbBpp : Nat
  fbPitch : Nat

/-- 32-bit unsigned arithmetic. -/
abbrev wrap (n : Nat) : Nat := n % 2 ^ 32

/-- The effect of one entry of the memory map, by the words the loop reads. -/
def mmapEntry (b : Boot) (baseLow lenLow type : Nat) : Boot :=
  if type = 1 then
    let regionEnd := wrap (baseLow + lenLow)
    let regionEnd := if regionEnd < baseLow then 0xFFFFFFFF else regionEnd
    { b with
      pmm := b.pmm.initRegion baseLow lenLow
      ramTop := if regionEnd > b.ramTop then regionEnd else b.ramTop }
  else b

/-- `while (current_addr < mmap_addr + mmap_length)`; `none` when the fuel is used up. -/
def mmapLoop (m : Mem) (stop : Nat) : Nat → Nat → Boot → Option Boot
  | 0, cur, b => if cur < stop then none else some b
  | fuel + 1, cur, b =>
    if cur < stop then
      let size := m.get32 cur
      let baseLow := m.get32 (wrap (cur + 4))
      let lenLow := m.get32 (wrap (cur + 12))
      let type := m.get32 (wrap (cur + 20))
      mmapLoop m stop fuel (wrap (cur + wrap (size + 4))) (mmapEntry b baseLow lenLow type)
    else some b

/-- The memory map part of `parse_multiboot`. A walk of more than `2 ^ 32` entries has
come back to an address it has been at and does not end. -/
def parseMmap (I : Image) (m : Mem) (mb : Nat) (b : Boot) : Option Boot :=
  let b := { b with pmm := b.pmm.init }
  if (m.get32 mb).testBit 6 then do
    let mmapLength := m.get32 (mb + 44)
    let mmapAddr := m.get32 (mb + 48)
    let b ← mmapLoop m (wrap (mmapAddr + mmapLength)) (2 ^ 32) mmapAddr b
    let p := b.pmm.deinitRegion 0x0 0x100000
    let p := p.deinitRegion 0x100000 0x500000
    return { b with pmm := p.deinitRegion 0x100000 (I.kernelEnd - 0x100000) }
  else some b

/-- The framebuffer part of `parse_multiboot`. -/
def parseFb (m : Mem) (mb : Nat) (b : Boot) : Boot :=
  let flags := m.get32 mb
  if flags.testBit 12 && m.get32 (mb + 88) != 0 then
    { b with
      hasFb := true, fbAddr := m.get32 (mb + 88), fbPitch := m.get32 (mb + 96)
      fbWidth := m.get32 (mb + 100), fbHeight := m.get32 (mb + 104)
      fbBpp := (m (mb + 108)).toNat }
  else if flags.testBit 11 && m.get32 (mb + 76) != 0 then
    let mode := m.get32 (mb + 76)
    let x := m.get16 (mode + 18)
    let bpp := (m (mode + 25)).toNat
    if m.get32 (mode + 40) != 0 then
      { b with
        hasFb := true, fbAddr := m.get32 (mode + 40), fbWidth := x
        fbHeight := m.get16 (mode + 20), fbBpp := bpp
        fbPitch := if bpp ≥ 8 then x * ((bpp + 7) / 8) else x }
    else b
  else b

/-- `parse_multiboot`; `none` when it does not return. -/
def parseMultiboot (I : Image) (m : Mem) (magic mbInfo : Nat) (b : Boot) : Option Boot :=
  if magic ≠ 0x2BADB002 then some b
  else if mbInfo = 0 then some b
  else (parseMmap I m mbInfo b).map (parseFb m mbInfo)

/-! ### Memory maps -/

/-- One entry of a multiboot memory map. `size` counts the bytes after it, of which
the format has at least twenty. -/
structure MmapEntry where
  size : Nat
  base : Nat
  len : Nat
  type : Nat
  size_ge : 20 ≤ size
  base_lt : base < 2 ^ 64
  len_lt : len < 2 ^ 64
  deriving DecidableEq

/-- The memory from `a` up to `stop` encodes the entries `es`. -/
def MapAt (m : Mem) (stop : Nat) : Nat → List MmapEntry → Prop
  | a, [] => a = stop
  | a, e :: es =>
    m.get32 a = e.size ∧
    m.get32 (a + 4) = e.base % 2 ^ 32 ∧ m.get32 (a + 8) = e.base / 2 ^ 32 ∧
    m.get32 (a + 12) = e.len % 2 ^ 32 ∧ m.get32 (a + 16) = e.len / 2 ^ 32 ∧
    m.get32 (a + 20) = e.type ∧ MapAt m stop (a + e.size + 4) es

instance MapAt.decidable (m : Mem) (stop : Nat) :
    (a : Nat) → (es : List MmapEntry) → Decidable (MapAt m stop a es)
  | a, [] => inferInstanceAs (Decidable (a = stop))
  | a, e :: es =>
    have := MapAt.decidable m stop (a + e.size + 4) es
    inferInstanceAs (Decidable (_ ∧ _))

/-- The structure at `mb` announces a memory map with the entries `es`. -/
structure HasMap (m : Mem) (mb : Nat) (es : List MmapEntry) : Prop where
  nonnull : mb ≠ 0
  flag : (m.get32 mb).testBit 6 = true
  lt : m.get32 (mb + 48) + m.get32 (mb + 44) < 2 ^ 32
  entries : MapAt m (m.get32 (mb + 48) + m.get32 (mb + 44)) (m.get32 (mb + 48)) es

theorem MapAt.le {m : Mem} {stop a : Nat} {es : List MmapEntry} (h : MapAt m stop a es) :
    a + 24 * es.length ≤ stop := by
  induction es generalizing a with
  | nil => exact Nat.le_of_eq h
  | cons e es ih =>
    have := ih h.2.2.2.2.2.2
    have := e.size_ge
    rw [List.length_cons]
    omega

/-- The loop visits the entries of the map in order and returns. -/
theorem mmapLoop_eq {m : Mem} {stop : Nat} (hstop : stop < 2 ^ 32) :
    ∀ (es : List MmapEntry) (fuel a : Nat) (b : Boot), MapAt m stop a es → es.length ≤ fuel →
      mmapLoop m stop fuel a b =
        some (es.foldl (fun b e => mmapEntry b (e.base % 2 ^ 32) (e.len % 2 ^ 32) e.type) b) := by
  intro es
  induction es with
  | nil =>
    intro fuel a b h hf
    have ha : ¬ a < stop := by rw [show a = stop from h]; omega
    cases fuel with
    | zero => rw [mmapLoop, if_neg ha, List.foldl_nil]
    | succ fuel => rw [mmapLoop, if_neg ha, List.foldl_nil]
  | cons e es ih =>
    intro fuel a b h hf
    have hle := h.le
    rw [List.length_cons] at hle hf
    obtain ⟨hsize, hbase, -, hlen, -, htype, hrest⟩ := h
    have hrle := hrest.le
    cases fuel with
    | zero => omega
    | succ fuel =>
      have h4 : wrap (a + 4) = a + 4 := Nat.mod_eq_of_lt (by omega)
      have h12 : wrap (a + 12) = a + 12 := Nat.mod_eq_of_lt (by omega)
      have h20 : wrap (a + 20) = a + 20 := Nat.mod_eq_of_lt (by omega)
      have hnext : wrap (a + wrap (e.size + 4)) = a + e.size + 4 := by
        rw [wrap, wrap, Nat.mod_eq_of_lt (by omega : e.size + 4 < 2 ^ 32),
          Nat.mod_eq_of_lt (by omega), Nat.add_assoc]
      rw [mmapLoop, if_pos (by omega)]
      dsimp only
      rw [h4, h12, h20, hsize, hbase, hlen, htype, hnext, List.foldl_cons]
      exact ih fuel _ _ hrest (by omega)

/-! ### The frames that end up free -/

/-- Frame `f` is one of those the low words of the entry describe: its base rounded
down to a frame, and as many frames as the low word of its length has whole pages. -/
def MmapEntry.Describes (e : MmapEntry) (f : Nat) : Prop :=
  e.type = 1 ∧ e.base % 2 ^ 32 / 4096 ≤ f ∧
    f < e.base % 2 ^ 32 / 4096 + e.len % 2 ^ 32 / 4096

theorem mem_free_mmapEntry (b : Boot) (e : MmapEntry) (f : Nat) :
    f ∈ (mmapEntry b (e.base % 2 ^ 32) (e.len % 2 ^ 32) e.type).pmm.free ∧ f ≠ 0 ↔
      f ≠ 0 ∧ (f ∈ b.pmm.free ∨ f < PMM_MAX_BLOCKS ∧ e.Describes f) := by
  unfold mmapEntry MmapEntry.Describes
  split
  · rename_i ht
    dsimp only
    rw [Pmm.mem_free_initRegion]
    simp only [ht, true_and]
    exact ⟨And.left, fun h => ⟨h, h.1⟩⟩
  · rename_i ht
    simp only [ht, false_and, and_false, or_false]
    exact and_comm

theorem mem_free_foldl_mmapEntry (es : List MmapEntry) (b : Boot) {f : Nat} (hf : f ≠ 0) :
    f ∈ (es.foldl (fun b e => mmapEntry b (e.base % 2 ^ 32) (e.len % 2 ^ 32) e.type) b).pmm.free ↔
      f ∈ b.pmm.free ∨ f < PMM_MAX_BLOCKS ∧ ∃ e ∈ es, e.Describes f := by
  induction es generalizing b with
  | nil => simp
  | cons e es ih =>
    have := mem_free_mmapEntry b e f
    rw [List.foldl_cons, ih]
    simp only [hf, ne_eq, not_false_eq_true, and_true, true_and] at this
    rw [this, List.exists_mem_cons_iff, or_assoc, ← and_or_left]

variable {I : Image} {m : Mem} {mb : Nat} {es : List MmapEntry}

theorem parseFb_pmm (m : Mem) (mb : Nat) (b : Boot) : (parseFb m mb b).pmm = b.pmm := by
  unfold parseFb
  dsimp only
  split
  · rfl
  · split
    · split <;> rfl
    · rfl

/-- `parse_multiboot` returns, and the frames it leaves free are those a type-1 entry
describes, above the first 6 MiB and above the kernel. -/
theorem mem_free_parseMultiboot (I : Image) (h : HasMap m mb es) (b : Boot) :
    ∃ b', parseMultiboot I m 0x2BADB002 mb b = some b' ∧ ∀ f, f ∈ b'.pmm.free ↔
      f < PMM_MAX_BLOCKS ∧ 0x600 ≤ f ∧ I.kernelEnd ≤ f * 4096 ∧ ∃ e ∈ es, e.Describes f := by
  have hlen : es.length ≤ 2 ^ 32 := by
    have := h.entries.le
    have := h.lt
    omega
  have hloop := mmapLoop_eq h.lt es (2 ^ 32) _ { b with pmm := b.pmm.init } h.entries hlen
  generalize hb1 : es.foldl _ _ = b1 at hloop
  let p1 := (b1.pmm.deinitRegion 0x0 0x100000).deinitRegion 0x100000 0x500000
  let b2 : Boot := { b1 with pmm := p1.deinitRegion 0x100000 (I.kernelEnd - 0x100000) }
  have hmmap : parseMmap I m mb b = some b2 := by
    unfold parseMmap
    dsimp only
    rw [if_pos h.flag, wrap, Nat.mod_eq_of_lt h.lt, hloop]
    rfl
  refine ⟨parseFb m mb b2, ?_, fun f => ?_⟩
  · rw [parseMultiboot, if_neg (by decide), if_neg h.nonnull, hmmap, Option.map_some]
  · have hend := I.le_kernelEnd
    have hpage := I.kernelEnd_page
    rw [parseFb_pmm, Pmm.mem_free_deinitRegion, Pmm.mem_free_deinitRegion,
      Pmm.mem_free_deinitRegion, ← hb1]
    by_cases hf : f = 0
    · subst hf
      constructor
      · intro h
        exact absurd ⟨Nat.le_refl 0, by decide⟩ h.1.1.2
      · intro h
        omega
    · rw [mem_free_foldl_mmapEntry es _ hf]
      have hinit : f ∉ b.pmm.init.free := by simp [Pmm.free_init]
      have hrange : (¬ (0 / 4096 ≤ f ∧ f < 0 / 4096 + 0x100000 / 4096)) ∧
          (¬ (0x100000 / 4096 ≤ f ∧ f < 0x100000 / 4096 + 0x500000 / 4096)) ∧
          (¬ (0x100000 / 4096 ≤ f ∧
            f < 0x100000 / 4096 + (I.kernelEnd - 0x100000) / 4096)) ↔
          0x600 ≤ f ∧ I.kernelEnd ≤ f * 4096 := by omega
      simp only [hinit, false_or]
      constructor
      · rintro ⟨⟨⟨⟨hlt, he⟩, h1⟩, h2⟩, h3⟩
        obtain ⟨hlow, hge⟩ := hrange.mp ⟨h1, h2, h3⟩
        exact ⟨hlt, hlow, hge, he⟩
      · rintro ⟨hlt, hlow, hge, he⟩
        obtain ⟨h1, h2, h3⟩ := hrange.mpr ⟨hlow, hge⟩
        exact ⟨⟨⟨⟨hlt, he⟩, h1⟩, h2⟩, h3⟩

/-- Every byte of frame `f` belongs to a type-1 entry. -/
def InRam (es : List MmapEntry) (f : Nat) : Prop :=
  ∀ a, f * 4096 ≤ a → a < f * 4096 + 4096 → ∃ e ∈ es, e.type = 1 ∧ e.base ≤ a ∧ a < e.base + e.len

/-- Only real memory is free: frames of the type-1 entries, outside the first 6 MiB and
outside the kernel image, and never frame 0. -/
structure OnlyRam (I : Image) (es : List MmapEntry) (p : Pmm) : Prop where
  ram : ∀ f ∈ p.free, InRam es f
  low : ∀ f ∈ p.free, 0x600000 ≤ f * 4096
  image : ∀ f ∈ p.free, f * 4096 + 4096 ≤ 0x100000 ∨ I.kernelEnd ≤ f * 4096
  zero : 0 ∉ p.free

/-- For every memory map: the frames left free after `parse_multiboot` are real memory
exactly when the pages that the low words of a type-1 entry describe are, from 6 MiB
and from the end of the kernel on. -/
theorem onlyRam_parseMultiboot_iff (I : Image) (h : HasMap m mb es) (b : Boot) :
    ∃ b', parseMultiboot I m 0x2BADB002 mb b = some b' ∧
      (OnlyRam I es b'.pmm ↔
        ∀ e ∈ es, ∀ f, f < 2 ^ 20 → e.Describes f → 0x600000 ≤ f * 4096 →
          I.kernelEnd ≤ f * 4096 → InRam es f) := by
  obtain ⟨b', hb', hfree⟩ := mem_free_parseMultiboot I h b
  refine ⟨b', hb', fun hram e he f hf hdesc hlow hend => ?_, fun hcond => ?_⟩
  · exact hram.ram f ((hfree f).mpr ⟨hf, by omega, hend, e, he, hdesc⟩)
  · refine ⟨fun f hf => ?_, fun f hf => ?_, fun f hf => ?_, fun hf => ?_⟩
    · obtain ⟨hlt, hlow, hend, e, he, hdesc⟩ := (hfree f).mp hf
      exact hcond e he f hlt hdesc (by omega) hend
    · have := ((hfree f).mp hf).2.1
      omega
    · exact Or.inr ((hfree f).mp hf).2.2.1
    · have := ((hfree 0).mp hf).2.1
      omega

/-- A kernel image of 3 MiB. -/
def smallImage : Image where
  kernelEnd := 0x400000
  taskStacks := 0x200000
  taskKstacks := 0x300000
  kernelEnd_page := by decide
  kernelEnd_le := by decide
  taskStacks_page := by decide
  taskKstacks_page := by decide
  taskStacks_ge := by decide
  taskStacks_le := by decide
  taskKstacks_ge := by decide
  taskKstacks_le := by decide
  stacks_apart := by decide

/-- The variables as the loader leaves them: zero. -/
def zeroBoot : Boot := ⟨⟨fun _ => 0, 0, ⟨0, Pmm.zero_lt⟩⟩, 0, false, 0, 0, 0, 0, 0⟩

/-- A boot information structure at address 4 whose memory map, at address 100, has one
type-1 entry, given by the low and high words of its base and the low word of its length. -/
def oneEntryMap (baseLow baseHigh lenLow : Nat) : Mem := Mem.ofWords fun
  | 1 => 64
  | 12 => 24
  | 13 => 100
  | 25 => 20
  | 26 => baseLow
  | 27 => baseHigh
  | 28 => lenLow
  | 30 => 1
  | _ => 0

/-- The 122 MiB from 6 MiB on of a machine with 128 MiB. -/
def lowEntry : MmapEntry := ⟨20, 0x600000, 0x7A00000, 1, by decide, by decide, by decide⟩

theorem onlyRam_parseMultiboot_iff_low :
    HasMap (oneEntryMap 0x600000 0 0x7A00000) 4 [lowEntry] ∧
      ∃ b', parseMultiboot smallImage (oneEntryMap 0x600000 0 0x7A00000) 0x2BADB002 4 zeroBoot =
        some b' ∧ (OnlyRam smallImage [lowEntry] b'.pmm ↔
          ∀ e ∈ [lowEntry], ∀ f, f < 2 ^ 20 → e.Describes f → 0x600000 ≤ f * 4096 →
            smallImage.kernelEnd ≤ f * 4096 → InRam [lowEntry] f) := by
  have h : HasMap (oneEntryMap 0x600000 0 0x7A00000) 4 [lowEntry] :=
    ⟨by decide, by decide, by decide, by decide⟩
  exact ⟨h, onlyRam_parseMultiboot_iff smallImage h zeroBoot⟩

/-- One page of memory just above 4 GiB + 6 MiB. -/
def highEntry : MmapEntry := ⟨20, 0x100600000, 0x1000, 1, by decide, by decide, by decide⟩

/-- Memory above 4 GiB: the loop reads the low word of its base and frees a frame at
6 MiB that the memory map does not mention. -/
theorem parseMultiboot_high_not_onlyRam :
    ∃ b', parseMultiboot smallImage (oneEntryMap 0x600000 1 0x1000) 0x2BADB002 4 zeroBoot =
        some b' ∧ ¬ OnlyRam smallImage [highEntry] b'.pmm := by
  have h : HasMap (oneEntryMap 0x600000 1 0x1000) 4 [highEntry] :=
    ⟨by decide, by decide, by decide, by decide⟩
  obtain ⟨b', hb', hfree⟩ := mem_free_parseMultiboot smallImage h zeroBoot
  refine ⟨b', hb', fun hram => ?_⟩
  have hmem : 0x600 ∈ b'.pmm.free :=
    (hfree 0x600).mpr ⟨by decide, by decide, by decide, highEntry, by decide, by decide,
      by decide, by decide⟩
  obtain ⟨e, he, -, hbase, -⟩ := hram.ram 0x600 hmem 0x600000 (by decide) (by decide)
  rw [List.mem_singleton] at he
  subst he
  exact absurd hbase (by decide)

end Crusadia.Kernel
