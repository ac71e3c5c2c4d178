import Crusadia.Lib.Buf

/-!
# Crusadia.Lib.Mem

**Flat byte memory**, addressed by natural numbers.

Every write (`memset`, `memcpy`, a store of one word) is a `store` of a function of
the offset, so there are two read-over-write lemmas and everything else follows from
them. A program that keeps tables of 32-bit words in page-sized blocks reads them
through `entry`; two entries are apart when their pages are or their indices are.
-/

namespace Crusadia

/-- The bytes of a memory, by address. -/
abbrev Mem := Nat → Byte

namespace Mem

/-- The memory with `len` bytes from `a` on replaced by `src`. -/
def store (m : Mem) (a len : Nat) (src : Nat → Byte) : Mem := fun b =>
  if a ≤ b ∧ b < a + len then src (b - a) else m b

/-- A 32-bit little-endian load. -/
def get32 (m : Mem) (a : Nat) : Nat :=
  (m a).toNat + 256 * (m (a + 1)).toNat + 65536 * (m (a + 2)).toNat
    + 16777216 * (m (a + 3)).toNat

/-- A 16-bit little-endian load. -/
def get16 (m : Mem) (a : Nat) : Nat := (m a).toNat + 256 * (m (a + 1)).toNat

/-- A 32-bit little-endian store; `v` is reduced to 32 bits. -/
def put32 (m : Mem) (a v : Nat) : Mem := m.store a 4 (Buf.leByte v)

/-- A one-byte store. -/
def put8 (m : Mem) (a : Nat) (v : Byte) : Mem := m.store a 1 fun _ => v

/-- `memset(a, v, n)`. -/
def fill (m : Mem) (a n : Nat) (v : Byte) : Mem := m.store a n fun _ => v

/-- `memcpy(dst, src, n)` between ranges that do not overlap. -/
def copy (m : Mem) (dst src n : Nat) : Mem := m.store dst n fun k => m (src + k)

variable {m m' : Mem} {a b len : Nat} {src : Nat → Byte}

theorem store_in (h1 : a ≤ b) (h2 : b < a + len) : m.store a len src b = src (b - a) :=
  if_pos ⟨h1, h2⟩

theorem store_out (h : b < a ∨ a + len ≤ b) : m.store a len src b = m b :=
  if_neg (by omega)

/-! ### Words -/

theorem get32_lt (m : Mem) (a : Nat) : m.get32 a < 2 ^ 32 := by
  have h0 := (m a).isLt
  have h1 := (m (a + 1)).isLt
  have h2 := (m (a + 2)).isLt
  have h3 := (m (a + 3)).isLt
  simp only [get32]
  omega

theorem get32_congr (h : ∀ k, k < 4 → m' (b + k) = m (a + k)) : m'.get32 b = m.get32 a := by
  have h0 := h 0 (by omega)
  rw [Nat.add_zero, Nat.add_zero] at h0
  simp only [get32, h0, h 1 (by omega), h 2 (by omega), h 3 (by omega)]

theorem get32_store_out (h : b + 4 ≤ a ∨ a + len ≤ b) :
    (m.store a len src).get32 b = m.get32 b :=
  get32_congr fun _ _ => store_out (by omega)

/-- A word whose bytes are those of `v` is `v` reduced to 32 bits. -/
theorem get32_of_leByte {v : Nat} (h : ∀ k, k < 4 → m (a + k) = Buf.leByte v k) :
    m.get32 a = v % 2 ^ 32 := by
  have h0 := h 0 (by omega)
  rw [Nat.add_zero] at h0
  simp only [get32, h0, h 1 (by omega), h 2 (by omega), h 3 (by omega), Buf.toNat_leByte]
  omega

theorem get32_put32_same (m : Mem) (a v : Nat) : (m.put32 a v).get32 a = v % 2 ^ 32 :=
  get32_of_leByte fun k hk => by
    rw [put32, store_in (by omega) (by omega), Nat.add_sub_cancel_left]

theorem get32_put32_out {v : Nat} (h : b + 4 ≤ a ∨ a + 4 ≤ b) :
    (m.put32 a v).get32 b = m.get32 b :=
  get32_store_out h

/-- A word of zeros. -/
theorem get32_fill_zero {n : Nat} (h1 : a ≤ b) (h2 : b + 4 ≤ a + n) :
    (m.fill a n 0).get32 b = 0 := by
  have h : ∀ k, k < 4 → m.fill a n 0 (b + k) = Buf.leByte 0 k := by
    intro k hk
    rw [fill, store_in (by omega) (by omega)]
    simp [Buf.leByte]
  rw [get32_of_leByte h, Nat.zero_mod]

/-! ### Tables of words -/

/-- Word `i` of the table at `p`. -/
def entry (m : Mem) (p i : Nat) : Nat := m.get32 (p + 4 * i)

/-- The store `p[i] = v` in a table of words. -/
def setEntry (m : Mem) (p i v : Nat) : Mem := m.put32 (p + 4 * i) v

/-- A page-sized block: its first address is a multiple of 4096. -/
def Page (p : Nat) : Prop := p % 4096 = 0

variable {p q i j v : Nat}

theorem entry_setEntry_same : (m.setEntry p i v).entry p i = v % 2 ^ 32 :=
  get32_put32_same _ _ _

theorem entry_setEntry_index (h : j ≠ i) : (m.setEntry p i v).entry p j = m.entry p j :=
  get32_put32_out (by omega)

theorem entry_setEntry_page (hp : Page p) (hq : Page q) (hi : i < 1024) (hj : j < 1024)
    (h : q ≠ p) : (m.setEntry p i v).entry q j = m.entry q j := by
  unfold Page at hp hq
  exact get32_put32_out (by omega)

/-- A byte of another page is not changed by a store to a table. -/
theorem setEntry_byte (hp : Page p) (hi : i < 1024) (h : b / 4096 ≠ p / 4096) :
    m.setEntry p i v b = m b := by
  unfold Page at hp
  exact store_out (by omega)

/-- Memories that agree on a page hold the same table there. -/
theorem entry_congr (hp : Page p) (hi : i < 1024) (h : ∀ b, b / 4096 = p / 4096 → m' b = m b) :
    m'.entry p i = m.entry p i := by
  unfold Page at hp
  exact get32_congr fun k hk => h _ (by omega)

theorem entry_fill_page (hp : Page p) (hq : Page q) (hj : j < 1024) (h : q ≠ p) (w : Byte) :
    (m.fill p 4096 w).entry q j = m.entry q j := by
  unfold Page at hp hq
  exact get32_store_out (by omega)

theorem entry_fill_zero (hj : j < 1024) : (m.fill p 4096 0).entry p j = 0 :=
  get32_fill_zero (by omega) (by omega)

theorem entry_copy_page (hp : Page p) (hq : Page q) (hj : j < 1024) (h : q ≠ p) (s : Nat) :
    (m.copy p s 4096).entry q j = m.entry q j := by
  unfold Page at hp hq
  exact get32_store_out (by omega)

theorem entry_copy_same (hj : j < 1024) (s : Nat) :
    (m.copy p s 4096).entry p j = m.entry s j :=
  get32_congr fun k _ => by
    rw [copy, store_in (by omega) (by omega)]
    congr 1
    omega

/-- A memory given word by word. -/
def ofWords (w : Nat → Nat) : Mem := fun a => Buf.leByte (w (a / 4)) (a % 4)

end Mem

end Crusadia
