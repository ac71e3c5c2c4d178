import Mathlib.Data.List.GetD
import Mathlib.Tactic

/-!
# Crusadia.Lib.Buf

**Fixed-size byte buffers**: the memory a block driver works on.

A `Buf n` holds exactly `n` bytes, so a sector or an on-disk record cannot have
the wrong length. Every buffer operation of the drivers (`memcpy`, `memset`,
little-endian loads and stores, setting one bit) is `Buf.ofFn` of a function of
the old bytes, and every proof reads a buffer through `Buf.get` only: there is
one read-over-write lemma per operation and no index arithmetic on vectors.
-/

namespace Crusadia

/-- One byte of memory. -/
abbrev Byte := BitVec 8

/-- A buffer of exactly `n` bytes. -/
structure Buf (n : Nat) where
  /-- The bytes, lowest address first. -/
  bytes : Vector Byte n
  deriving DecidableEq

namespace Buf

variable {n m i len off' : Nat} {b : Buf n} {src : Nat → Byte} {off : Nat}

/-- The byte at index `i`, and `0` outside the buffer. -/
def get (b : Buf n) (i : Nat) : Byte := if h : i < n then b.bytes[i] else 0

/-- The buffer whose byte `i` is `f i`. -/
def ofFn (f : Nat → Byte) : Buf n := ⟨Vector.ofFn fun i : Fin n => f i.val⟩

theorem get_of_lt (b : Buf n) (h : i < n) : b.get i = b.bytes[i] := dif_pos h

theorem get_of_ge (b : Buf n) (h : n ≤ i) : b.get i = 0 :=
  dif_neg (Nat.not_lt.mpr h)

theorem get_ofFn (f : Nat → Byte) (i : Nat) :
    (ofFn f : Buf n).get i = if i < n then f i else 0 := by
  by_cases h : i < n
  · rw [if_pos h, get_of_lt _ h]
    simp [ofFn]
  · rw [if_neg h, get_of_ge _ (Nat.not_lt.mp h)]

theorem get_ofFn_lt (f : Nat → Byte) (h : i < n) :
    (ofFn f : Buf n).get i = f i := by
  rw [get_ofFn, if_pos h]

/-- Buffers are equal when they agree at every index below their size. -/
theorem ext_get {a b : Buf n} (h : ∀ i, i < n → a.get i = b.get i) : a = b := by
  cases a
  cases b
  congr 1
  apply Vector.ext
  intro i hi
  have := h i hi
  rwa [get_of_lt _ hi, get_of_lt _ hi] at this

/-- `memset(buf, 0, n)`. -/
def zero : Buf n := ofFn fun _ => 0

@[simp] theorem get_zero (i : Nat) : (zero : Buf n).get i = 0 := by
  rw [zero, get_ofFn]
  split <;> rfl

/-! ### Copies between buffers -/

/-- `memcpy(buf + off, src, len)`. -/
def splice (b : Buf n) (off len : Nat) (src : Nat → Byte) : Buf n :=
  ofFn fun i => if off ≤ i ∧ i < off + len then src (i - off) else b.get i

/-- `memcpy(dst, buf + off, m)` into a buffer of size `m`. -/
def slice (b : Buf n) (off m : Nat) : Buf m := ofFn fun i => b.get (off + i)

theorem get_splice (b : Buf n) (off len : Nat) (src : Nat → Byte) (i : Nat) :
    (b.splice off len src).get i =
      if i < n ∧ off ≤ i ∧ i < off + len then src (i - off) else b.get i := by
  rw [splice, get_ofFn]
  by_cases hn : i < n
  · simp [hn]
  · simp [hn, get_of_ge b (Nat.not_lt.mp hn)]

theorem get_splice_in (hn : off + len ≤ n) (h1 : off ≤ i)
    (h2 : i < off + len) :
    (b.splice off len src).get i = src (i - off) := by
  rw [get_splice, if_pos ⟨by omega, h1, h2⟩]

theorem get_splice_out (h : i < off ∨ off + len ≤ i) :
    (b.splice off len src).get i = b.get i := by
  rw [get_splice, if_neg (by omega)]

theorem get_slice (b : Buf n) (off : Nat) (i : Nat) :
    (b.slice off m).get i = if i < m then b.get (off + i) else 0 :=
  get_ofFn _ _

theorem get_slice_lt (b : Buf n) (h : i < m) :
    (b.slice off m).get i = b.get (off + i) := by
  rw [get_slice, if_pos h]

/-- Reading back a record that was just stored. -/
theorem slice_splice_same {c : Buf m} (h : off + m ≤ n) :
    (b.splice off m c.get).slice off m = c := by
  apply ext_get
  intro i hi
  rw [get_slice_lt _ hi, get_splice_in h (by omega) (by omega)]
  congr 1
  omega

/-- Storing a record leaves a disjoint record alone. -/
theorem slice_splice_disjoint (h : off' + m ≤ off ∨ off + len ≤ off') :
    (b.splice off len src).slice off' m = b.slice off' m := by
  apply ext_get
  intro i hi
  rw [get_slice_lt _ hi, get_slice_lt _ hi, get_splice_out (by omega)]

/-! ### Little-endian words -/

/-- Byte `k` of the little-endian representation of `v`. -/
def leByte (v k : Nat) : Byte := BitVec.ofNat 8 (v / 256 ^ k)

theorem toNat_leByte (v k : Nat) : (leByte v k).toNat = v / 256 ^ k % 256 := by
  simp [leByte]

/-- A 32-bit little-endian load at `off`. -/
def get32 (b : Buf n) (off : Nat) : Nat :=
  (b.get off).toNat + 256 * (b.get (off + 1)).toNat + 65536 * (b.get (off + 2)).toNat
    + 16777216 * (b.get (off + 3)).toNat

/-- A 16-bit little-endian load at `off`. -/
def get16 (b : Buf n) (off : Nat) : Nat :=
  (b.get off).toNat + 256 * (b.get (off + 1)).toNat

/-- A 32-bit little-endian store at `off`; `v` is reduced to 32 bits. -/
def put32 (b : Buf n) (off v : Nat) : Buf n := b.splice off 4 (leByte v)

/-- A 16-bit little-endian store at `off`; `v` is reduced to 16 bits. -/
def put16 (b : Buf n) (off v : Nat) : Buf n := b.splice off 2 (leByte v)

/-- A one-byte store at `off`. -/
def put8 (b : Buf n) (off : Nat) (v : Byte) : Buf n := b.splice off 1 fun _ => v

theorem get32_lt (b : Buf n) (off : Nat) : b.get32 off < 2 ^ 32 := by
  have h0 := (b.get off).isLt
  have h1 := (b.get (off + 1)).isLt
  have h2 := (b.get (off + 2)).isLt
  have h3 := (b.get (off + 3)).isLt
  simp only [get32]
  omega

theorem get16_lt (b : Buf n) (off : Nat) : b.get16 off < 2 ^ 16 := by
  have h0 := (b.get off).isLt
  have h1 := (b.get (off + 1)).isLt
  simp only [get16]
  omega

theorem get32_congr {c : Buf m}
    (h : ∀ k, k < 4 → b.get (off + k) = c.get (off' + k)) : b.get32 off = c.get32 off' := by
  have h0 := h 0 (by omega)
  rw [Nat.add_zero, Nat.add_zero] at h0
  simp only [get32, h0, h 1 (by omega), h 2 (by omega), h 3 (by omega)]

theorem get16_congr {c : Buf m}
    (h : ∀ k, k < 2 → b.get (off + k) = c.get (off' + k)) : b.get16 off = c.get16 off' := by
  have h0 := h 0 (by omega)
  rw [Nat.add_zero, Nat.add_zero] at h0
  simp only [get16, h0, h 1 (by omega)]

@[simp] theorem get32_zero (off : Nat) : (zero : Buf n).get32 off = 0 := by
  simp [get32]

@[simp] theorem get16_zero (off : Nat) : (zero : Buf n).get16 off = 0 := by
  simp [get16]

theorem get32_slice (b : Buf n) {k : Nat} (h : k + 4 ≤ m) :
    (b.slice off m).get32 k = b.get32 (off + k) :=
  get32_congr fun j hj => by
    rw [get_slice_lt _ (by omega)]
    congr 1
    omega

theorem get32_splice_out (h : i + 4 ≤ off ∨ off + len ≤ i) :
    (b.splice off len src).get32 i = b.get32 i :=
  get32_congr fun k hk => get_splice_out (by omega)

theorem get16_splice_out (h : i + 2 ≤ off ∨ off + len ≤ i) :
    (b.splice off len src).get16 i = b.get16 i :=
  get16_congr fun k hk => get_splice_out (by omega)

/-- A word that was just stored reads back, reduced to 32 bits. -/
theorem get32_put32_same (v : Nat) (h : off + 4 ≤ n) :
    (b.put32 off v).get32 off = v % 2 ^ 32 := by
  have hb : ∀ k, k < 4 → (b.put32 off v).get (off + k) = leByte v k := by
    intro k hk
    rw [put32, get_splice_in h (by omega) (by omega)]
    congr 1
    omega
  have h0 := hb 0 (by omega)
  rw [Nat.add_zero] at h0
  simp only [get32, h0, hb 1 (by omega), hb 2 (by omega), hb 3 (by omega), toNat_leByte]
  omega

theorem get32_put32_out {v : Nat} (h : i + 4 ≤ off ∨ off + 4 ≤ i) :
    (b.put32 off v).get32 i = b.get32 i :=
  get32_splice_out h

/-- Storing the word that is already there changes nothing. -/
theorem put32_get32 (b : Buf n) (off : Nat) : b.put32 off (b.get32 off) = b := by
  apply ext_get
  intro i hi
  rw [put32, get_splice]
  split
  · rename_i h
    have h0 := (b.get off).isLt
    have h1 := (b.get (off + 1)).isLt
    have h2 := (b.get (off + 2)).isLt
    have h3 := (b.get (off + 3)).isLt
    apply BitVec.eq_of_toNat_eq
    rw [toNat_leByte, get32]
    obtain hk | hk | hk | hk : i - off = 0 ∨ i - off = 1 ∨ i - off = 2 ∨ i - off = 3 := by omega
    · rw [hk, show i = off by omega]
      omega
    · rw [hk, show i = off + 1 by omega]
      omega
    · rw [hk, show i = off + 2 by omega]
      omega
    · rw [hk, show i = off + 3 by omega]
      omega
  · rfl

theorem get16_put16_same (v : Nat) (h : off + 2 ≤ n) :
    (b.put16 off v).get16 off = v % 2 ^ 16 := by
  have hb : ∀ k, k < 2 → (b.put16 off v).get (off + k) = leByte v k := by
    intro k hk
    rw [put16, get_splice_in h (by omega) (by omega)]
    congr 1
    omega
  have h0 := hb 0 (by omega)
  rw [Nat.add_zero] at h0
  simp only [get16, h0, hb 1 (by omega), toNat_leByte]
  omega

theorem get16_put16_out {v : Nat} (h : i + 2 ≤ off ∨ off + 2 ≤ i) :
    (b.put16 off v).get16 i = b.get16 i :=
  get16_splice_out h

/-! ### Single bits

Bit `k` of a buffer is bit `k % 8` of byte `k / 8`, the numbering both bitmaps of
the drivers use. -/

/-- `buf[k / 8] & (1 << (k % 8))`, as a truth value. -/
def bit (b : Buf n) (k : Nat) : Bool := b.get (k / 8) &&& (1#8 <<< (k % 8)) != 0#8

/-- `buf[k / 8] |= 1 << (k % 8)`. -/
def setBit (b : Buf n) (k : Nat) : Buf n :=
  b.put8 (k / 8) (b.get (k / 8) ||| (1#8 <<< (k % 8)))

/-- `buf[k / 8] &= ~(1 << (k % 8))`. -/
def clearBit (b : Buf n) (k : Nat) : Buf n :=
  b.put8 (k / 8) (b.get (k / 8) &&& ~~~(1#8 <<< (k % 8)))

theorem and_mask_ne_zero (x : Byte) {j : Nat} (hj : j < 8) :
    (x &&& (1#8 <<< j) != 0#8) = x.getLsbD j := by
  by_cases hx : x.getLsbD j
  · rw [hx, bne_iff_ne]
    intro h
    have := congrArg (BitVec.getLsbD · j) h
    simp only [BitVec.getLsbD_and, hx, BitVec.getLsbD_shiftLeft] at this
    simp [hj] at this
  · rw [Bool.not_eq_true] at hx
    rw [hx, bne_eq_false_iff_eq]
    apply BitVec.eq_of_getLsbD_eq
    intro i hi
    by_cases hij : i = j
    · subst hij
      simp [hx]
    · by_cases hlt : i < j
      · simp [hlt]
      · have : i - j ≠ 0 := by omega
        simp [this]

theorem bit_eq_getLsbD (b : Buf n) (k : Nat) : b.bit k = (b.get (k / 8)).getLsbD (k % 8) :=
  and_mask_ne_zero _ (Nat.mod_lt _ (by omega))

@[simp] theorem bit_zero (k : Nat) : (zero : Buf n).bit k = false := by
  rw [bit_eq_getLsbD, get_zero]
  simp

theorem get_put8 (b : Buf n) (off : Nat) (v : Byte) (i : Nat) :
    (b.put8 off v).get i = if i = off ∧ i < n then v else b.get i := by
  rw [put8, get_splice]
  by_cases h : i = off ∧ i < n
  · rw [if_pos h, if_pos (by omega)]
  · rw [if_neg h, if_neg (by omega)]

theorem get_put8_same (v : Byte) (h : off < n) :
    (b.put8 off v).get off = v := by
  rw [get_put8, if_pos ⟨rfl, h⟩]

theorem get_put8_out {v : Byte} (h : i ≠ off) :
    (b.put8 off v).get i = b.get i := by
  rw [get_put8, if_neg fun hi => h hi.1]

section

variable (b : Buf n) {k j : Nat} (hk : k < 8 * n)
include hk

/-- The bits of the byte that was stored, and the other bits. -/
theorem bit_put8 (x : Byte) :
    (b.put8 (k / 8) x).bit j = if j / 8 = k / 8 then x.getLsbD (j % 8) else b.bit j := by
  rw [bit_eq_getLsbD, bit_eq_getLsbD, get_put8]
  by_cases hd : j / 8 = k / 8
  · rw [if_pos ⟨hd, by omega⟩, if_pos hd]
  · rw [if_neg (by omega), if_neg hd]

theorem bit_setBit :
    (b.setBit k).bit j = (decide (j = k) || b.bit j) := by
  have hm : k % 8 < 8 := Nat.mod_lt _ (by omega)
  rw [setBit, bit_put8 b hk, bit_eq_getLsbD b j]
  by_cases hd : j / 8 = k / 8
  · have hbit : decide (k % 8 = j % 8) = decide (j = k) := by grind
    rw [if_pos hd, hd, BitVec.getLsbD_or, ← BitVec.twoPow_eq, BitVec.getLsbD_twoPow, hbit,
      decide_eq_true hm, Bool.true_and, Bool.or_comm]
  · have he : j ≠ k := fun h => hd (by rw [h])
    simp [hd, he]

theorem bit_clearBit :
    (b.clearBit k).bit j = (!decide (j = k) && b.bit j) := by
  have hm : k % 8 < 8 := Nat.mod_lt _ (by omega)
  have hm' : j % 8 < 8 := Nat.mod_lt _ (by omega)
  rw [clearBit, bit_put8 b hk, bit_eq_getLsbD b j]
  by_cases hd : j / 8 = k / 8
  · have hbit : decide (k % 8 = j % 8) = decide (j = k) := by grind
    rw [if_pos hd, hd, BitVec.getLsbD_and, BitVec.getLsbD_not, ← BitVec.twoPow_eq,
      BitVec.getLsbD_twoPow, hbit, decide_eq_true hm, decide_eq_true hm', Bool.true_and,
      Bool.true_and, Bool.and_comm]
  · have he : j ≠ k := fun h => hd (by rw [h])
    simp [hd, he]

end

theorem ext_bit {a b : Buf n} (h : ∀ k, k < 8 * n → a.bit k = b.bit k) : a = b := by
  refine ext_get fun i hi => BitVec.eq_of_getLsbD_eq fun j hj => ?_
  have hbit := h (8 * i + j) (by omega)
  rwa [bit_eq_getLsbD, bit_eq_getLsbD, show (8 * i + j) / 8 = i by omega,
    show (8 * i + j) % 8 = j by omega] at hbit

/-- A bit that is set already. -/
theorem setBit_of_bit {k : Nat} (hk : k < 8 * n) (h : b.bit k = true) :
    b.setBit k = b := by
  refine ext_bit fun j _ => ?_
  rw [bit_setBit b hk]
  by_cases hj : j = k
  · simp [hj, h]
  · simp [hj]

theorem bit_slice (b : Buf n) {j : Nat} (hj : j < 8 * m) :
    (b.slice off m).bit j = b.bit (8 * off + j) := by
  have hd : (8 * off + j) / 8 = off + j / 8 := by omega
  have hm : (8 * off + j) % 8 = j % 8 := by omega
  rw [bit_eq_getLsbD, bit_eq_getLsbD, get_slice_lt _ (by omega), hd, hm]

end Buf

/-! ### C strings -/

/-- A NUL-terminated string, given by the bytes before its terminator. -/
structure CStr where
  /-- The bytes before the terminator. -/
  chars : List Byte
  /-- The terminator is the first NUL. -/
  nz : ∀ b ∈ chars, b ≠ 0
  deriving DecidableEq

namespace CStr

theorem nz_nil : ∀ b ∈ ([] : List Byte), b ≠ 0 := List.forall_mem_nil _

/-- `strlen`. -/
def length (s : CStr) : Nat := s.chars.length

/-- `s[i]`, with the terminator (and nothing beyond it) after the last character. -/
def at' (s : CStr) (i : Nat) : Byte := s.chars.getD i 0

theorem at_ne_zero {s : CStr} {i : Nat} (h : i < s.length) : s.at' i ≠ 0 := by
  have hi : i < s.chars.length := h
  rw [at', List.getD_eq_getElem _ _ hi]
  exact s.nz _ (List.getElem_mem hi)

theorem at_of_ge {s : CStr} {i : Nat} (h : s.length ≤ i) : s.at' i = 0 :=
  List.getD_eq_default _ _ h

theorem ext_at {s t : CStr} (h : ∀ i, s.at' i = t.at' i) : s = t := by
  have hlen : s.length = t.length := by
    rcases Nat.lt_trichotomy s.length t.length with hlt | heq | hgt
    · exact absurd (h s.length ▸ at_of_ge (Nat.le_refl _)) (at_ne_zero hlt)
    · exact heq
    · exact absurd ((h t.length).trans (at_of_ge (Nat.le_refl _))) (at_ne_zero hgt)
  have hc : s.chars = t.chars := by
    apply List.ext_getElem hlen
    intro i h1 h2
    have := h i
    rwa [at', at', List.getD_eq_getElem _ _ h1, List.getD_eq_getElem _ _ h2] at this
  cases s
  cases t
  simp only at hc
  subst hc
  rfl

theorem ext_chars {s t : CStr} (h : s.chars = t.chars) : s = t := by
  cases s
  cases t
  congr

end CStr

/-- `strcmp(p, s) == 0`, where `mem j` is the byte at `p + j`. -/
def strEq (mem : Nat → Byte) (s : CStr) : Bool :=
  (List.range (s.length + 1)).all fun j => mem j == s.at' j

theorem strEq_iff {mem : Nat → Byte} {s : CStr} :
    strEq mem s = true ↔ ∀ j, j ≤ s.length → mem j = s.at' j := by
  simp [strEq, List.all_eq_true]

end Crusadia
