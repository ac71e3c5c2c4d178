import Crusadia.Lib.Buf

/-!
# Crusadia.Lib.Disk

**An error-free block device**: an array of 512-byte sectors, addressed by LBA,
that also records which sectors have been written.

Reads and writes of one sector are the only operations, so a driver's effect on a
disk is a sequence of `Disk.write`s. The record (`Disk.trace`) is there for
statements about *where* a driver writes: a sector overwritten with the bytes it
already held is still a sector written.
-/

namespace Crusadia

/-- One disk sector. -/
abbrev Sector := Buf 512

/-- A disk: the contents of every sector, and the sectors written so far (the
latest first). -/
structure Disk where
  /-- The contents of the sector at an LBA. -/
  read : Nat → Sector
  /-- The LBAs written so far, the latest first. -/
  trace : List Nat

namespace Disk

section

variable (d : Disk) (lba : Nat) (sec : Sector)

/-- Write one sector. -/
def write : Disk where
  read := fun a => if a = lba then sec else d.read a
  trace := lba :: d.trace

theorem read_write (a : Nat) :
    (d.write lba sec).read a = if a = lba then sec else d.read a := rfl

@[simp] theorem read_write_same :
    (d.write lba sec).read lba = sec := if_pos rfl

end

theorem read_write_ne {d : Disk} {lba a : Nat} {sec : Sector} (h : a ≠ lba) :
    (d.write lba sec).read a = d.read a := if_neg h

/-- Write the same sector contents to `count` consecutive sectors from `start` on. -/
def fill (sec : Sector) (start : Nat) : Nat → Disk → Disk
  | 0, d => d
  | count + 1, d => fill sec (start + 1) count (d.write start sec)

theorem read_fill (sec : Sector) (start count : Nat) (d : Disk) (a : Nat) :
    (fill sec start count d).read a =
      if start ≤ a ∧ a < start + count then sec else d.read a := by
  induction count generalizing start d with
  | zero =>
    rw [fill, if_neg (by omega)]
  | succ count ih =>
    rw [fill, ih, read_write]
    by_cases h : a = start
    · subst h
      rw [if_neg (by omega), if_pos rfl, if_pos (by omega)]
    · rw [if_neg h]
      by_cases h' : start + 1 ≤ a ∧ a < start + 1 + count
      · rw [if_pos h', if_pos (by omega)]
      · rw [if_neg h', if_neg (by omega)]

/-- A loop that writes `f 0`, `f 1`, … to consecutive sectors. -/
theorem read_foldl_write (f : Nat → Sector) (start : Nat) (d : Disk) (n a : Nat) :
    ((List.range n).foldl (fun d i => d.write (start + i) (f i)) d).read a =
      if start ≤ a ∧ a < start + n then f (a - start) else d.read a := by
  induction n with
  | zero => rw [List.range_zero, List.foldl_nil, if_neg (by omega)]
  | succ n ih =>
    rw [List.range_succ, List.foldl_append, List.foldl_cons, List.foldl_nil, read_write, ih]
    by_cases h : a = start + n
    · rw [if_pos h, if_pos (by omega), h, Nat.add_sub_cancel_left]
    · rw [if_neg h]
      by_cases h' : start ≤ a ∧ a < start + n
      · rw [if_pos h', if_pos (by omega)]
      · rw [if_neg h', if_neg (by omega)]

end Disk

/-- A loop that loads `f 0`, `f 1`, … to consecutive places of a buffer. -/
theorem Buf.slice_foldl_splice {n : Nat} (f : Nat → Sector) (b : Buf n) : ∀ {m k : Nat},
    m * 512 ≤ n → k < m →
    ((List.range m).foldl (fun b i => b.splice (i * 512) 512 (f i).get) b).slice (k * 512) 512 =
      f k := by
  intro m
  induction m with
  | zero => exact fun _ hk => absurd hk (Nat.not_lt_zero _)
  | succ m ih =>
    intro k hm hk
    rw [Nat.succ_mul] at hm
    rw [List.range_succ, List.foldl_append, List.foldl_cons, List.foldl_nil]
    by_cases hkm : k = m
    · rw [hkm]
      exact Buf.slice_splice_same (by omega)
    · have hm' : m * 512 ≤ n := Nat.le_of_add_right_le hm
      have hk' : k < m := by omega
      rw [Buf.slice_splice_disjoint (by omega)]
      exact ih hm' hk'

end Crusadia
