import Crusadia.Lib.Buf
import Crusadia.Lib.Along

/-!
# Crusadia.Kernel.Stdin

The ring between the keyboards and the reader of `stdin` (`terminal.c`): whatever the order of keys
and reads, it answers as a queue with room for 255 characters (`stdin_fifo`).
-/

namespace Crusadia.Kernel

/-- `stdin_ring`; head and tail wrap at its size, 256. -/
structure Ring where
  cells : BitVec 8 → Byte
  head : BitVec 8
  tail : BitVec 8

inductive StdinCall
  | feed (c : Byte)
  | getc

namespace Ring

/-- What `stdin_feed` lets pass. `char` is signed: 0x80 and above are less than 0x20. -/
def accepts (c : Byte) : Bool := !c.slt 0x20 || c == 0x0A || c == 0x09 || c == 0x08

/-- `stdin_feed` -/
def feed (r : Ring) (c : Byte) : Ring :=
  if !accepts c then r
  else
    let next := r.head + 1
    if next = r.tail then r else { r with cells := Function.update r.cells r.head c, head := next }

/-- `stdin_getc`; `none` is `-1`. -/
def getc (r : Ring) : Option Byte × Ring :=
  if r.tail = r.head then (none, r) else (some (r.cells r.tail), { r with tail := r.tail + 1 })

def call (r : Ring) : StdinCall → Option Byte × Ring
  | .feed c => (none, r.feed c)
  | .getc => r.getc

/-- The characters from the tail to the head. -/
def queue (r : Ring) : List Byte :=
  (List.range (r.head - r.tail).toNat).map fun i => r.cells (r.tail + BitVec.ofNat 8 i)

end Ring

def fifo (q : List Byte) : StdinCall → Option Byte × List Byte
  | .feed c => (none, if Ring.accepts c ∧ q.length < 255 then q ++ [c] else q)
  | .getc => (q.head?, q.tail)

theorem Ring.queue_feed (r : Ring) (c : Byte) : (r.feed c).queue =
    if accepts c ∧ r.queue.length < 255 then r.queue ++ [c] else r.queue := by
  have hlen : r.queue.length = (r.head - r.tail).toNat := by simp [queue]
  rw [hlen, feed]
  cases accepts c with
  | false => simp
  | true =>
    by_cases hfull : r.head + 1 = r.tail
    · have : ¬ (r.head - r.tail).toNat < 255 := by bv_omega
      rw [if_neg (by simp), if_pos hfull, if_neg fun h => this h.2]
    · have hroom : (r.head - r.tail).toNat < 255 := by bv_omega
      have hnext : (r.head + 1 - r.tail).toNat = (r.head - r.tail).toNat + 1 := by bv_omega
      rw [if_neg (by simp), if_neg hfull, if_pos ⟨rfl, hroom⟩]
      simp only [queue, hnext, List.range_succ, List.map_append, List.map_singleton]
      congr 1
      · refine List.map_congr_left fun i hi => Function.update_of_ne ?_ _ _
        have := List.mem_range.mp hi
        bv_omega
      · have hlast : r.tail + BitVec.ofNat 8 (r.head - r.tail).toNat = r.head := by bv_omega
        rw [hlast, Function.update_self]

theorem Ring.queue_getc (r : Ring) : r.getc.1 = r.queue.head? ∧ r.getc.2.queue = r.queue.tail := by
  by_cases hempty : r.tail = r.head
  · simp [getc, queue, hempty]
  · obtain ⟨n, hn⟩ : ∃ n, (r.head - r.tail).toNat = n + 1 :=
      Nat.exists_eq_succ_of_ne_zero (by bv_omega)
    have hrest : (r.head - (r.tail + 1)).toNat = n := by bv_omega
    simp only [getc, queue, hempty, if_false, hn, hrest, List.range_succ_eq_map, List.map_cons,
      List.map_map, List.head?_cons, List.tail_cons]
    refine ⟨by simp, List.map_congr_left fun i _ => congrArg r.cells ?_⟩
    bv_omega

/-- For every interleaving of keys and reads, the reads get the keys in their order, none twice and
none lost but those that find 255 waiting. -/
theorem stdin_fifo (r : Ring) (calls : List StdinCall) :
    trace Ring.call r calls = trace fifo r.queue calls := by
  induction calls generalizing r with
  | nil => rfl
  | cons c calls ih =>
    have hcall : (r.call c).1 = (fifo r.queue c).1 ∧ (r.call c).2.queue = (fifo r.queue c).2 := by
      cases c with
      | feed c => exact ⟨rfl, r.queue_feed c⟩
      | getc => exact r.queue_getc
    rw [trace, trace, ih, hcall.1, hcall.2]

end Crusadia.Kernel
