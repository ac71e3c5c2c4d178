import Crusadia.Lib.CycleRing

/-!
# Crusadia.Usb.Xhci

The **transfer rings** of the xHCI driver, `xhci.c`: `xhci_ring_push` writes work into a ring of
transfer request blocks (TRBs) and the controller takes it out. The last TRB of a ring is a link
back to its start, which the driver hands over together with the last work item of each lap.

The controller is the consumer that the xHCI specification describes: a dequeue pointer and a
consumer cycle state; it takes the TRB at the pointer if the cycle bit of the TRB is its own, and
at a link TRB it goes where the link points and flips its state if the link says so. It takes
exactly the pushed work, in the order of the pushes (`Ring.serves`).
-/

namespace Crusadia.Xhci

open CycleRing

/-! ### xhci.h -/

/-- `xhci_trb_t` -/
structure Trb where
  pLo : BitVec 32
  pHi : BitVec 32
  status : BitVec 32
  control : BitVec 32
  deriving DecidableEq

abbrev XHCI_TRB_TYPE_SHIFT : Nat := 10
abbrev XHCI_TRB_TC : BitVec 32 := 0x2
abbrev XHCI_TRB_IOC : BitVec 32 := 0x20
abbrev XHCI_TRB_TYPE_NORMAL : BitVec 32 := 1
abbrev XHCI_TRB_TYPE_LINK : BitVec 32 := 6
abbrev XHCI_TRB_TYPE_TRANSFER_EVENT : BitVec 32 := 32

/-- Whether the low bit, which is the cycle bit of a control word, is set. -/
def lowBit (x : BitVec 32) : Bool := x &&& 1 == 1

namespace Trb

/-- The cycle bit. -/
def cycle (t : Trb) : Bool := lowBit t.control

/-- The type field. -/
def type (t : Trb) : BitVec 32 := (t.control >>> XHCI_TRB_TYPE_SHIFT) &&& 0x3F

/-- The TRB without its cycle bit. -/
def payload (t : Trb) : Trb := { t with control := t.control &&& ~~~1 }

end Trb

/-- The TRB that memset leaves. -/
def zeroTrb : Trb := ⟨0, 0, 0, 0⟩

/-! ### xhci_ring_push -/

/-- A ring of `count` TRBs at `base`, in memory by address, with `*enq` and `*cycle` of the
driver. -/
structure Ring where
  base : BitVec 32
  count : Nat
  mem : Nat → Trb
  enq : Nat
  cycle : BitVec 32

/-- `&ring[i]` -/
def Ring.addr (r : Ring) (i : Nat) : Nat := r.base.toNat + 16 * i

/-- `ring[i] = t` -/
def Ring.set (r : Ring) (i : Nat) (t : Trb) : Ring :=
  { r with mem := Function.update r.mem (r.addr i) t }

/-- `xhci_ring_push`: the address of the TRB, and the ring. -/
def xhciRingPush (r : Ring) (pLo pHi status controlNoCycle : BitVec 32) : Nat × Ring :=
  let trb := r.addr r.enq
  let r := r.set r.enq ⟨pLo, pHi, status, controlNoCycle ||| (r.cycle &&& 1)⟩
  let r := { r with enq := r.enq + 1 }
  if r.enq ≥ r.count - 1 then
    let r := r.set (r.count - 1) ⟨r.base, 0, 0,
      (XHCI_TRB_TYPE_LINK <<< XHCI_TRB_TYPE_SHIFT) ||| XHCI_TRB_TC ||| (r.cycle &&& 1)⟩
    (trb, { r with enq := 0, cycle := r.cycle ^^^ 1 })
  else (trb, r)

/-! ### The controller -/

/-- The dequeue pointer, the consumer cycle state, and the work that was taken. -/
structure Consumer where
  deq : Nat
  ccs : Bool
  taken : List Trb

/-- One step of the consumer. -/
def Consumer.step (mem : Nat → Trb) (c : Consumer) : Consumer :=
  let t := mem c.deq
  if t.cycle ≠ c.ccs then c
  else if t.type = XHCI_TRB_TYPE_LINK then
    { c with
      deq := t.pLo.toNat + 2 ^ 32 * t.pHi.toNat
      ccs := if t.control &&& XHCI_TRB_TC ≠ 0 then !c.ccs else c.ccs }
  else { c with deq := c.deq + 16, taken := c.taken ++ [t.payload] }

/-- Work for the controller: the arguments of `xhci_ring_push`, whose control word has no cycle bit
and is not that of a link. -/
structure Work extends Trb where
  noCycle : control &&& 1 = 0
  notLink : toTrb.type ≠ XHCI_TRB_TYPE_LINK

/-- A ring as the driver sets it up, and a controller that starts at it: memory cleared, the cycle
of the driver and of the controller set. -/
structure System where
  ring : Ring
  consumer : Consumer
  /-- the work that was pushed -/
  pushed : List Trb

/-- The start of a ring of `count` TRBs at `base`, whose memory is cleared. -/
def System.start (base : BitVec 32) (count : Nat) : System where
  ring := ⟨base, count, fun _ => zeroTrb, 0, 1⟩
  consumer := ⟨base.toNat, true, []⟩
  pushed := []

/-- The driver pushes work. -/
def System.push (s : System) (w : Work) : System :=
  { s with
    ring := (xhciRingPush s.ring w.pLo w.pHi w.status w.control).2
    pushed := s.pushed ++ [w.toTrb] }

/-- The controller makes a step. -/
def System.consume (s : System) : System := { s with consumer := s.consumer.step s.ring.mem }

/-- The states of a ring under any interleaving of pushes and steps of the controller in which the
driver is never a full lap, of `count - 1` TRBs, ahead. -/
inductive System.Reach (base : BitVec 32) (count : Nat) : System → Prop where
  | start : Reach base count (System.start base count)
  | push {s : System} (h : Reach base count s) (w : Work)
      (hlap : s.pushed.length + 1 < s.consumer.taken.length + (count - 1)) :
      Reach base count (s.push w)
  | consume {s : System} (h : Reach base count s) : Reach base count s.consume

/-! ### Control words -/

theorem getLsbD_one_eq (i : Nat) : (1 : BitVec 32).getLsbD i = decide (i = 0) := by
  simp [BitVec.getLsbD_one]

theorem and_one_eq (x : BitVec 32) : x &&& 1 = if x.getLsbD 0 then 1 else 0 := by
  apply BitVec.eq_of_getLsbD_eq
  intro i hi
  cases hx : x.getLsbD 0 <;> cases i <;> simp_all

theorem lowBit_eq (x : BitVec 32) : lowBit x = x.getLsbD 0 := by
  rw [lowBit, and_one_eq]
  cases x.getLsbD 0 <;> rfl

theorem lowBit_zero : lowBit 0 = false := by decide

theorem lowBit_one : lowBit 1 = true := by decide

theorem lowBit_xor_one (x : BitVec 32) : lowBit (x ^^^ 1) = !lowBit x := by
  simp [lowBit_eq]

section

variable {x : BitVec 32} (h : x &&& 1 = 0) (c : BitVec 32)
include h

theorem getLsbD_zero_of_noCycle : x.getLsbD 0 = false := by
  have := and_one_eq x
  rw [h] at this
  cases hx : x.getLsbD 0 with
  | false => rfl
  | true =>
    rw [hx] at this
    cases this

theorem lowBit_or_cycle : lowBit (x ||| (c &&& 1)) = lowBit c := by
  rw [lowBit_eq, lowBit_eq, BitVec.getLsbD_or, BitVec.getLsbD_and, getLsbD_zero_of_noCycle h]
  simp

/-- Taking the cycle bit out of a control word gives what was passed to `xhci_ring_push`. -/
theorem or_cycle_and_not_one : (x ||| (c &&& 1)) &&& ~~~1 = x := by
  have h0 := getLsbD_zero_of_noCycle h
  apply BitVec.eq_of_getLsbD_eq
  intro i hi
  simp only [BitVec.getLsbD_and, BitVec.getLsbD_or, BitVec.getLsbD_not, getLsbD_one_eq, hi]
  cases i with
  | zero => simp only [h0, decide_true, Bool.not_true, Bool.and_false]
  | succ i => simp

end

theorem Trb.type_payload (t : Trb) : t.payload.type = t.type := by
  unfold Trb.payload Trb.type
  apply BitVec.eq_of_getLsbD_eq
  intro i hi
  simp only [BitVec.getLsbD_and, BitVec.getLsbD_ushiftRight, BitVec.getLsbD_not, getLsbD_one_eq]
  by_cases h : XHCI_TRB_TYPE_SHIFT + i < 32
  · simp [h]
  · have hlt : t.control.getLsbD (XHCI_TRB_TYPE_SHIFT + i) = false :=
      BitVec.getLsbD_of_ge _ _ (by omega)
    simp [hlt]

/-- The control word of the link TRB. -/
def linkControl (c : BitVec 32) : BitVec 32 :=
  (XHCI_TRB_TYPE_LINK <<< XHCI_TRB_TYPE_SHIFT) ||| XHCI_TRB_TC ||| (c &&& 1)

theorem linkControl_spec (c base : BitVec 32) :
    lowBit (linkControl c) = lowBit c ∧ (⟨base, 0, 0, linkControl c⟩ : Trb).type =
      XHCI_TRB_TYPE_LINK ∧ linkControl c &&& XHCI_TRB_TC ≠ 0 := by
  refine ⟨lowBit_or_cycle (by decide) c, ?_, ?_⟩
  · simp only [Trb.type, linkControl, and_one_eq]
    cases c.getLsbD 0 <;> decide
  · simp only [linkControl, and_one_eq]
    cases c.getLsbD 0 <;> decide

/-! ### The ring and its consumer -/

/-- The TRBs of the ring, by index. -/
def Ring.cells (r : Ring) (i : Nat) : Trb := r.mem (r.addr i)

variable {r : Ring}

theorem Ring.addr_inj {i j : Nat} : r.addr i = r.addr j ↔ i = j := by
  unfold Ring.addr
  omega

theorem Ring.cells_set (r : Ring) (i : Nat) (t : Trb) :
    (r.set i t).cells = Function.update r.cells i t := by
  funext j
  by_cases h : j = i
  · subst h
    simp [Ring.cells, Ring.set, Ring.addr]
  · have ha : r.addr j ≠ r.addr i := fun he => h (Ring.addr_inj.mp he)
    rw [Function.update_of_ne h]
    exact Function.update_of_ne ha _ _

/-- What `xhci_ring_push` does, by whether it comes to the link. -/
theorem xhciRingPush_eq (r : Ring) (pLo pHi status control : BitVec 32) :
    (xhciRingPush r pLo pHi status control).2 =
      if r.enq + 1 ≥ r.count - 1 then
        { (r.set r.enq ⟨pLo, pHi, status, control ||| (r.cycle &&& 1)⟩).set (r.count - 1)
            ⟨r.base, 0, 0, linkControl r.cycle⟩ with
          enq := 0, cycle := r.cycle ^^^ 1 }
      else { r.set r.enq ⟨pLo, pHi, status, control ||| (r.cycle &&& 1)⟩ with
        enq := r.enq + 1 } := by
  unfold xhciRingPush
  exact apply_ite Prod.snd _ _ _

/-- The producer's side: `n` work TRBs and the link. -/
structure RingInv (base : BitVec 32) (n : Nat) (r : Ring) (pushed : List Trb) : Prop where
  base_eq : r.base = base
  count_eq : r.count = n + 1
  enq : r.enq = pushed.length % n
  cycle : lowBit r.cycle = phase n pushed.length
  filled : Filled n Trb.cycle Trb.payload r.cells pushed
  work : ∀ t ∈ pushed, t.type ≠ XHCI_TRB_TYPE_LINK
  -- the link is the one of the lap before, if there was a lap before
  linkCycle : (r.cells n).cycle = !phase n pushed.length
  link : n ≤ pushed.length → ∃ c, r.cells n = ⟨base, 0, 0, linkControl c⟩

variable {base : BitVec 32} {n : Nat} {pushed : List Trb} {c : Consumer}

theorem RingInv.start (hn : 0 < n) : RingInv base n (System.start base (n + 1)).ring [] where
  base_eq := rfl
  count_eq := rfl
  enq := by simp [System.start]
  cycle := by rw [List.length_nil, phase_of_lt hn]; exact lowBit_one
  filled := Filled.nil fun _ => lowBit_zero
  work := by simp
  linkCycle := by rw [List.length_nil, phase_of_lt hn]; exact lowBit_zero
  link h := absurd h (by simp; omega)

theorem RingInv.push (h : RingInv base n r pushed) (hn : 0 < n) (w : Work) :
    RingInv base n (xhciRingPush r w.pLo w.pHi w.status w.control).2 (pushed ++ [w.toTrb]) := by
  obtain ⟨hbase, hcount, henq, hcycle, hfilled, hwork, hlc, hlink⟩ := h
  have hlt := Nat.mod_lt pushed.length hn
  generalize ht : (⟨w.pLo, w.pHi, w.status, w.control ||| (r.cycle &&& 1)⟩ : Trb) = t
  have htc : t.cycle = phase n pushed.length := by
    rw [← hcycle, ← ht]
    exact lowBit_or_cycle w.noCycle r.cycle
  have htp : t.payload = w.toTrb := by
    rw [← ht]
    simp only [Trb.payload, or_cycle_and_not_one w.noCycle r.cycle]
  have hfill : Filled n Trb.cycle Trb.payload (r.set r.enq t).cells (pushed ++ [w.toTrb]) := by
    rw [Ring.cells_set, henq, ← htp]
    exact hfilled.push htc
  have hwork' : ∀ u ∈ pushed ++ [w.toTrb], u.type ≠ XHCI_TRB_TYPE_LINK := by
    intro u hu
    rcases List.mem_append.mp hu with hu | hu
    · exact hwork u hu
    · rw [List.mem_singleton.mp hu]
      exact w.notLink
  rw [xhciRingPush_eq, ht]
  by_cases hw : r.enq + 1 ≥ r.count - 1
  · -- the lap is complete, and the link is handed over with the cycle of this lap
    have hmod : pushed.length % n + 1 = n := by omega
    have hcells : ∀ (e : Nat) (c : BitVec 32), ({ (r.set r.enq t).set (r.count - 1)
        ⟨r.base, 0, 0, linkControl r.cycle⟩ with enq := e, cycle := c } : Ring).cells =
        Function.update (r.set r.enq t).cells n ⟨r.base, 0, 0, linkControl r.cycle⟩ := by
      intro e c
      rw [← show r.count - 1 = n by omega, ← Ring.cells_set]
      rfl
    have hphase : phase n (pushed ++ [w.toTrb]).length = !phase n pushed.length := by
      rw [List.length_append, List.length_singleton, phase_eq_not (succ_div_of_eq hmod)]
    rw [if_pos hw]
    refine ⟨hbase, hcount, ?_, ?_, ?_, hwork', ?_, fun _ => ⟨r.cycle, ?_⟩⟩
    · rw [List.length_append, List.length_singleton, succ_mod_of_eq hmod]
    · rw [hphase, ← hcycle]
      exact lowBit_xor_one r.cycle
    · rw [hcells]
      exact hfill.congr hn fun i hi => Function.update_of_ne (by omega) _ _
    · rw [hcells, Function.update_self, hphase, Bool.not_not, ← hcycle]
      exact (linkControl_spec r.cycle r.base).1
    · rw [hcells, Function.update_self, hbase]
  · have hmod : pushed.length % n + 1 < n := by omega
    have hcells : ({ r.set r.enq t with enq := r.enq + 1 } : Ring).cells = (r.set r.enq t).cells :=
      rfl
    have hlast : (r.set r.enq t).cells n = r.cells n := by
      rw [Ring.cells_set]
      exact Function.update_of_ne (by omega) _ _
    have hphase : phase n (pushed ++ [w.toTrb]).length = phase n pushed.length := by
      rw [List.length_append, List.length_singleton, phase_congr (succ_div_of_lt hmod)]
    rw [if_neg hw]
    refine ⟨hbase, hcount, ?_, ?_, ?_, hwork', ?_, fun hle => ?_⟩
    · rw [List.length_append, List.length_singleton, succ_mod_of_lt hmod, ← henq]
    · rw [hphase]
      exact hcycle
    · rw [hcells]
      exact hfill
    · rw [hcells, hlast, hphase, hlc]
    · rw [hcells, hlast]
      apply hlink
      -- in the first lap the index is the number of items
      by_contra hlt
      rw [List.length_append, List.length_singleton] at hle
      rw [Nat.mod_eq_of_lt (by omega)] at hmod
      omega

/-- The consumer is at the TRB of its next item, or still at the link before it. -/
inductive Consumer.At (r : Ring) (n : Nat) (c : Consumer) : Prop where
  | slot (hdeq : c.deq = r.addr (c.taken.length % n)) (hccs : c.ccs = phase n c.taken.length)
  | link (hdeq : c.deq = r.addr n) (hmod : c.taken.length % n = 0) (hpos : 0 < c.taken.length)
      (hccs : c.ccs = !phase n c.taken.length)

/-- The controller has taken the first items of the pushed ones, and is less than a lap behind. -/
structure System.Inv (base : BitVec 32) (n : Nat) (s : System) : Prop where
  ring : RingInv base n s.ring s.pushed
  taken : s.consumer.taken <+: s.pushed
  lap : s.pushed.length < s.consumer.taken.length + n
  pos : s.consumer.At s.ring n

theorem System.Inv.push {s : System} (h : s.Inv base n) (hn : 0 < n) (w : Work)
    (hlap : s.pushed.length + 1 < s.consumer.taken.length + n) : (s.push w).Inv base n where
  ring := h.ring.push hn w
  taken := h.taken.trans (List.prefix_append _ _)
  lap := by simpa [System.push] using hlap
  pos := by
    have hbase : (xhciRingPush s.ring w.pLo w.pHi w.status w.control).2.base = s.ring.base :=
      (h.ring.push hn w).base_eq.trans h.ring.base_eq.symm
    have haddr : ∀ i, (s.push w).ring.addr i = s.ring.addr i := by
      intro i
      simp only [System.push, Ring.addr, hbase]
    cases h.pos with
    | slot hdeq hccs => exact .slot (by rw [haddr]; exact hdeq) hccs
    | link hdeq hmod hpos hccs => exact .link (by rw [haddr]; exact hdeq) hmod hpos hccs

/-- At the TRB of an item that was pushed, the controller takes it. -/
theorem Consumer.step_slot (hr : RingInv base n r pushed)
    (hlap : pushed.length < c.taken.length + n) (hdeq : c.deq = r.addr (c.taken.length % n))
    (hccs : c.ccs = phase n c.taken.length) (hlt : c.taken.length < pushed.length) :
    c.step r.mem = { c with deq := c.deq + 16, taken := c.taken ++ [pushed[c.taken.length]] } := by
  obtain ⟨hcycle, hval⟩ := hr.filled.written c.taken.length hlt (by omega)
  have hcell : r.mem c.deq = r.cells (c.taken.length % n) := by rw [hdeq]; rfl
  have htype : (r.mem c.deq).type ≠ XHCI_TRB_TYPE_LINK := by
    rw [hcell, ← Trb.type_payload, hval]
    exact hr.work _ (List.getElem_mem hlt)
  rw [← hcell] at hcycle hval
  simp only [Consumer.step]
  rw [if_neg (by simp [hcycle, hccs]), if_neg htype, hval]

/-- At the TRB of the item that comes next, the controller waits. -/
theorem Consumer.step_idle (hr : RingInv base n r pushed) (hn : 0 < n)
    (hdeq : c.deq = r.addr (c.taken.length % n)) (hccs : c.ccs = phase n c.taken.length)
    (heq : c.taken.length = pushed.length) :
    c.step r.mem = c := by
  have hnext := hr.filled.next hn
  have hcell : r.mem c.deq = r.cells (pushed.length % n) := by rw [hdeq, heq]; rfl
  rw [← hcell] at hnext
  simp only [Consumer.step]
  rw [if_pos (by rw [hnext, hccs, heq]; simp)]

/-- At the link, the controller goes to the start of the ring. -/
theorem Consumer.step_link (hr : RingInv base n r pushed) (hle : c.taken.length ≤ pushed.length)
    (hlap : pushed.length < c.taken.length + n) (hdeq : c.deq = r.addr n)
    (hmod : c.taken.length % n = 0) (hpos : 0 < c.taken.length)
    (hccs : c.ccs = !phase n c.taken.length) :
    c.step r.mem = { c with deq := base.toNat, ccs := !c.ccs } := by
  have hdvd := Nat.dvd_of_mod_eq_zero hmod
  have hn : n ≤ c.taken.length := Nat.le_of_dvd hpos hdvd
  have hdiv : pushed.length / n = c.taken.length / n := by
    rw [Nat.div_eq_iff (by omega)]
    have := Nat.div_mul_cancel hdvd
    omega
  obtain ⟨x, hx⟩ := hr.link (by omega)
  have hcell : r.mem c.deq = ⟨base, 0, 0, linkControl x⟩ := by
    rw [hdeq]
    exact hx
  have hcycle : (r.mem c.deq).cycle = c.ccs := by
    have hlc := hr.linkCycle
    rw [hx] at hlc
    rw [hcell, hlc, hccs, phase_congr hdiv]
  obtain ⟨-, htype, htc⟩ := linkControl_spec x base
  simp only [Consumer.step]
  rw [if_neg (by simp [hcycle]), hcell, if_pos htype, if_pos htc]
  simp

section

variable {s : System}

/-- The controller takes the next item. -/
theorem System.Inv.take (h : s.Inv base n) (hn : 0 < n)
    (hdeq : s.consumer.deq = s.ring.addr (s.consumer.taken.length % n))
    (hccs : s.consumer.ccs = phase n s.consumer.taken.length)
    (hlt : s.consumer.taken.length < s.pushed.length) :
    s.consume.Inv base n ∧
      s.consume.consumer.taken = s.consumer.taken ++ [s.pushed[s.consumer.taken.length]] := by
  have hstep := Consumer.step_slot h.ring h.lap hdeq hccs hlt
  have hcons : s.consume.consumer = _ := hstep
  have htaken : s.consume.consumer.taken =
      s.consumer.taken ++ [s.pushed[s.consumer.taken.length]] := by rw [hcons]
  have hlen : s.consume.consumer.taken.length = s.consumer.taken.length + 1 := by simp [htaken]
  refine ⟨⟨h.ring, ?_, ?_, ?_⟩, htaken⟩
  · rw [htaken]
    exact prefix_append_next h.taken hlt
  · rw [hlen]
    have := h.lap
    show s.pushed.length < _
    omega
  · have hmod := Nat.mod_lt s.consumer.taken.length hn
    have haddr : s.consume.consumer.deq = s.ring.addr (s.consumer.taken.length % n + 1) := by
      rw [hcons, hdeq]
      simp only [Ring.addr]
      omega
    have hccs' : s.consume.consumer.ccs = phase n s.consumer.taken.length := by rw [hcons, hccs]
    by_cases hend : s.consumer.taken.length % n + 1 = n
    · refine .link (haddr.trans (by rw [hend]; rfl)) ?_ (by omega) ?_
      · rw [hlen, succ_mod_of_eq hend]
      · rw [hlen, hccs', phase_eq_not (succ_div_of_eq hend), Bool.not_not]
    · refine .slot (haddr.trans ?_) ?_
      · rw [hlen, succ_mod_of_lt (by omega)]
        rfl
      · rw [hlen, hccs', phase_congr (succ_div_of_lt (by omega))]

/-- The controller follows the link and is at the TRB of its next item. -/
theorem System.Inv.follow (h : s.Inv base n) (hdeq : s.consumer.deq = s.ring.addr n)
    (hmod : s.consumer.taken.length % n = 0) (hpos : 0 < s.consumer.taken.length)
    (hccs : s.consumer.ccs = !phase n s.consumer.taken.length) :
    s.consume.consumer.taken = s.consumer.taken ∧
      s.consume.consumer.deq = s.ring.addr (s.consumer.taken.length % n) ∧
      s.consume.consumer.ccs = phase n s.consumer.taken.length := by
  have hcons : s.consume.consumer = _ :=
    Consumer.step_link h.ring h.taken.length_le h.lap hdeq hmod hpos hccs
  refine ⟨by rw [hcons], ?_, by rw [hcons, hccs, Bool.not_not]⟩
  rw [hcons, hmod, Ring.addr, h.ring.base_eq]
  simp

theorem System.Inv.consume (h : s.Inv base n) (hn : 0 < n) : s.consume.Inv base n := by
  cases h.pos with
  | slot hdeq hccs =>
    rcases Nat.lt_or_ge s.consumer.taken.length s.pushed.length with hlt | hge
    · exact (h.take hn hdeq hccs hlt).1
    · have heq := Nat.le_antisymm h.taken.length_le hge
      have hidle : s.consume = s := by
        rw [System.consume, Consumer.step_idle h.ring hn hdeq hccs heq]
      rw [hidle]
      exact h
  | link hdeq hmod hpos hccs =>
    obtain ⟨htaken, hdeq', hccs'⟩ := h.follow hdeq hmod hpos hccs
    refine ⟨h.ring, by rw [htaken]; exact h.taken, by rw [htaken]; exact h.lap, .slot ?_ ?_⟩
    · rw [htaken, hdeq']
      rfl
    · rw [htaken, hccs']

/-- The controller, left to itself, takes everything that was pushed. -/
theorem System.Inv.drain (h : s.Inv base n) (hn : 0 < n) :
    ∃ k, (System.consume^[k] s).consumer.taken = s.pushed := by
  obtain ⟨m, hm⟩ := Nat.exists_eq_add_of_le h.taken.length_le
  induction m generalizing s with
  | zero => exact ⟨0, h.taken.eq_of_length (by omega)⟩
  | succ m ih =>
    -- a step from the TRB of the next item leaves one item less
    have hslot : ∀ t : System, t.Inv base n → t.pushed = s.pushed →
        t.consumer.taken = s.consumer.taken →
        t.consumer.deq = t.ring.addr (t.consumer.taken.length % n) →
        t.consumer.ccs = phase n t.consumer.taken.length →
        ∃ k, (System.consume^[k] t).consumer.taken = s.pushed := by
      intro t ht hp htk hdeq hccs
      obtain ⟨hinv, htaken⟩ := ht.take hn hdeq hccs (by rw [htk, hp]; omega)
      have hlen : t.consume.consumer.taken.length = s.consumer.taken.length + 1 := by
        rw [htaken, List.length_append, List.length_singleton, htk]
      have hpush : t.consume.pushed = s.pushed := hp
      obtain ⟨k, hk⟩ := ih hinv (by rw [hpush, hlen]; omega)
      exact ⟨k + 1, by rw [Function.iterate_succ_apply, hk, hpush]⟩
    cases h.pos with
    | slot hdeq hccs => exact hslot s h rfl rfl hdeq hccs
    | link hdeq hmod hpos hccs =>
      obtain ⟨htaken, hdeq', hccs'⟩ := h.follow hdeq hmod hpos hccs
      obtain ⟨k, hk⟩ := hslot s.consume (h.consume hn) rfl htaken (by rw [htaken, hdeq']; rfl)
        (by rw [htaken, hccs'])
      exact ⟨k + 1, by rw [Function.iterate_succ_apply, hk]⟩

end

theorem System.Inv.start (hn : 0 < n) : (System.start base (n + 1)).Inv base n where
  ring := RingInv.start hn
  taken := List.prefix_refl _
  lap := by simpa [System.start] using hn
  pos := .slot (by simp [System.start, Ring.addr]) (by simp [System.start, phase_of_lt hn])

theorem System.Reach.inv {s : System} (hn : 0 < n) (h : System.Reach base (n + 1) s) :
    s.Inv base n := by
  induction h with
  | start => exact System.Inv.start hn
  | push _ w hlap ih => exact ih.push hn w hlap
  | consume _ ih => exact ih.consume hn

/-- Everything that was handed over has been taken or will be, each item once and in order. -/
structure Served {σ : Type} (handed taken : List Trb) (step : σ → σ) (result : σ → List Trb)
    (s : σ) : Prop where
  taken : taken <+: handed
  all : ∃ k, result (step^[k] s) = handed

/-- The controller takes exactly the pushed work. -/
theorem Ring.serves {s : System} (hn : 0 < n) (h : System.Reach base (n + 1) s) :
    Served s.pushed s.consumer.taken System.consume (fun s => s.consumer.taken) s :=
  ⟨(h.inv hn).taken, (h.inv hn).drain hn⟩

end Crusadia.Xhci
