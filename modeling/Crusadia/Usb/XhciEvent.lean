import Crusadia.Usb.Xhci

/-!
# Crusadia.Usb.XhciEvent

The **event ring** of the xHCI driver: the controller produces events and
`xhci_process_one_event` consumes them. For the report of an interrupt endpoint it calls the
handler of the device, and only then moves the dequeue pointer. A handler that waits for a
transfer itself consumes the same event again: the handler of a keyboard runs the command line,
and a command may talk to a USB device. Without that, the events are consumed once each and in
order (`rings_serve`).
-/

namespace Crusadia.Xhci

open CycleRing

abbrev XHCI_EVT_TRB_COUNT : Nat := 256
abbrev XHCI_XFER_TRB_COUNT : Nat := 256
abbrev XHCI_COMP_SUCCESS : BitVec 32 := 1
abbrev XHCI_RT_IR0 : Nat := 0x20
abbrev XHCI_IR_ERDP_LO : Nat := 0x18
abbrev XHCI_IR_ERDP_HI : Nat := 0x1C

/-- `xhci_intr_ctx_t`; the handler is given with the event that calls it. -/
structure IntrCtx where
  active : Bool
  ring : Ring
  buf : BitVec 32
  maxpkt : Int
  dci : BitVec 32
  slotId : Nat
  outstanding : Nat
  completions : BitVec 32
  errors : BitVec 32

/-- The fields of `xhci_hc_t` for the event ring, and `g_intr`; the handler calls, and the writes to
the doorbells and the runtime registers, are recorded. -/
structure Hc where
  evtBase : BitVec 32
  /-- `evt_ring`, by index -/
  evtRing : Nat → Trb
  evtDeq : Nat
  evtCycle : BitVec 32
  intr : Nat → IntrCtx
  intrCount : Nat
  calls : List (Nat × Int)
  doorbells : List (Nat × BitVec 32)
  rtWrites : List (Nat × BitVec 32)
  /-- the events that were consumed; the driver does not keep them -/
  taken : List Trb

/-- `xhci_update_erdp` -/
def xhciUpdateErdp (hc : Hc) : Hc :=
  let addr := hc.evtBase + BitVec.ofNat 32 (16 * hc.evtDeq)
  { hc with rtWrites := hc.rtWrites ++
      [(XHCI_RT_IR0 + XHCI_IR_ERDP_LO, addr ||| (1 <<< 3)), (XHCI_RT_IR0 + XHCI_IR_ERDP_HI, 0)] }

/-- `comp_ok` for an event. -/
def compOk (ev : Trb) : Bool :=
  let code := (ev.status >>> 24) &&& 0xFF
  code == XHCI_COMP_SUCCESS || code == 13

/-- `actual` for an event. -/
def actual (ic : IntrCtx) (ev : Trb) : Int := ic.maxpkt - (ev.status &&& 0xFFFFFF).toNat

/-- The interrupt endpoint whose outstanding TRB the event reports. -/
def findIntr (hc : Hc) (ev : Trb) : Option Nat :=
  (List.range hc.intrCount).find? fun i =>
    (hc.intr i).active && (hc.intr i).outstanding == ev.pLo.toNat

/-- The TRB of the endpoint is pushed again, and the doorbell rung. -/
def rearm (hc : Hc) (i : Nat) : Hc :=
  let ic := hc.intr i
  let (trb, ring) := xhciRingPush { ic.ring with count := XHCI_XFER_TRB_COUNT } ic.buf 0
    (BitVec.ofInt 32 ic.maxpkt)
    ((XHCI_TRB_TYPE_NORMAL <<< XHCI_TRB_TYPE_SHIFT) ||| XHCI_TRB_IOC)
  { hc with
    intr := Function.update hc.intr i { ic with ring, outstanding := trb }
    doorbells := hc.doorbells ++ [(ic.slotId, ic.dci)] }

/-- The loop of `xhci_process_one_event` over the interrupt endpoints; `callback` is what the
handler of the device does. -/
def serveIntr (callback : Hc → Hc) (hc : Hc) (ev : Trb) : Hc :=
  match findIntr hc ev with
  | none => hc
  | some i =>
    let ic := hc.intr i
    let hc :=
      if compOk ev && decide (actual ic ev > 0) then
        callback { hc with
          intr := Function.update hc.intr i { ic with completions := ic.completions + 1 }
          calls := hc.calls ++ [(i, actual ic ev)] }
      else if !compOk ev then
        { hc with intr := Function.update hc.intr i { ic with errors := ic.errors + 1 } }
      else hc
    rearm hc i

/-- `evt_deq` moves on. -/
def nextEvent (hc : Hc) : Hc :=
  let hc := { hc with evtDeq := hc.evtDeq + 1 }
  if hc.evtDeq ≥ XHCI_EVT_TRB_COUNT then { hc with evtDeq := 0, evtCycle := hc.evtCycle ^^^ 1 }
  else hc

/-- `xhci_process_one_event`: the event in `*out`, or `none` for the result 0. -/
def xhciProcessOneEvent (callback : Hc → Hc) (hc : Hc) : Option Trb × Hc :=
  let ev := hc.evtRing hc.evtDeq
  if lowBit ev.control ≠ lowBit hc.evtCycle then (none, hc)
  else
    let hc := { hc with taken := hc.taken ++ [ev.payload] }
    let hc := if ev.type = XHCI_TRB_TYPE_TRANSFER_EVENT then serveIntr callback hc ev else hc
    (some ev, xhciUpdateErdp (nextEvent hc))

/-- What a handler does with the event ring: nothing, or it processes an event, whose handler does
`first`, and goes on as `rest`. -/
inductive Callback where
  | done
  | event (first rest : Callback)

def Callback.run : Callback → Hc → Hc
  | .done, hc => hc
  | .event first rest, hc => rest.run (xhciProcessOneEvent first.run hc).2

/-! ### The controller -/

/-- The driver, and the controller as the producer of events: its enqueue index, its cycle state
and the events it has produced. -/
structure EventSystem where
  hc : Hc
  enq : Nat
  pcs : Bool
  produced : List Trb

/-- The controller produces an event. -/
def EventSystem.produce (s : EventSystem) (e : Trb) : EventSystem :=
  let t : Trb := { e with control := e.payload.control ||| if s.pcs then 1 else 0 }
  { hc := { s.hc with evtRing := Function.update s.hc.evtRing s.enq t }
    enq := if s.enq + 1 ≥ XHCI_EVT_TRB_COUNT then 0 else s.enq + 1
    pcs := if s.enq + 1 ≥ XHCI_EVT_TRB_COUNT then !s.pcs else s.pcs
    produced := s.produced ++ [e.payload] }

/-- The driver processes an event. -/
def EventSystem.process (callback : Callback) (s : EventSystem) : EventSystem :=
  { s with hc := (xhciProcessOneEvent callback.run s.hc).2 }

/-- The event ring as `xhci_probe_and_init` sets it up. -/
def EventSystem.Start (s : EventSystem) : Prop :=
  s.hc.evtRing = (fun _ => zeroTrb) ∧ s.hc.evtDeq = 0 ∧ s.hc.evtCycle = 1 ∧ s.hc.taken = [] ∧
    s.enq = 0 ∧ s.pcs = true ∧ s.produced = []

/-- The states under any interleaving of the two in which the controller is never a full lap ahead;
the driver may set up interrupt endpoints at any time. Calls of `xhci_process_one_event` meet
`C`. -/
inductive EventSystem.Reach (C : Hc → Callback → Prop) : EventSystem → Prop where
  | start {s : EventSystem} (h : s.Start) : Reach C s
  | produce {s : EventSystem} (h : Reach C s) (e : Trb)
      (hlap : s.produced.length + 1 < s.hc.taken.length + XHCI_EVT_TRB_COUNT) :
      Reach C (s.produce e)
  | process {s : EventSystem} (h : Reach C s) (callback : Callback) (hC : C s.hc callback) :
      Reach C (s.process callback)
  | setup {s : EventSystem} (h : Reach C s) (intr : Nat → IntrCtx) (intrCount : Nat) :
      Reach C { s with hc := { s.hc with intr, intrCount } }

/-- The next event is one for which the handler of a device is called. -/
def Hc.invokes (hc : Hc) : Bool :=
  let ev := hc.evtRing hc.evtDeq
  lowBit ev.control == lowBit hc.evtCycle && ev.type == XHCI_TRB_TYPE_TRANSFER_EVENT &&
    match findIntr hc ev with
    | none => false
    | some i => compOk ev && decide (actual (hc.intr i) ev > 0)

/-- The handler that the call invokes, if it invokes one, processes no event itself. -/
def Safe (hc : Hc) (callback : Callback) : Prop := hc.invokes = true → callback = .done

/-! ### Events are consumed once -/

/-- The event ring and what was consumed from it are the same. -/
structure SameEvents (hc hc' : Hc) : Prop where
  evtRing : hc'.evtRing = hc.evtRing
  evtDeq : hc'.evtDeq = hc.evtDeq
  evtCycle : hc'.evtCycle = hc.evtCycle
  taken : hc'.taken = hc.taken

theorem SameEvents.refl (hc : Hc) : SameEvents hc hc := ⟨rfl, rfl, rfl, rfl⟩

/-- Serving an interrupt endpoint does not touch the event ring, if the handler does not. -/
theorem sameEvents_serveIntr (callback : Callback) (hc : Hc) (ev : Trb)
    (h : (∃ i, findIntr hc ev = some i ∧
      (compOk ev && decide (actual (hc.intr i) ev > 0)) = true) → callback = .done) :
    SameEvents hc (serveIntr callback.run hc ev) := by
  unfold serveIntr
  cases hf : findIntr hc ev with
  | none => exact SameEvents.refl hc
  | some i =>
    by_cases hok : (compOk ev && decide (actual (hc.intr i) ev > 0)) = true
    · rw [h ⟨i, hf, hok⟩]
      simp only [if_pos hok]
      exact ⟨rfl, rfl, rfl, rfl⟩
    · simp only [if_neg hok]
      split
      · exact ⟨rfl, rfl, rfl, rfl⟩
      · exact ⟨rfl, rfl, rfl, rfl⟩

variable {callback : Callback}

/-- An event that is there is consumed, and the dequeue pointer moves to the next one. -/
theorem process_event {hc : Hc} (hsafe : Safe hc callback)
    (hcycle : lowBit (hc.evtRing hc.evtDeq).control = lowBit hc.evtCycle) :
    ∃ hc', SameEvents { hc with taken := hc.taken ++ [(hc.evtRing hc.evtDeq).payload] } hc' ∧
      (xhciProcessOneEvent callback.run hc).2 = xhciUpdateErdp (nextEvent hc') := by
  unfold xhciProcessOneEvent
  simp only
  rw [if_neg (not_not.mpr hcycle)]
  refine ⟨_, ?_, rfl⟩
  split
  · next htype =>
    apply sameEvents_serveIntr
    rintro ⟨i, hi, hok⟩
    apply hsafe
    have hfind : findIntr hc (hc.evtRing hc.evtDeq) = some i := hi
    have hok' : (compOk (hc.evtRing hc.evtDeq) &&
        decide (actual (hc.intr i) (hc.evtRing hc.evtDeq) > 0)) = true := hok
    simp only [Hc.invokes, hcycle, htype, hfind, hok', beq_self_eq_true, Bool.and_true]
  · exact SameEvents.refl _

/-- The ring holds what was produced, and the driver has consumed the first of it. -/
structure EventSystem.Inv (s : EventSystem) : Prop where
  filled : Filled XHCI_EVT_TRB_COUNT Trb.cycle Trb.payload s.hc.evtRing s.produced
  enq : s.enq = s.produced.length % XHCI_EVT_TRB_COUNT
  pcs : s.pcs = phase XHCI_EVT_TRB_COUNT s.produced.length
  taken : s.hc.taken <+: s.produced
  lap : s.produced.length < s.hc.taken.length + XHCI_EVT_TRB_COUNT
  deq : s.hc.evtDeq = s.hc.taken.length % XHCI_EVT_TRB_COUNT
  cycle : lowBit s.hc.evtCycle = phase XHCI_EVT_TRB_COUNT s.hc.taken.length

/-- An index of the event ring moves on, with the phase of its lap. -/
theorem index_next (p : Nat) :
    (if p % XHCI_EVT_TRB_COUNT + 1 ≥ XHCI_EVT_TRB_COUNT then 0 else p % XHCI_EVT_TRB_COUNT + 1) =
        (p + 1) % XHCI_EVT_TRB_COUNT ∧
      (if p % XHCI_EVT_TRB_COUNT + 1 ≥ XHCI_EVT_TRB_COUNT then !phase XHCI_EVT_TRB_COUNT p
        else phase XHCI_EVT_TRB_COUNT p) = phase XHCI_EVT_TRB_COUNT (p + 1) := by
  have hlt : p % XHCI_EVT_TRB_COUNT < XHCI_EVT_TRB_COUNT := Nat.mod_lt _ (by decide)
  by_cases h : p % XHCI_EVT_TRB_COUNT + 1 ≥ XHCI_EVT_TRB_COUNT
  · have he : p % XHCI_EVT_TRB_COUNT + 1 = XHCI_EVT_TRB_COUNT := Nat.le_antisymm hlt h
    rw [if_pos h, if_pos h, succ_mod_of_eq he, phase_eq_not (succ_div_of_eq he)]
    exact ⟨rfl, rfl⟩
  · have hl : p % XHCI_EVT_TRB_COUNT + 1 < XHCI_EVT_TRB_COUNT := Nat.not_le.mp h
    rw [if_neg h, if_neg h, succ_mod_of_lt hl, phase_congr (succ_div_of_lt hl)]
    exact ⟨rfl, rfl⟩

theorem nextEvent_spec {hc : Hc} {p : Nat} (hdeq : hc.evtDeq = p % XHCI_EVT_TRB_COUNT)
    (hcycle : lowBit hc.evtCycle = phase XHCI_EVT_TRB_COUNT p) :
    (nextEvent hc).evtRing = hc.evtRing ∧ (nextEvent hc).taken = hc.taken ∧
      (nextEvent hc).evtDeq = (p + 1) % XHCI_EVT_TRB_COUNT ∧
      lowBit (nextEvent hc).evtCycle = phase XHCI_EVT_TRB_COUNT (p + 1) := by
  obtain ⟨hnext, hphase⟩ := index_next p
  rw [← hnext, ← hphase, ← hdeq, ← hcycle, ← lowBit_xor_one]
  unfold nextEvent
  by_cases h : hc.evtDeq + 1 ≥ XHCI_EVT_TRB_COUNT
  · simp only [if_pos h, and_self]
  · simp only [if_neg h, and_self]

section

variable {s : EventSystem}

theorem EventSystem.Start.inv (h : s.Start) : s.Inv := by
  obtain ⟨hring, hdeq, hcycle, htaken, henq, hpcs, hproduced⟩ := h
  have hpos : 0 < XHCI_EVT_TRB_COUNT := by decide
  refine ⟨?_, ?_, ?_, ?_, ?_, ?_, ?_⟩
  · rw [hproduced]
    exact Filled.nil fun i => by rw [hring]; exact lowBit_zero
  · rw [henq, hproduced]
    rfl
  · rw [hpcs, hproduced, List.length_nil, phase_of_lt hpos]
  · rw [htaken]
    exact List.nil_prefix
  · rw [hproduced, List.length_nil]
    omega
  · rw [hdeq, htaken]
    rfl
  · rw [hcycle, htaken, List.length_nil, phase_of_lt hpos]
    exact lowBit_one

theorem EventSystem.Inv.produce (h : s.Inv) (e : Trb)
    (hlap : s.produced.length + 1 < s.hc.taken.length + XHCI_EVT_TRB_COUNT) :
    (s.produce e).Inv := by
  obtain ⟨hnext, hphase⟩ := index_next s.produced.length
  have hno : e.payload.control &&& 1 = 0 := by
    have h1 : (~~~1 &&& 1 : BitVec 32) = 0 := by decide
    rw [Trb.payload, BitVec.and_assoc, h1]
    exact BitVec.and_zero
  have hpcs : (if s.pcs then 1 else 0 : BitVec 32) = (if s.pcs then 1 else 0) &&& 1 := by
    cases s.pcs <;> decide
  refine ⟨?_, ?_, ?_, h.taken.trans (List.prefix_append _ _), ?_, h.deq, h.cycle⟩
  · have hval : ({ e with control := e.payload.control ||| if s.pcs then 1 else 0 } : Trb).payload =
        e.payload := by
      rw [hpcs, Trb.payload, Trb.mk.injEq]
      exact ⟨rfl, rfl, rfl, or_cycle_and_not_one hno _⟩
    have hbit : ({ e with control := e.payload.control ||| if s.pcs then 1 else 0 } : Trb).cycle =
        phase XHCI_EVT_TRB_COUNT s.produced.length := by
      rw [← h.pcs, Trb.cycle, hpcs, lowBit_or_cycle hno]
      cases s.pcs <;> decide
    have hpush := h.filled.push hbit
    rwa [hval, ← h.enq] at hpush
  · simp only [EventSystem.produce, h.enq, List.length_append, List.length_singleton, hnext]
  · simp only [EventSystem.produce, h.enq, h.pcs, List.length_append, List.length_singleton, hphase]
  · simpa [EventSystem.produce] using hlap

/-- An event that was produced is consumed. -/
theorem EventSystem.Inv.take (h : s.Inv) (hsafe : Safe s.hc callback)
    (hlt : s.hc.taken.length < s.produced.length) :
    (s.process callback).Inv ∧
      (s.process callback).hc.taken = s.hc.taken ++ [s.produced[s.hc.taken.length]] := by
  have hlap := h.lap
  obtain ⟨hbit, hval⟩ := h.filled.written s.hc.taken.length hlt (Nat.le_of_lt hlap)
  rw [← h.deq] at hbit hval
  obtain ⟨hc', hsame, heq⟩ := process_event hsafe (hbit.trans h.cycle.symm)
  obtain ⟨hnext, hphase⟩ := index_next s.hc.taken.length
  have hdeq' : hc'.evtDeq = s.hc.taken.length % XHCI_EVT_TRB_COUNT := hsame.evtDeq.trans h.deq
  have hcyc' : lowBit hc'.evtCycle = phase XHCI_EVT_TRB_COUNT s.hc.taken.length := by
    rw [hsame.evtCycle]
    exact h.cycle
  obtain ⟨hring, htaken, hdeq, hcyc⟩ := nextEvent_spec hdeq' hcyc'
  have hproc : (s.process callback).hc = xhciUpdateErdp (nextEvent hc') := heq
  have htk : (s.process callback).hc.taken = s.hc.taken ++ [s.produced[s.hc.taken.length]] := by
    rw [hproc, ← hval]
    exact htaken.trans hsame.taken
  have hlen : (s.process callback).hc.taken.length = s.hc.taken.length + 1 := by simp [htk]
  refine ⟨⟨?_, h.enq, h.pcs, ?_, ?_, ?_, ?_⟩, htk⟩
  · have hr : (s.process callback).hc.evtRing = s.hc.evtRing := by
      rw [hproc]
      exact hring.trans hsame.evtRing
    rw [hr]
    exact h.filled
  · rw [htk]
    exact prefix_append_next h.taken hlt
  · rw [hlen]
    show s.produced.length < _
    omega
  · rw [hlen, hproc]
    exact hdeq
  · rw [hlen, hproc]
    exact hcyc

/-- Without an event nothing happens. -/
theorem EventSystem.Inv.idle (h : s.Inv) (callback : Callback)
    (heq : s.hc.taken.length = s.produced.length) : s.process callback = s := by
  have hbit := h.filled.next (by decide)
  have hne : lowBit (s.hc.evtRing s.hc.evtDeq).control ≠ lowBit s.hc.evtCycle := by
    rw [h.cycle, h.deq, heq]
    intro he
    have hb : lowBit (s.hc.evtRing (s.produced.length % XHCI_EVT_TRB_COUNT)).control =
      !phase XHCI_EVT_TRB_COUNT s.produced.length := hbit
    rw [hb] at he
    cases hp : phase XHCI_EVT_TRB_COUNT s.produced.length <;> simp [hp] at he
  simp only [EventSystem.process, xhciProcessOneEvent]
  rw [if_pos hne]

theorem EventSystem.Inv.process (h : s.Inv) (hsafe : Safe s.hc callback) :
    (s.process callback).Inv := by
  rcases Nat.lt_or_ge s.hc.taken.length s.produced.length with hlt | hge
  · exact (h.take hsafe hlt).1
  · rw [h.idle callback (Nat.le_antisymm h.taken.length_le hge)]
    exact h

/-- Handlers that just return let the driver consume all events. -/
theorem EventSystem.Inv.drain (h : s.Inv) :
    ∃ k, ((EventSystem.process .done)^[k] s).hc.taken = s.produced := by
  obtain ⟨m, hm⟩ := Nat.exists_eq_add_of_le h.taken.length_le
  induction m generalizing s with
  | zero => exact ⟨0, h.taken.eq_of_length (by omega)⟩
  | succ m ih =>
    have hsafe : Safe s.hc .done := fun _ => rfl
    obtain ⟨hinv, htaken⟩ := h.take hsafe (by omega)
    have hprod : (s.process .done).produced = s.produced := rfl
    obtain ⟨k, hk⟩ := ih hinv (by rw [hprod, htaken]; simp; omega)
    exact ⟨k + 1, by rw [Function.iterate_succ_apply, hk, hprod]⟩

end

theorem EventSystem.Reach.inv {s : EventSystem} (h : EventSystem.Reach Safe s) : s.Inv := by
  induction h with
  | start h => exact h.inv
  | produce _ e hlap ih => exact ih.produce e hlap
  | process _ callback hC ih => exact ih.process hC
  | setup _ intr intrCount ih =>
    exact ⟨ih.filled, ih.enq, ih.pcs, ih.taken, ih.lap, ih.deq, ih.cycle⟩

/-- The controller takes exactly the work that was pushed; and the driver consumes exactly the
events that were produced, as long as no handler processes events. -/
theorem rings_serve {base : BitVec 32} {count : Nat} {s : System} {e : EventSystem}
    (hcount : 3 ≤ count) (hs : System.Reach base count s) (he : EventSystem.Reach Safe e) :
    Served s.pushed s.consumer.taken System.consume (fun s => s.consumer.taken) s ∧
      Served e.produced e.hc.taken (EventSystem.process .done) (fun s => s.hc.taken) e := by
  obtain ⟨n, rfl⟩ := Nat.exists_eq_add_of_le' (show 1 ≤ count by omega)
  exact ⟨Ring.serves (by omega) hs, he.inv.taken, he.inv.drain⟩

/-- A report of eight bytes from the endpoint whose TRB is at address 4096. -/
def report : Trb := ⟨0x1000, 0, 0x1000000, 0x8000⟩

/-- An interrupt endpoint that waits for that report. -/
def keyboard : IntrCtx := ⟨true, ⟨0x1000, 256, fun _ => zeroTrb, 1, 1⟩, 0, 8, 3, 1, 0x1000, 0, 0⟩

/-- The event ring at its start, with that endpoint. -/
def idleSystem : EventSystem :=
  ⟨⟨0x2000, fun _ => zeroTrb, 0, 1, fun _ => keyboard, 1, [], [], [], []⟩, 0, true, []⟩

/-- A transfer of eight bytes. -/
def transfer : Work := ⟨⟨0x3000, 0, 8, 0x420⟩, by decide, by decide⟩

/-- A ring onto which two transfers were pushed, of which the controller has taken one. -/
def busyRing : System := ((System.start 0x1000 4).push transfer).consume.push transfer

theorem rings_serve_report :
    Served [transfer.toTrb, transfer.toTrb] [transfer.toTrb] System.consume
        (fun s => s.consumer.taken) busyRing ∧
      Served [report] [report] (EventSystem.process .done) (fun s => s.hc.taken)
        ((idleSystem.produce report).process .done) := by
  have hpush : System.Reach 0x1000 4 busyRing :=
    ((System.Reach.start.push transfer (by decide)).consume).push transfer (by decide +kernel)
  have hrun : EventSystem.Reach Safe ((idleSystem.produce report).process .done) :=
    ((EventSystem.Reach.start ⟨rfl, rfl, rfl, rfl, rfl, rfl, rfl⟩).produce report
      (by decide)).process .done fun _ => rfl
  have h := rings_serve (by decide) hpush hrun
  have hq : busyRing.consumer.taken = [transfer.toTrb] := by decide +kernel
  have hp : ((idleSystem.produce report).process .done).produced = [report] := by decide +kernel
  have ht : ((idleSystem.produce report).process .done).hc.taken = [report] := by decide +kernel
  rw [hq, hp, ht] at h
  exact h

/-- One report is produced; its handler waits for an event, as a command does that talks to a
device. The report is consumed twice. -/
theorem report_twice :
    EventSystem.Reach (fun _ _ => True)
        ((idleSystem.produce report).process (.event .done .done)) ∧
      ((idleSystem.produce report).process (.event .done .done)).produced = [report] ∧
      ((idleSystem.produce report).process (.event .done .done)).hc.taken = [report, report] := by
  refine ⟨((EventSystem.Reach.start ⟨rfl, rfl, rfl, rfl, rfl, rfl, rfl⟩).produce report
    (by decide)).process _ trivial, by decide +kernel, by decide +kernel⟩

end Crusadia.Xhci
