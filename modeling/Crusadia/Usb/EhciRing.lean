import Crusadia.Usb.Ehci

/-!
# Crusadia.Usb.EhciRing

The **asynchronous schedule** of the EHCI driver is a ring of queue heads in memory that the
controller walks through their `horiz_link` words. It holds the head of the driver alone, and
during a transfer the queue head of the transfer too (`Placed.circle_linked`).

`ehci_submit` puts the queue head into the ring, unless the controller is halted and does not
restart; the callers take it out in any case. A queue head that was never put in has a link of
0, and taking it out writes that 0 into the head (`Transfer.link_eq_zero`).
-/

namespace Crusadia.Ehci

open Kernel

/-! ### The reads do not change memory -/

section

variable (c : Controller) (s : St)

@[simp] theorem mem_opRead (reg : Nat) : (opRead c s reg).2.mem = s.mem := rfl

@[simp] theorem mem_opWrite (reg : Nat) (v : BitVec 32) : (opWrite s reg v).mem = s.mem := rfl

@[simp] theorem mem_tokenRead (addr : Nat) : (tokenRead c s addr).2.mem = s.mem := rfl

@[simp] theorem mem_uframesSince (start : BitVec 32) : (uframesSince c s start).2.mem = s.mem := rfl

@[simp] theorem mem_spin (done : BitVec 32 → Bool) (after limit : Nat) (start : BitVec 32)
    (left spins : Nat) : (spin c done after limit start left spins s).2.mem = s.mem := by
  induction left generalizing spins s with
  | zero =>
    unfold spin
    simp only
    split <;> rfl
  | succ left ih =>
    unfold spin
    simp only
    split
    · rfl
    split
    · split
      · rfl
      · rw [ih]; rfl
    · rw [ih]; rfl

@[simp] theorem mem_ehciEnsureRunning : (ehciEnsureRunning c s).2.mem = s.mem := by
  unfold ehciEnsureRunning
  simp only
  split
  · rfl
  · rw [mem_spin]; rfl

@[simp] theorem mem_ehciAsyncEnable : (ehciAsyncEnable c s).2.mem = s.mem := by
  unfold ehciAsyncEnable
  simp only [mem_opRead, mem_spin]
  split <;> rfl

@[simp] theorem mem_waitLoop (qh last limit : Nat) (start : BitVec 32) (left : Nat) :
    (waitLoop c qh last limit start left s).2.mem = s.mem := by
  induction left generalizing s with
  | zero =>
    unfold waitLoop
    simp only
    split
    · rfl
    split <;> rfl
  | succ left ih =>
    unfold waitLoop
    simp only
    split
    · rfl
    split
    · rfl
    split
    · rfl
    · rw [ih]; rfl

@[simp] theorem mem_ehciWaitDone (qh last timeoutMs : Nat) :
    (ehciWaitDone c s qh last timeoutMs).2.mem = s.mem := by
  unfold ehciWaitDone
  simp only [mem_waitLoop, mem_opRead]

@[simp] theorem mem_subtractLeft (a : Nat) (len : Int) (is : List Nat) (actual : Int) :
    (subtractLeft c a len is actual s).2.mem = s.mem := by
  induction is generalizing actual s with
  | nil => rfl
  | cons i is ih =>
    unfold subtractLeft
    simp only [ih, mem_tokenRead]

theorem mem_ehciUnlinkQh (hc : Hc) (qh : Nat) :
    (ehciUnlinkQh c hc s qh).mem = s.mem.put32 hc.asyncHead (s.mem.get32 qh) := by
  unfold ehciUnlinkQh
  simp only
  split
  · rfl
  · simp

/-- The queue head `qh` behind the head of the driver. -/
def linked (hc : Hc) (qh : Nat) (m : Mem) : Mem :=
  (m.put32 qh (m.get32 hc.asyncHead)).put32 hc.asyncHead (qh ||| EHCI_LP_TYPE_QH)

theorem mem_ehciSubmit (hc : Hc) (qh last timeoutMs : Nat) :
    (ehciSubmit c hc s qh last timeoutMs).2.mem =
      if (ehciEnsureRunning c s).1 then linked hc qh s.mem else s.mem := by
  unfold ehciSubmit
  simp only
  cases h : (ehciEnsureRunning c s).1 with
  | false => simp
  | true =>
    simp only [Bool.not_true, Bool.false_eq_true, if_false, if_true]
    split
    · simp [linked]
    · simp [linked]

end

/-! ### Writes to the arena -/

/-- The memories agree outside of the bytes `lo .. hi`. -/
def Off (lo hi : Nat) (m m' : Mem) : Prop := ∀ b, b < lo ∨ hi ≤ b → m' b = m b

section

variable {lo hi : Nat} {m m' m'' : Mem}

theorem Off.refl (lo hi : Nat) (m : Mem) : Off lo hi m m := fun _ _ => rfl

theorem Off.trans (h : Off lo hi m m') (h' : Off lo hi m' m'') : Off lo hi m m'' :=
  fun b hb => (h' b hb).trans (h b hb)

theorem Off.mono {lo' hi' : Nat} (h : Off lo hi m m') (hlo : lo' ≤ lo) (hhi : hi ≤ hi') :
    Off lo' hi' m m' :=
  fun b hb => h b (by omega)

theorem Off.get32 (h : Off lo hi m m') {b : Nat} (hb : b + 4 ≤ lo ∨ hi ≤ b) :
    m'.get32 b = m.get32 b :=
  Mem.get32_congr fun k hk => h (b + k) (by omega)

theorem off_store (m : Mem) {a len : Nat} {src : Nat → Byte} (h1 : lo ≤ a) (h2 : a + len ≤ hi) :
    Off lo hi m (m.store a len src) :=
  fun _ hb => Mem.store_out (by omega)

theorem off_putWords (m : Mem) (p i : Nat) (ws : List (BitVec 32)) (h1 : lo ≤ p + 4 * i)
    (h2 : p + 4 * (i + ws.length) ≤ hi) : Off lo hi m (putWords m p i ws) := by
  induction ws generalizing m i with
  | nil => exact Off.refl lo hi m
  | cons w ws ih =>
    rw [List.length_cons] at h2
    exact (off_store m h1 (by omega)).trans (ih _ _ (by omega) (by omega))

theorem length_bufferPointers (buf : Nat) (len : Int) : (bufferPointers buf len).length = 5 := by
  unfold bufferPointers
  split <;> rfl

theorem off_ehciFillQtd (m : Mem) (td : Nat) (pid : BitVec 32) (toggle : Int) (buf : Nat)
    (len : Int) (ioc : Bool) : Off td (td + 32) m (ehciFillQtd m td pid toggle buf len ioc) := by
  have hlen := length_bufferPointers buf len
  exact ((off_putWords _ _ _ _ (by omega) (by simp)).trans
    (off_putWords _ _ _ _ (by omega) (by omega))).trans
    (off_putWords _ _ _ _ (by omega) (by simp))

theorem off_ehciInitQh (m : Mem) (qh : Nat) (dev : UsbDevice) (ep : BitVec 32) (mps : Int)
    (control periodic : Bool) (first : Nat) :
    Off (qh + 4) (qh + 48) m (ehciInitQh m qh dev ep mps control periodic first) :=
  ((off_putWords _ _ _ _ (by omega) (by simp)).trans
    (off_putWords _ _ _ _ (by omega) (by simp))).trans
    (off_putWords _ _ _ _ (by omega) (by simp))

/-- A descriptor of the arena. -/
def InArena (a td : Nat) : Prop := a + 128 ≤ td ∧ td + 64 ≤ a + 4096

variable {a : Nat}

theorem inArena_qtdAddr (ha : a + 4096 ≤ 2 ^ 32) {i : Int} (h0 : 0 ≤ i) (h : i < EHCI_ARENA_QTDS) :
    InArena a (qtdAddr a i) := by
  have hn : EHCI_ARENA_QTDS = 62 := rfl
  unfold InArena qtdAddr
  omega

theorem InArena.off_fillQtd {td : Nat} (h : InArena a td) (m : Mem) (pid : BitVec 32) (toggle : Int)
    (buf : Nat) (len : Int) (ioc : Bool) :
    Off (a + 64) (a + 4096) m (ehciFillQtd m td pid toggle buf len ioc) := by
  obtain ⟨h1, h2⟩ := h
  exact (off_ehciFillQtd _ _ _ _ _ _ _).mono (by omega) (by omega)

theorem InArena.off_putWord {td i : Nat} (h : InArena a td) (hi : i < 16) (m : Mem)
    (w : BitVec 32) :
    Off (a + 64) (a + 4096) m (putWords m td i [w]) := by
  obtain ⟨h1, h2⟩ := h
  exact off_putWords _ _ _ _ (by omega) (by simp; omega)

section

variable (ha : a + 4096 ≤ 2 ^ 32) (buf status : Nat) (len mps : Int) (dirIn : Bool)
include ha

theorem fillChunk_spec {f : Chunks} {c : Nat} (hc : c + 2 ≤ EHCI_ARENA_QTDS - 1)
    (hp : InArena a f.prev) :
    Off (a + 64) (a + 4096) f.mem (fillChunk a buf status len mps dirIn f c).mem ∧
      InArena a (fillChunk a buf status len mps dirIn f c).prev := by
  have hn : EHCI_ARENA_QTDS = 62 := rfl
  have htd : InArena a (qtdAddr a (1 + c)) := inArena_qtdAddr ha (by omega) (by omega)
  refine ⟨?_, htd⟩
  exact ((htd.off_fillQtd _ _ _ _ _ _).trans (htd.off_putWord (by decide) _ _)).trans
    (hp.off_putWord (by decide) _ _)

theorem fillChunks_spec (cs : List Nat) (hcs : ∀ c ∈ cs, c + 2 ≤ EHCI_ARENA_QTDS - 1) {f : Chunks}
    (hp : InArena a f.prev) :
    Off (a + 64) (a + 4096) f.mem (cs.foldl (fillChunk a buf status len mps dirIn) f).mem ∧
      InArena a (cs.foldl (fillChunk a buf status len mps dirIn) f).prev := by
  induction cs generalizing f with
  | nil => exact ⟨Off.refl _ _ _, hp⟩
  | cons c cs ih =>
    have h := fillChunk_spec ha buf status len mps dirIn (hcs c List.mem_cons_self) hp
    have h' := ih (fun d hd => hcs d (List.mem_cons_of_mem _ hd)) h.2
    exact ⟨h.1.trans h'.1, h'.2⟩

end

/-- `nchunks` is right when `len + EHCI_QTD_MAX_BYTES - 1` is an `int`. -/
theorem nchunks_nonneg {len : Int} (h0 : 0 ≤ len) (h : len + EHCI_QTD_MAX_BYTES - 1 < 2 ^ 31) :
    0 ≤ nchunks len := by
  have hn : (EHCI_QTD_MAX_BYTES : Int) = 16384 := rfl
  unfold nchunks
  rw [Int.bmod_eq_of_le (by omega) (by omega)]
  exact Int.tdiv_nonneg (by omega) (by omega)

/-- `ehci_do_control` writes to the arena only, and leaves the link of its queue head at 0. -/
theorem fillControl_spec (ha : a + 4096 ≤ 2 ^ 32) (dev : UsbDevice) (setup : Nat → Byte) (buf : Nat)
    {len : Int} (dirIn : Bool) (h0 : 0 ≤ nchunks len) (h : nchunks len + 2 ≤ EHCI_ARENA_QTDS) :
    Off a (a + 4096) m (fillControl m a dev setup buf len dirIn) ∧
      (fillControl m a dev setup buf len dirIn).get32 a = 0 := by
  have hn : EHCI_ARENA_QTDS = 62 := rfl
  have hst := inArena_qtdAddr ha (i := 1 + nchunks len) (by omega) (by omega)
  have hsu := inArena_qtdAddr ha (i := 0) (by omega) (by omega)
  have hcs : ∀ c ∈ List.range (nchunks len).toNat, c + 2 ≤ EHCI_ARENA_QTDS - 1 := by
    intro c hc
    have := List.mem_range.mp hc
    omega
  unfold fillControl
  simp only
  generalize (if dev.speed = 2 ∧ dev.address = 0 then (64 : Int)
    else if dev.maxPacket0 > 0 then dev.maxPacket0 else 8) = mps
  generalize qtdAddr a (1 + nchunks len) = status at hst
  generalize qtdAddr a 0 = setupTd at hsu
  generalize hm1 : ehciFillQtd _ setupTd _ _ _ _ _ = m1
  have hf := fillChunks_spec ha buf status len mps dirIn (List.range (nchunks len).toNat) hcs
    (f := ⟨m1, setupTd, 1, 0⟩) hsu
  generalize (List.range (nchunks len).toNat).foldl _ _ = f at hf
  have hstore : Off a (a + 4096) m m1 := by
    rw [← hm1]
    exact ((off_store _ (by omega) (by omega)).trans (off_store _ (by omega) (by omega))).trans
      ((hsu.off_fillQtd _ _ _ _ _ _).mono (by omega) (by omega))
  generalize hm2 : ehciFillQtd f.mem status _ _ _ _ _ = m2
  have hstatus : Off (a + 64) (a + 4096) f.mem m2 := hm2 ▸ hst.off_fillQtd _ _ _ _ _ _
  have hprev := hf.2.off_putWord (i := 0) (by decide) m2 (BitVec.ofNat 32 status)
  generalize putWords m2 f.prev 0 [BitVec.ofNat 32 status] = m3 at hprev
  have hq := off_ehciInitQh (m3.fill a 64 0) a dev 0 mps true false setupTd
  constructor
  · exact (hstore.trans (((hf.1.trans hstatus).trans hprev).mono (by omega) (by omega))).trans
      ((off_store _ (by omega) (by omega)).trans (hq.mono (by omega) (by omega)))
  · rw [hq.get32 (by omega)]
    exact Mem.get32_fill_zero (by omega) (by omega)

/-- `ehci_bulk_transfer` writes to the arena only, and leaves the link of its queue head at 0. -/
theorem fillBulk_spec (ha : a + 4096 ≤ 2 ^ 32) (dev : UsbDevice) (epAddr : BitVec 8) (buf : Nat)
    (len : Int) (dirIn : Bool) (toggle maxpkt : Int) :
    Off a (a + 4096) m (fillBulk m a dev epAddr buf len dirIn toggle maxpkt) ∧
      (fillBulk m a dev epAddr buf len dirIn toggle maxpkt).get32 a = 0 := by
  have htd := inArena_qtdAddr ha (i := 0) (by omega) (by decide)
  unfold fillBulk
  simp only
  generalize qtdAddr a 0 = td at htd
  generalize hm1 : ehciFillQtd (m.fill a 4096 0) td _ _ _ _ _ = m1
  have hfill : Off (a + 4) (a + 4096) (m.fill a 4096 0) m1 := by
    rw [← hm1]
    exact (htd.off_fillQtd _ _ _ _ _ _).mono (by omega) (by omega)
  have hq := (off_ehciInitQh m1 a dev (epAddr.setWidth 32 &&& 0xF) maxpkt false false td).mono
    (Nat.le_refl _) (show a + 48 ≤ a + 4096 by omega)
  have hall := hfill.trans hq
  constructor
  · exact (off_store _ (by omega) (by omega)).trans (hall.mono (by omega) (by omega))
  · rw [hall.get32 (by omega)]
    exact Mem.get32_fill_zero (by omega) (by omega)

end

/-! ### The controller restarts -/

/-- The reads that the restart loop makes before turn `j`: one in each turn, and from the turn
1000 on a second one, of the frame index. -/
def readsBefore (j : Nat) : Nat := j + (j - 1000)

/-- The controller runs at read `n`, or the restart loop sees it running before the spins run out
or more than 800 microframes have passed. -/
def Restarts (c : Controller) (n : Nat) : Prop :=
  running (c.reg n EHCI_OP_USBSTS) = true ∨
    ∃ j ≤ EHCI_SPIN_LIMIT, running (c.reg (n + 3 + readsBefore j) EHCI_OP_USBSTS) = true ∧
      ∀ i < j, 1000 ≤ i →
        ((c.reg (n + 3 + readsBefore i + 1) EHCI_OP_FRINDEX - c.reg (n + 2) EHCI_OP_FRINDEX) &&&
          EHCI_UFRAME_MASK).toNat ≤ 800

/-- The first turn of a loop that stops at `P`, as long as `Q` lets it go on. -/
theorem exists_le_succ_iff {P Q : Nat → Prop} {n : Nat} :
    (∃ j ≤ n + 1, P j ∧ ∀ i < j, Q i) ↔
      P 0 ∨ Q 0 ∧ ∃ j ≤ n, P (j + 1) ∧ ∀ i < j, Q (i + 1) := by
  constructor
  · rintro ⟨j, hj, hP, hQ⟩
    cases j with
    | zero => exact .inl hP
    | succ j =>
      exact .inr ⟨hQ 0 (by omega), j, by omega, hP, fun i hi => hQ (i + 1) (by omega)⟩
  · rintro (hP | ⟨hQ0, j, hj, hP, hQ⟩)
    · exact ⟨0, by omega, hP, fun i hi => absurd hi (by omega)⟩
    · refine ⟨j + 1, by omega, hP, fun i hi => ?_⟩
      cases i with
      | zero => exact hQ0
      | succ i => exact hQ i (by omega)

/-- The reads of a waiting loop before its turn `j`, after `spins` turns were made. -/
def turnReads (after spins j : Nat) : Nat := j + (spins + j - after) - (spins - after)

section

variable (c : Controller) (done : BitVec 32 → Bool) (after limit : Nat) (start : BitVec 32)

/-- The state after `n` more reads. -/
def St.skip (s : St) (n : Nat) : St := { s with reads := s.reads + n }

theorem spin_zero (spins : Nat) (s : St) :
    (spin c done after limit start 0 spins s).1 = done (c.reg s.reads EHCI_OP_USBSTS) := by
  unfold spin
  cases h : done (c.reg s.reads EHCI_OP_USBSTS) <;> simp [opRead, h]

theorem spin_succ (left spins : Nat) (s : St) :
    spin c done after limit start (left + 1) spins s =
      if done (c.reg s.reads EHCI_OP_USBSTS) then (true, s.skip 1)
      else if spins + 1 > after then
        if ((c.reg (s.reads + 1) EHCI_OP_FRINDEX - start) &&& EHCI_UFRAME_MASK).toNat > limit then
          (false, s.skip 2)
        else spin c done after limit start left (spins + 1) (s.skip 2)
      else spin c done after limit start left (spins + 1) (s.skip 1) := by
  rw [spin]
  rfl

/-- A waiting loop succeeds in the first turn that sees `done`, if no turn before it gave up. -/
theorem spin_iff (left spins : Nat) (s : St) :
    (spin c done after limit start left spins s).1 = true ↔
      ∃ j ≤ left, done (c.reg (s.reads + turnReads after spins j) EHCI_OP_USBSTS) = true ∧
        ∀ i < j, after ≤ spins + i →
          ((c.reg (s.reads + turnReads after spins i + 1) EHCI_OP_FRINDEX - start) &&&
            EHCI_UFRAME_MASK).toNat ≤ limit := by
  have h0 : ∀ spins, turnReads after spins 0 = 0 := fun _ => by simp [turnReads]
  induction left generalizing spins s with
  | zero => simp [spin_zero, h0]
  | succ left ih =>
    have hspins : ∀ i, spins + 1 + i = spins + (i + 1) := by omega
    rw [exists_le_succ_iff, spin_succ]
    simp only [h0, Nat.add_zero]
    by_cases hd : done (c.reg s.reads EHCI_OP_USBSTS) = true
    · simp [hd]
    rw [if_neg hd, or_iff_right hd]
    by_cases ha : after ≤ spins
    · -- the turn makes two reads
      have hturn : ∀ j, s.reads + turnReads after spins (j + 1) =
          (s.skip 2).reads + turnReads after (spins + 1) j := by
        intro j
        simp only [turnReads, St.skip]
        omega
      simp only [hturn, ha, true_imp_iff]
      rw [if_pos (by omega)]
      by_cases hlt : ((c.reg (s.reads + 1) EHCI_OP_FRINDEX - start) &&&
          EHCI_UFRAME_MASK).toNat > limit
      · rw [if_pos hlt]
        exact iff_of_false Bool.false_ne_true fun h => Nat.not_le.mpr hlt h.1
      · rw [if_neg hlt, and_iff_right (Nat.not_lt.mp hlt)]
        refine (ih (spins + 1) (s.skip 2)).trans ?_
        simp only [hspins]
    · have hturn : ∀ j, s.reads + turnReads after spins (j + 1) =
          (s.skip 1).reads + turnReads after (spins + 1) j := by
        intro j
        simp only [turnReads, St.skip]
        omega
      rw [if_neg (by omega)]
      refine (ih (spins + 1) (s.skip 1)).trans ?_
      simp only [hturn, ha, false_imp_iff, true_and, hspins]

end

theorem turnReads_eq_readsBefore (j : Nat) : turnReads 1000 0 j = readsBefore j := by
  unfold turnReads readsBefore
  rw [Nat.zero_add, Nat.zero_sub, Nat.sub_zero]

theorem ehciEnsureRunning_iff (c : Controller) (s : St) :
    (ehciEnsureRunning c s).1 = true ↔ Restarts c s.reads := by
  unfold ehciEnsureRunning Restarts
  by_cases h : running (opRead c s EHCI_OP_USBSTS).1 = true
  · simp only [if_pos h, true_iff]
    exact .inl h
  · have h' : ¬ running (c.reg s.reads EHCI_OP_USBSTS) = true := h
    simp only [if_neg h]
    rw [spin_iff, or_iff_right h']
    simp only [turnReads_eq_readsBefore, Nat.zero_add, opRead, opWrite]

/-! ### The ring -/

/-- The queue head a link points to; a link that ends the list or has another type has none. -/
def target (link : Nat) : Option Nat :=
  if link % 32 = EHCI_LP_TYPE_QH then some (link - link % 32) else none

/-- The list from `a` through `horiz_link` is `qs` and then the head. -/
def Circle (m : Mem) (head : Nat) : (a : Nat) → (qs : List Nat) → Prop
  | a, [] => target (m.get32 a) = some head
  | a, q :: qs => target (m.get32 a) = some q ∧ q ≠ head ∧ Circle m head q qs

/-- The list from the head returns to the head and contains no other queue head. -/
def IsRing (hc : Hc) (m : Mem) : Prop := Circle m hc.asyncHead hc.asyncHead []

/-- Where `ehci_probe_and_init` puts the head and the arena. The two share a page only when the
physical memory manager had no block for either of them. -/
structure Placed (hc : Hc) : Prop where
  head : hc.asyncHead % 64 = 0 ∧ hc.asyncHead + 64 ≤ 2 ^ 32
  arena : hc.arena % 4096 = 0 ∧ hc.arena + 4096 ≤ 2 ^ 32
  apart : hc.asyncHead = hc.arena ∨ hc.asyncHead / 4096 ≠ hc.arena / 4096

theorem or_typeQh {q : Nat} (h : q % 32 = 0) : q ||| EHCI_LP_TYPE_QH = q + EHCI_LP_TYPE_QH := by
  have h32 : q = 2 ^ 5 * (q / 32) := by omega
  rw [h32]
  exact (Nat.two_pow_add_eq_or_of_lt (by decide) _).symm

theorem target_eq_some_iff {link q : Nat} (h : q % 32 = 0) :
    target link = some q ↔ link = q ||| EHCI_LP_TYPE_QH := by
  have h2 : EHCI_LP_TYPE_QH = 2 := rfl
  rw [or_typeQh h, target]
  split
  · rw [Option.some.injEq]
    omega
  · simp only [reduceCtorEq, false_iff]
    omega

section

variable {hc : Hc} {m : Mem} {c : Controller}

theorem Placed.isRing_iff (h : Placed hc) :
    IsRing hc m ↔ m.get32 hc.asyncHead = hc.asyncHead ||| EHCI_LP_TYPE_QH :=
  target_eq_some_iff (by have := h.head.1; omega)

theorem or_typeQh_mod {q : Nat} (h : q % 32 = 0) (hq : q + 64 ≤ 2 ^ 32) :
    (q ||| EHCI_LP_TYPE_QH) % 2 ^ 32 = q ||| EHCI_LP_TYPE_QH := by
  rw [or_typeQh h]
  have : EHCI_LP_TYPE_QH = 2 := rfl
  omega

/-- During a transfer the ring is the head and the queue head of the transfer. -/
theorem Placed.circle_linked (h : Placed hc) (hne : hc.asyncHead ≠ hc.arena) (hr : IsRing hc m) :
    Circle (linked hc hc.arena m) hc.asyncHead hc.asyncHead [hc.arena] := by
  have ha := h.arena
  have hh := h.head
  have hap := h.apart
  have hlink := h.isRing_iff.mp hr
  refine ⟨?_, fun he => hne he.symm, ?_⟩
  · rw [target_eq_some_iff (by omega), linked, Mem.get32_put32_same]
    exact or_typeQh_mod (by omega) (by omega)
  · change target _ = _
    rw [target_eq_some_iff (by omega), linked, Mem.get32_put32_out (by omega),
      Mem.get32_put32_same, hlink]
    exact or_typeQh_mod (by omega) (by omega)

/-- Putting the queue head of the arena in and taking it out again closes the ring. -/
theorem Placed.relink (h : Placed hc) (hm : hc.asyncHead = hc.arena ∨ IsRing hc m) :
    IsRing hc ((linked hc hc.arena m).put32 hc.asyncHead
      ((linked hc hc.arena m).get32 hc.arena)) := by
  have ha := h.arena
  have hh := h.head
  rw [h.isRing_iff, Mem.get32_put32_same, Nat.mod_eq_of_lt (Mem.get32_lt _ _)]
  by_cases he : hc.asyncHead = hc.arena
  · rw [linked, he, Mem.get32_put32_same]
    exact or_typeQh_mod (by omega) (by omega)
  · have hr := hm.resolve_left he
    have hc' := (h.circle_linked he hr).2.2
    exact (target_eq_some_iff (by omega)).mp hc'

/-! ### Runs -/

/-- A call of one of the transfer functions. -/
inductive Call where
  | control (dev : UsbDevice) (setup : Nat → Byte) (buf : Nat) (len : Int) (dirIn : Bool)
  | bulk (dev : UsbDevice) (epAddr : BitVec 8) (buf : Nat) (len : Int) (dirIn : Bool) (toggle : Int)

/-- The state after the call. -/
def Call.run (c : Controller) (hc : Hc) (s : St) : Call → St
  | .control dev setup buf len dirIn => (ehciDoControl c hc s dev setup buf len dirIn).2
  | .bulk dev epAddr buf len dirIn toggle =>
    (ehciBulkTransfer c hc s dev epAddr buf len dirIn toggle).2

/-- The call is one that the function refuses at once. -/
def Call.Refused : Call → Prop
  | .control _ _ buf len _ =>
    len < 0 ∨ (len > 0 ∧ buf = 0) ∨ nchunks len + 2 > EHCI_ARENA_QTDS
  | .bulk _ _ buf len _ _ => len ≤ 0 ∨ len > EHCI_QTD_MAX_BYTES ∨ buf = 0

/-- No `int` overflows in the call. -/
def Call.InRange : Call → Prop
  | .control _ _ _ len _ => len + EHCI_QTD_MAX_BYTES - 1 < 2 ^ 31
  | .bulk _ _ _ _ _ _ => True

/-- What a call does to memory that is not refused. It fills the arena, with a link of 0 in the
queue head; it links the queue head if the controller runs; it takes the queue head out. -/
def Transfer (hc : Hc) (running : Prop) (m m' : Mem) : Prop :=
  ∃ f l, Off hc.arena (hc.arena + 4096) m f ∧ f.get32 hc.arena = 0 ∧
    (running → l = linked hc hc.arena f) ∧ (¬ running → l = f) ∧
    m' = l.put32 hc.asyncHead (l.get32 hc.arena)

/-- The part that the two functions share. -/
theorem transfer_of_submit {s : St} {f : Mem} (last timeoutMs : Nat)
    (hf : Off hc.arena (hc.arena + 4096) s.mem f) (h0 : f.get32 hc.arena = 0) {s' : St}
    (hs : s'.mem = (ehciSubmit c hc { s with mem := f } hc.arena last timeoutMs).2.mem) :
    Transfer hc (Restarts c s.reads) s.mem (ehciUnlinkQh c hc s' hc.arena).mem := by
  have hrun := ehciEnsureRunning_iff c { s with mem := f }
  rw [mem_ehciSubmit] at hs
  refine ⟨f, s'.mem, hf, h0, fun hr => ?_, fun hr => ?_, mem_ehciUnlinkQh c s' hc hc.arena⟩
  · rw [hs, if_pos (hrun.mpr hr)]
  · rw [hs, if_neg fun h => hr (hrun.mp h)]

theorem Call.run_refused {s : St} {x : Call} (h : x.Refused) :
    x.run c hc s = s := by
  cases x with
  | control dev setup buf len dirIn =>
    simp only [Call.run, ehciDoControl]
    rcases h with h | h | h
    · rw [if_pos (.inl h)]
    · rw [if_pos (.inr h)]
    · split
      · rfl
      · rfl
  | bulk dev epAddr buf len dirIn toggle =>
    have h' : len ≤ 0 ∨ len > EHCI_QTD_MAX_BYTES ∨ buf = 0 := h
    simp only [Call.run, ehciBulkTransfer, if_pos h']

theorem Call.run_transfer (hp : Placed hc) {s : St} {x : Call} (h : ¬ x.Refused) (hi : x.InRange) :
    Transfer hc (Restarts c s.reads) s.mem (x.run c hc s).mem := by
  cases x with
  | control dev setup buf len dirIn =>
    have hlen : ¬ (len < 0 ∨ (len > 0 ∧ buf = 0)) := fun hl => h (or_assoc.mp (.inl hl))
    have hn : ¬ nchunks len + 2 > EHCI_ARENA_QTDS := fun hl => h (.inr (.inr hl))
    have hf := fillControl_spec (m := s.mem) hp.arena.2 dev setup buf dirIn
      (nchunks_nonneg (by omega) hi) (by omega)
    simp only [Call.run, ehciDoControl, if_neg hlen, if_neg hn]
    refine transfer_of_submit (qtdAddr hc.arena (1 + nchunks len)) EHCI_CONTROL_TIMEOUT_MS
      hf.1 hf.2 ?_
    split
    · exact mem_subtractLeft ..
    · rfl
  | bulk dev epAddr buf len dirIn toggle =>
    have hlen : ¬ (len ≤ 0 ∨ len > EHCI_QTD_MAX_BYTES ∨ buf = 0) := h
    have hf := fillBulk_spec (m := s.mem) hp.arena.2 dev epAddr buf len dirIn toggle
      (bulkMaxpkt dev dirIn)
    simp only [Call.run, ehciBulkTransfer, if_neg hlen]
    rw [apply_ite Prod.snd, ite_self]
    exact transfer_of_submit _ _ hf.1 hf.2 (mem_tokenRead ..)

theorem Off.isRing (hp : Placed hc) (hne : hc.asyncHead ≠ hc.arena) {f : Mem}
    (h : Off hc.arena (hc.arena + 4096) m f) (hr : IsRing hc m) : IsRing hc f := by
  have ha := hp.arena
  have hh := hp.head
  have hap := hp.apart
  rw [hp.isRing_iff] at hr ⊢
  rw [h.get32 (by omega), hr]

/-- A transfer with a controller that runs keeps the ring. -/
theorem Transfer.isRing (hp : Placed hc) {running : Prop} {m' : Mem}
    (h : Transfer hc running m m') (hrun : running) (hr : IsRing hc m) : IsRing hc m' := by
  obtain ⟨f, l, hf, -, hl, -, rfl⟩ := h
  rw [hl hrun]
  apply hp.relink
  by_cases he : hc.asyncHead = hc.arena
  · exact .inl he
  · exact .inr (hf.isRing hp he hr)

/-- A transfer with a controller that does not run leaves the head with a link of 0. -/
theorem Transfer.link_eq_zero {running : Prop} {m' : Mem} (h : Transfer hc running m m')
    (hrun : ¬ running) : m'.get32 hc.asyncHead = 0 := by
  obtain ⟨f, l, -, h0, -, hl, rfl⟩ := h
  rw [hl hrun, h0, Mem.get32_put32_same, Nat.zero_mod]

end

/-- A block of `pmm_alloc_block`: a page that was free and is not free afterwards, or the null
pointer. -/
structure Block (p : Pmm) (a : Nat) (p' : Pmm) : Prop where
  page : a % 4096 = 0 ∧ a + 4096 ≤ 2 ^ 32
  taken : a = 0 ∨ a / 4096 ∈ p.free ∧ a / 4096 ∉ p'.free
  subset : p'.free ⊆ p.free

theorem block_allocBlock (p : Pmm) : Block p p.allocBlock.1 p.allocBlock.2 := by
  refine p.allocBlock_cases (fun hfree => ?_) fun f p' hnext hmem hfree => ?_
  · exact ⟨by simp, .inl rfl, Finset.Subset.refl _⟩
  · have hlt := (Pmm.mem_free.mp hmem).1
    have hmax : PMM_MAX_BLOCKS = 1048576 := rfl
    have hdiv : f * PMM_BLOCK_SIZE / 4096 = f := Nat.mul_div_cancel f (by decide)
    have hmod : f * PMM_BLOCK_SIZE % 4096 = 0 := Nat.mul_mod_left f 4096
    refine ⟨⟨hmod, by omega⟩, .inr ?_, ?_⟩
    · rw [hdiv, hfree]
      exact ⟨hmem, Finset.notMem_erase f _⟩
    · rw [hfree]
      exact Finset.erase_subset _ _

/-- The pool of `ehci_alloc_qh` is empty or a block that was allocated. -/
def Host.PoolOk (h : Host) : Prop :=
  h.pool = 0 ∨ h.pool % 4096 = 0 ∧ h.pool + 4096 ≤ 2 ^ 32 ∧ h.pool / 4096 ∉ h.pmm.free

/-- The queue head comes from the pool, or it is the first of a new pool. -/
theorem ehciAllocQh_cases (h : Host) :
    h.pool ≠ 0 ∧ h.used < 64 ∧ (ehciAllocQh h).1 = h.pool + 64 * h.used ∨
      (ehciAllocQh h).1 = h.pmm.allocBlock.1 := by
  unfold ehciAllocQh
  by_cases hn : h.pool = 0 ∨ h.used ≥ 64
  · simp [if_pos hn]
  · left
    simp only [if_neg hn, and_true]
    omega

/-- The place of the head and of an arena that was allocated just before. -/
theorem placed_alloc {p : Pmm} {h : Host} {arena : Nat} (ha : Block p arena h.pmm)
    (hp : h.pool = 0 ∨ h.pool % 4096 = 0 ∧ h.pool + 4096 ≤ 2 ^ 32 ∧ h.pool / 4096 ∉ p.free) :
    Placed ⟨(ehciAllocQh h).1, arena⟩ := by
  have hpage := ha.page
  rcases ehciAllocQh_cases h with ⟨h0, hused, hq⟩ | hq
  · obtain ⟨h1, h2, hfree⟩ := hp.resolve_left h0
    have hdiv : (h.pool + 64 * h.used) / 4096 = h.pool / 4096 := by omega
    refine ⟨?_, hpage, .inr ?_⟩
    · simp only [hq]
      omega
    · simp only [hq, hdiv]
      rcases ha.taken with rfl | ht
      · omega
      · exact fun he => hfree (he ▸ ht.1)
  · have hb := block_allocBlock h.pmm
    rw [← hq] at hb
    have hbp := hb.page
    refine ⟨by simp only; omega, hpage, ?_⟩
    simp only
    rcases hb.taken with h0 | hbt
    · -- no block for the pool: the arena is at 0 too, or in another page
      omega
    · rcases ha.taken with rfl | ht
      · omega
      · exact .inr fun he => ht.2 (he ▸ hbt.1)

/-- `ehci_probe_and_init` leaves the ring of the head alone. -/
theorem ehciProbeAndInit_spec {h : Host} (hp : h.PoolOk) :
    Placed (ehciProbeAndInit h).1 ∧ IsRing (ehciProbeAndInit h).1 (ehciProbeAndInit h).2.mem := by
  have hb := block_allocBlock h.pmm
  have ha := block_allocBlock h.pmm.allocBlock.2
  have hpool : h.pool = 0 ∨ h.pool % 4096 = 0 ∧ h.pool + 4096 ≤ 2 ^ 32 ∧
      h.pool / 4096 ∉ h.pmm.allocBlock.2.free := by
    rcases hp with h0 | ⟨h1, h2, h3⟩
    · exact .inl h0
    · exact .inr ⟨h1, h2, fun hm => h3 (hb.subset hm)⟩
  unfold ehciProbeAndInit
  simp only
  generalize hh : ({ h with mem := _, pmm := _ } : Host) = g
  have hplaced : Placed ⟨(ehciAllocQh g).1, h.pmm.allocBlock.2.allocBlock.1⟩ := by
    apply placed_alloc (p := h.pmm.allocBlock.2)
    · rw [← hh]
      exact ha
    · rw [← hh]
      exact hpool
  refine ⟨hplaced, ?_⟩
  rw [hplaced.isRing_iff]
  have hhead := hplaced.head
  simp only at hhead ⊢
  have hoff : ∀ m, Off ((ehciAllocQh g).1 + 4) ((ehciAllocQh g).1 + 64) m (putWords m
      (ehciAllocQh g).1 1 [1 <<< 15, 0, 0, 1, 1, EHCI_QTD_STATUS_HALTED]) := fun m =>
    off_putWords m _ 1 _ (by omega) (by simp)
  rw [(hoff _).get32 (by omega), Mem.get32_put32_same]
  exact or_typeQh_mod (by omega) (by omega)

/-- The states of a controller that `ehci_probe_and_init` has set up, after calls of the transfer
functions; every call meets `C`, with the controller as it is during the call. -/
inductive Run (C : Controller → St → Call → Prop) : Hc → St → Prop where
  | init (h : Host) (hp : h.PoolOk) :
      Run C (ehciProbeAndInit h).1 ⟨(ehciProbeAndInit h).2.mem, 0, []⟩
  | call {hc : Hc} {s : St} (h : Run C hc s) (c : Controller) (x : Call) (hC : C c s x) :
      Run C hc (x.run c hc s)

/-- The condition on a call: it is refused, or its length is in range and the controller runs, or
restarts in time. -/
def Call.Safe (c : Controller) (s : St) (x : Call) : Prop :=
  x.Refused ∨ x.InRange ∧ Restarts c s.reads

theorem Run.inv {hc : Hc} {s : St} (h : Run Call.Safe hc s) : Placed hc ∧ IsRing hc s.mem := by
  induction h with
  | init h hp => exact ehciProbeAndInit_spec hp
  | call _ c x hC ih =>
    refine ⟨ih.1, ?_⟩
    by_cases hx : x.Refused
    · rw [Call.run_refused hx]
      exact ih.2
    · obtain ⟨hi, hr⟩ := hC.resolve_left hx
      exact (Call.run_transfer ih.1 hx hi).isRing ih.1 hr ih.2

/-- As long as no transfer is started on a controller that is halted and does not restart, the
asynchronous schedule is the ring of its head. -/
theorem isRing_of_run {hc : Hc} {s : St} (h : Run Call.Safe hc s) : IsRing hc s.mem := h.inv.2

/-- A machine on which nothing has been allocated yet. -/
def blankHost : Host := ⟨fun _ => 0, ⟨fun _ => 0, 0, 0⟩, 0, 0⟩

/-- A controller whose registers and tokens all read as `v`. -/
def reads (v : BitVec 32) : Controller := ⟨fun _ _ => v, fun _ _ => v⟩

/-- A control transfer without data, to a high speed device at address 0. -/
def setAddress : Call := .control ⟨0, 2, 64, 0, 0, 0, 0⟩ (fun i => if i = 1 then 5 else 0) 0 0 false

theorem setAddress_inRange : setAddress.InRange := by
  simp only [setAddress, Call.InRange, EHCI_QTD_MAX_BYTES]
  decide

theorem isRing_of_run_setAddress :
    IsRing (ehciProbeAndInit blankHost).1
      (setAddress.run (reads EHCI_STS_ASS) (ehciProbeAndInit blankHost).1
        ⟨(ehciProbeAndInit blankHost).2.mem, 0, []⟩).mem :=
  isRing_of_run ((Run.init blankHost (.inl rfl)).call (reads EHCI_STS_ASS) setAddress
    (.inr ⟨setAddress_inRange, .inl rfl⟩))

theorem not_restarts_halted (n : Nat) : ¬ Restarts (reads EHCI_STS_HCHALTED) n := by
  have hrun : running EHCI_STS_HCHALTED = false := rfl
  rintro (h | ⟨j, -, h, -⟩)
  · exact absurd (hrun.symm.trans h) Bool.false_ne_true
  · exact absurd (hrun.symm.trans h) Bool.false_ne_true

theorem setAddress_not_refused : ¬ setAddress.Refused := by
  simp only [setAddress, Call.Refused]
  decide

/-- The first transfer, with a controller that is halted and stays so. -/
theorem not_isRing_halted :
    Run (fun _ _ _ => True) (ehciProbeAndInit blankHost).1
      (setAddress.run (reads EHCI_STS_HCHALTED) (ehciProbeAndInit blankHost).1
        ⟨(ehciProbeAndInit blankHost).2.mem, 0, []⟩) ∧
    ¬ IsRing (ehciProbeAndInit blankHost).1
      (setAddress.run (reads EHCI_STS_HCHALTED) (ehciProbeAndInit blankHost).1
        ⟨(ehciProbeAndInit blankHost).2.mem, 0, []⟩).mem := by
  have hp := (ehciProbeAndInit_spec (h := blankHost) (.inl rfl)).1
  have ht := Call.run_transfer hp (c := reads EHCI_STS_HCHALTED)
    (s := ⟨(ehciProbeAndInit blankHost).2.mem, 0, []⟩) setAddress_not_refused setAddress_inRange
  refine ⟨(Run.init blankHost (.inl rfl)).call _ _ trivial, fun hr => ?_⟩
  rw [hp.isRing_iff, ht.link_eq_zero (not_restarts_halted _), or_typeQh (by have := hp.head; omega)]
    at hr
  cases hr

end Crusadia.Ehci
