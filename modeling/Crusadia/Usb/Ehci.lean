import Crusadia.Kernel.Pmm

/-!
# Crusadia.Usb.Ehci

The **control and bulk transfers** of the EHCI driver, `ehci.c`. A transfer fills the arena of the
controller with a queue head and transfer descriptors, puts the queue head into the asynchronous
schedule, waits, and takes it out again.

The registers have arbitrary contents at every read, and so have the tokens that the controller
writes into memory; `Controller` gives them, by the number of the read. What the driver writes to
the registers is recorded and has no other effect. The lock of the controller is left out: it
makes one transfer wait for the other.
-/

namespace Crusadia.Ehci

open Kernel

/-! ### Constants -/

abbrev EHCI_OP_USBCMD : Nat := 0x00
abbrev EHCI_OP_USBSTS : Nat := 0x04
abbrev EHCI_OP_FRINDEX : Nat := 0x0C

abbrev EHCI_CMD_RUN : BitVec 32 := 0x1
abbrev EHCI_CMD_ASE : BitVec 32 := 0x20
abbrev EHCI_CMD_IOAAD : BitVec 32 := 0x40

abbrev EHCI_STS_USBINT : BitVec 32 := 0x1
abbrev EHCI_STS_USBERRINT : BitVec 32 := 0x2
abbrev EHCI_STS_IAA : BitVec 32 := 0x20
abbrev EHCI_STS_HCHALTED : BitVec 32 := 0x1000
abbrev EHCI_STS_ASS : BitVec 32 := 0x8000
abbrev EHCI_STS_ALL_W1C : BitVec 32 := 0x3F

abbrev EHCI_QTD_STATUS_ACTIVE : BitVec 32 := 0x80
abbrev EHCI_QTD_STATUS_HALTED : BitVec 32 := 0x40
/-- `EHCI_QTD_ERRORS`: halted, buffer error, babble or transaction error. -/
abbrev EHCI_QTD_ERRORS : BitVec 32 := 0x78

abbrev EHCI_QTD_PID_OUT : BitVec 32 := 0
abbrev EHCI_QTD_PID_IN : BitVec 32 := 1
abbrev EHCI_QTD_PID_SETUP : BitVec 32 := 2

abbrev EHCI_LP_TYPE_QH : Nat := 2
abbrev EHCI_LP_TERMINATE : Nat := 1

abbrev EHCI_ARENA_QTDS : Nat := 62
abbrev EHCI_QTD_MAX_BYTES : Nat := 16384
abbrev EHCI_PERIODIC_ENTRIES : Nat := 1024
abbrev EHCI_SPIN_LIMIT : Nat := 40000000
abbrev EHCI_UFRAME_MASK : BitVec 32 := 0x3FFF
abbrev EHCI_CONTROL_TIMEOUT_MS : Nat := 1000
abbrev EHCI_BULK_IN_TIMEOUT_MS : Nat := 100
abbrev EHCI_BULK_OUT_TIMEOUT_MS : Nat := 500
abbrev EHCI_DOORBELL_TIMEOUT_MS : Nat := 100
abbrev EHCI_ASYNC_START_TIMEOUT_MS : Nat := 100

/-! ### The controller -/

/-- What the controller shows to the driver: the contents of a register, and of a token word in
memory that it may have written, at the `n`-th read. -/
structure Controller where
  reg : (n : Nat) → (reg : Nat) → BitVec 32
  token : (n : Nat) → (addr : Nat) → BitVec 32

/-- Memory, the number of reads that were made, and the register writes. -/
structure St where
  mem : Mem
  reads : Nat
  writes : List (Nat × BitVec 32)

/-- The fields of `ehci_hc_t` that the transfers use. -/
structure Hc where
  asyncHead : Nat
  arena : Nat

variable (c : Controller)

/-- `ehci_op_read` -/
def opRead (s : St) (reg : Nat) : BitVec 32 × St :=
  (c.reg s.reads reg, { s with reads := s.reads + 1 })

/-- `ehci_op_write` -/
def opWrite (s : St) (reg : Nat) (val : BitVec 32) : St :=
  { s with writes := s.writes ++ [(reg, val)] }

/-- A read of the token word at `addr`. -/
def tokenRead (s : St) (addr : Nat) : BitVec 32 × St :=
  (c.token s.reads addr, { s with reads := s.reads + 1 })

/-- `ehci_uframes_since` -/
def uframesSince (s : St) (start : BitVec 32) : BitVec 32 × St :=
  let (now, s) := opRead c s EHCI_OP_FRINDEX
  ((now - start) &&& EHCI_UFRAME_MASK, s)

/-- The loops that wait for a state of `USBSTS`: whether `done` was seen before the spins run out
or, once there were more than `after` of them, more than `limit` microframes have passed. The loop
has `left` turns left. -/
def spin (c : Controller) (done : BitVec 32 → Bool) (after limit : Nat) (start : BitVec 32) :
    (left spins : Nat) → St → Bool × St
  | left, spins, s =>
    let (sts, s) := opRead c s EHCI_OP_USBSTS
    if done sts then (true, s)
    else
      match left with
      | 0 => (false, s)
      | left + 1 =>
        if spins + 1 > after then
          let (passed, s) := uframesSince c s start
          if passed.toNat > limit then (false, s)
          else spin c done after limit start left (spins + 1) s
        else spin c done after limit start left (spins + 1) s

/-- The controller runs. -/
def running (sts : BitVec 32) : Bool := sts &&& EHCI_STS_HCHALTED == 0

/-- `ehci_ensure_running`; `false` is `-1`. -/
def ehciEnsureRunning (s : St) : Bool × St :=
  let (sts, s) := opRead c s EHCI_OP_USBSTS
  if running sts then (true, s)
  else
    let s := opWrite s EHCI_OP_USBSTS EHCI_STS_ALL_W1C
    let (cmd, s) := opRead c s EHCI_OP_USBCMD
    let s := opWrite s EHCI_OP_USBCMD (cmd ||| EHCI_CMD_RUN)
    let (start, s) := opRead c s EHCI_OP_FRINDEX
    spin c running 1000 800 start EHCI_SPIN_LIMIT 0 s

/-- `ehci_async_enable`; `false` is `-1`. -/
def ehciAsyncEnable (s : St) : Bool × St :=
  let (cmd, s) := opRead c s EHCI_OP_USBCMD
  let s := if cmd &&& EHCI_CMD_ASE == 0 then opWrite s EHCI_OP_USBCMD (cmd ||| EHCI_CMD_ASE) else s
  let (start, s) := opRead c s EHCI_OP_FRINDEX
  let s := (spin c (fun sts => sts &&& EHCI_STS_ASS != 0) 0 (EHCI_ASYNC_START_TIMEOUT_MS * 8)
    start EHCI_SPIN_LIMIT 0 s).2
  let (sts, s) := opRead c s EHCI_OP_USBSTS
  (sts &&& EHCI_STS_ASS != 0, s)

/-- `ehci_unlink_qh` -/
def ehciUnlinkQh (hc : Hc) (s : St) (qh : Nat) : St :=
  let s := { s with mem := s.mem.put32 hc.asyncHead (s.mem.get32 qh) }
  let (sts, s) := opRead c s EHCI_OP_USBSTS
  if !running sts then s
  else
    let s := opWrite s EHCI_OP_USBSTS EHCI_STS_IAA
    let (cmd, s) := opRead c s EHCI_OP_USBCMD
    let s := opWrite s EHCI_OP_USBCMD (cmd ||| EHCI_CMD_IOAAD)
    let (start, s) := opRead c s EHCI_OP_FRINDEX
    let s := (spin c (fun sts => sts &&& EHCI_STS_IAA != 0) 0 (EHCI_DOORBELL_TIMEOUT_MS * 8)
      start EHCI_SPIN_LIMIT 0 s).2
    let s := (opRead c s EHCI_OP_USBSTS).2
    opWrite s EHCI_OP_USBSTS EHCI_STS_IAA

/-- The loop of `ehci_wait_done`. -/
def waitLoop (c : Controller) (qh last limit : Nat) (start : BitVec 32) :
    (left : Nat) → St → Int × St
  | left, s =>
    let (tok, s) := tokenRead c s (last + 8)
    if tok &&& EHCI_QTD_STATUS_ACTIVE == 0 then
      (if tok &&& EHCI_QTD_ERRORS != 0 then -1 else 0, s)
    else
      let (qtok, s) := tokenRead c s (qh + 24)
      if qtok &&& EHCI_QTD_STATUS_HALTED != 0 then (-1, s)
      else
        match left with
        | 0 => (-2, s)
        | left + 1 =>
          let (passed, s) := uframesSince c s start
          if passed.toNat > limit then (-2, s) else waitLoop c qh last limit start left s

/-- `ehci_wait_done` -/
def ehciWaitDone (s : St) (qh last timeoutMs : Nat) : Int × St :=
  let (start, s) := opRead c s EHCI_OP_FRINDEX
  waitLoop c qh last (timeoutMs * 8) start EHCI_SPIN_LIMIT s

/-- `ehci_submit` -/
def ehciSubmit (hc : Hc) (s : St) (qh last timeoutMs : Nat) : Int × St :=
  let (ok, s) := ehciEnsureRunning c s
  if !ok then (-3, s)
  else
    let s := opWrite s EHCI_OP_USBSTS (EHCI_STS_USBINT ||| EHCI_STS_USBERRINT)
    let s := { s with mem := s.mem.put32 qh (s.mem.get32 hc.asyncHead) }
    let s := { s with mem := s.mem.put32 hc.asyncHead (qh ||| EHCI_LP_TYPE_QH) }
    let (ok, s) := ehciAsyncEnable c s
    if !ok then (-3, s) else ehciWaitDone c s qh last timeoutMs

/-! ### Queue heads and transfer descriptors -/

/-- The fields of `usb_device_t` that the driver reads. -/
structure UsbDevice where
  address : Int
  speed : Int
  maxPacket0 : Int
  hubAddr : Int
  hubPort : Int
  epInMaxpkt : BitVec 16
  epOutMaxpkt : BitVec 16

/-- The words `from`, `from + 1`, .. of a record at `p` are stored one after the other. -/
def putWords (m : Mem) (p : Nat) : (i : Nat) → List (BitVec 32) → Mem
  | _, [] => m
  | i, w :: ws => putWords (m.put32 (p + 4 * i) w.toNat) p (i + 1) ws

/-- The five buffer pointers of a descriptor. -/
def bufferPointers (buf : Nat) (len : Int) : List (BitVec 32) :=
  if buf ≠ 0 ∧ len > 0 then
    let addr := BitVec.ofNat 32 buf
    let page (i : Nat) := (addr &&& ~~~0xFFF#32) + BitVec.ofNat 32 i * 4096
    [addr, page 1, page 2, page 3, page 4]
  else [0, 0, 0, 0, 0]

/-- `ehci_fill_qtd`: next_qtd, alt_next_qtd, the buffers, and the token last. -/
def ehciFillQtd (m : Mem) (td : Nat) (pid : BitVec 32) (toggle : Int) (buf : Nat) (len : Int)
    (ioc : Bool) : Mem :=
  let m := putWords m td 0 [1, 1]
  let m := putWords m td 3 (bufferPointers buf len)
  let token := (BitVec.ofInt 32 len <<< 16) ||| ((BitVec.ofInt 32 toggle &&& 1) <<< 31) |||
    (pid <<< 8) ||| (3 <<< 10) ||| EHCI_QTD_STATUS_ACTIVE
  putWords m td 2 [if ioc then token ||| (1 <<< 15) else token]

/-- `ehci_init_qh`: everything but `horiz_link`, and `next_qtd` last. -/
def ehciInitQh (m : Mem) (qh : Nat) (dev : UsbDevice) (ep : BitVec 32) (mps : Int)
    (control periodic : Bool) (first : Nat) : Mem :=
  let hs := dev.speed = 2
  let eps : BitVec 32 := if hs then 2 else if dev.speed = 1 then 1 else 0
  let mps := if mps ≤ 0 then 8 else mps
  let epChar := BitVec.ofInt 32 dev.address ||| ((ep &&& 0xF) <<< 8) ||| (eps <<< 12) |||
    (1 <<< 14) ||| ((BitVec.ofInt 32 mps &&& 0x7FF) <<< 16)
  let epCaps : BitVec 32 := 1 <<< 30
  let epChar := if !periodic then epChar ||| (4 <<< 28) else epChar
  let epChar := if ¬ hs ∧ control then epChar ||| (1 <<< 27) else epChar
  let epCaps := if ¬ hs then
      epCaps ||| ((BitVec.ofInt 32 dev.hubAddr &&& 0x7F) <<< 16) |||
        ((BitVec.ofInt 32 (dev.hubPort + 1) &&& 0x7F) <<< 23)
    else epCaps
  let epCaps := if periodic then epCaps ||| 1 else epCaps
  let epCaps := if periodic ∧ ¬ hs then epCaps ||| (0x1C <<< 8) else epCaps
  let m := putWords m qh 1 [epChar, epCaps, 0]
  let m := putWords m qh 5 [1, 0, 0, 0, 0, 0, 0]
  putWords m qh 4 [BitVec.ofNat 32 first]

/-- `&a->qtd[i]`, for any `i` that the code computes. -/
def qtdAddr (a : Nat) (i : Int) : Nat := (((a : Int) + 128 + 64 * i) % 2 ^ 32).toNat

/-- The bytes of the chunk that starts at `offset`. -/
def chunkAt (len offset : Int) : Int := min (len - offset) EHCI_QTD_MAX_BYTES

/-- The variables of the loop of `ehci_do_control` over the chunks. -/
structure Chunks where
  mem : Mem
  prev : Nat
  toggle : Int
  offset : Int

/-- The body of that loop. -/
def fillChunk (a buf status : Nat) (len mps : Int) (dirIn : Bool) (f : Chunks) (c : Nat) :
    Chunks :=
  let chunk := chunkAt len f.offset
  let td := qtdAddr a (1 + c)
  let m := ehciFillQtd f.mem td (if dirIn then EHCI_QTD_PID_IN else EHCI_QTD_PID_OUT) f.toggle
    (buf + f.offset.toNat) chunk false
  let m := putWords m td 1 [BitVec.ofNat 32 status]
  { mem := putWords m f.prev 0 [BitVec.ofNat 32 td]
    prev := td
    toggle := if (chunk + mps - 1).tdiv mps % 2 = 0 then f.toggle else 1 - f.toggle
    offset := f.offset + chunk }

/-- `nchunks`, computed in `int`. -/
def nchunks (len : Int) : Int :=
  Int.tdiv (Int.bmod (len + EHCI_QTD_MAX_BYTES - 1) (2 ^ 32)) EHCI_QTD_MAX_BYTES

/-- The arena after `ehci_do_control` has filled it. -/
def fillControl (m : Mem) (a : Nat) (dev : UsbDevice) (setup : Nat → Byte) (buf : Nat) (len : Int)
    (dirIn : Bool) : Mem :=
  let mps := if dev.maxPacket0 > 0 then dev.maxPacket0 else 8
  let mps := if dev.speed = 2 ∧ dev.address = 0 then 64 else mps
  let m := m.fill a 4096 0
  let m := m.store (a + 64) 8 setup
  let setupTd := qtdAddr a 0
  let status := qtdAddr a (1 + nchunks len)
  let m := ehciFillQtd m setupTd EHCI_QTD_PID_SETUP 0 (a + 64) 8 false
  let f := (List.range (nchunks len).toNat).foldl (fillChunk a buf status len mps dirIn)
    ⟨m, setupTd, 1, 0⟩
  let m := ehciFillQtd f.mem status (if dirIn then EHCI_QTD_PID_OUT else EHCI_QTD_PID_IN) 1 0 0 true
  let m := putWords m f.prev 0 [BitVec.ofNat 32 status]
  let m := m.fill a 64 0
  ehciInitQh m a dev 0 mps true false setupTd

/-- The loop of `ehci_do_control` that subtracts what was not transferred. -/
def subtractLeft (c : Controller) (a : Nat) (len : Int) : List Nat → Int → St → Int × St
  | [], actual, s => (actual, s)
  | i :: is, actual, s =>
    let chunk := chunkAt len (i * EHCI_QTD_MAX_BYTES)
    let (tok, s) := tokenRead c s (qtdAddr a (1 + i) + 8)
    let left : Int := if tok &&& EHCI_QTD_STATUS_ACTIVE != 0 then chunk
      else ((tok >>> 16) &&& 0x7FFF).toNat
    subtractLeft c a len is (actual - left) s

/-- `ehci_do_control`; the null pointer is the `buf` 0. -/
def ehciDoControl (hc : Hc) (s : St) (dev : UsbDevice) (setup : Nat → Byte)
    (buf : Nat) (len : Int) (dirIn : Bool) : Int × St :=
  if len < 0 ∨ (len > 0 ∧ buf = 0) then (-1, s)
  else if nchunks len + 2 > EHCI_ARENA_QTDS then (-1, s)
  else
    let a := hc.arena
    let s := { s with mem := fillControl s.mem a dev setup buf len dirIn }
    let (r, s) := ehciSubmit c hc s a (qtdAddr a (1 + nchunks len)) EHCI_CONTROL_TIMEOUT_MS
    let (actual, s) :=
      if r = 0 then subtractLeft c a len (List.range (nchunks len).toNat) len s else (len, s)
    let s := ehciUnlinkQh c hc s a
    (if r ≠ 0 then -1 else max actual 0, s)

/-- The arena after `ehci_bulk_transfer` has filled it. -/
def fillBulk (m : Mem) (a : Nat) (dev : UsbDevice) (epAddr : BitVec 8) (buf : Nat) (len : Int)
    (dirIn : Bool) (toggle maxpkt : Int) : Mem :=
  let m := m.fill a 4096 0
  let td := qtdAddr a 0
  let m := ehciFillQtd m td (if dirIn then EHCI_QTD_PID_IN else EHCI_QTD_PID_OUT) toggle buf
    len true
  ehciInitQh m a dev (epAddr.setWidth 32 &&& 0xF) maxpkt false false td

/-- `maxpkt` of `ehci_bulk_transfer`. -/
def bulkMaxpkt (dev : UsbDevice) (dirIn : Bool) : Int :=
  let maxpkt : Int := (if dirIn then dev.epInMaxpkt else dev.epOutMaxpkt).toNat
  if maxpkt ≤ 0 then 64 else maxpkt

/-- `ehci_bulk_transfer`: the result, the new `*toggle` and the state. -/
def ehciBulkTransfer (hc : Hc) (s : St) (dev : UsbDevice) (epAddr : BitVec 8)
    (buf : Nat) (len : Int) (dirIn : Bool) (toggle : Int) : (Int × Int) × St :=
  if len ≤ 0 ∨ len > EHCI_QTD_MAX_BYTES ∨ buf = 0 then ((-1, toggle), s)
  else
    let maxpkt := bulkMaxpkt dev dirIn
    let a := hc.arena
    let s := { s with mem := fillBulk s.mem a dev epAddr buf len dirIn toggle maxpkt }
    let (r, s) := ehciSubmit c hc s a (qtdAddr a 0)
      (if dirIn then EHCI_BULK_IN_TIMEOUT_MS else EHCI_BULK_OUT_TIMEOUT_MS)
    let (tok, s) := tokenRead c s (qtdAddr a 0 + 8)
    let actual : Int := len - ((tok >>> 16) &&& 0x7FFF).toNat
    let s := ehciUnlinkQh c hc s a
    if r ≠ 0 then ((-1, toggle), s)
    else
      let packets := if actual > 0 then (actual + maxpkt - 1).tdiv maxpkt else 1
      ((actual, (toggle + packets) % 2), s)

/-! ### Initialisation -/

/-- Memory, the physical memory manager, and the variables of `ehci_alloc_qh`. -/
structure Host where
  mem : Mem
  pmm : Pmm
  pool : Nat
  used : Nat

/-- `ehci_alloc_qh` -/
def ehciAllocQh (h : Host) : Nat × Host :=
  let h := if h.pool = 0 ∨ h.used ≥ 64 then
      let (pool, pmm) := h.pmm.allocBlock
      { mem := h.mem.fill pool 4096 0, pmm, pool, used := 0 }
    else h
  let q := h.pool + 64 * h.used
  (q, { h with used := h.used + 1, mem := h.mem.fill q 64 0 })

/-- The data structures that `ehci_probe_and_init` sets up. Its register traffic does not touch
them, and the transfers it makes at its end, when it looks for devices, are calls as any others. -/
def ehciProbeAndInit (h : Host) : Hc × Host :=
  let (periodicList, pmm) := h.pmm.allocBlock
  let m := (List.range EHCI_PERIODIC_ENTRIES).foldl
    (fun m i => m.put32 (periodicList + 4 * i) EHCI_LP_TERMINATE) h.mem
  let (arena, pmm) := pmm.allocBlock
  let m := m.fill arena 4096 0
  let (head, h) := ehciAllocQh { h with mem := m, pmm }
  let m := h.mem.put32 head (head ||| EHCI_LP_TYPE_QH)
  let m := putWords m head 1 [1 <<< 15, 0, 0, 1, 1, EHCI_QTD_STATUS_HALTED]
  (⟨head, arena⟩, { h with mem := m })

end Crusadia.Ehci
