import Crusadia.Lib.Buf

/-!
# Crusadia.Usb.Pump

The **serial protocol of the turbomolecular pump**, `pump.c`. `pump_send_command` sends a message
and reads the line that the pump answers.

The line from the pump is a queue of bytes in flight: every message that the pump receives adds its
reply and a carriage return at the end, and every bulk read takes some bytes, or none, from the
front. The read loop has forty tries, and nothing takes out of the queue what a call did not wait
for or did not have room for. The next call reads it as its own reply (`second_gets_first`).
-/

namespace Crusadia.Pump

/-- `PUMP_READ_RETRIES` -/
abbrev PUMP_READ_RETRIES : Nat := 40
/-- `PUMP_MAX_MSG` -/
abbrev PUMP_MAX_MSG : Nat := 80

/-- The carriage return. -/
abbrev cr : Byte := 0x0D

/-! ### pump_send_command -/

/-- The message that is sent. -/
def message (startChar : Byte) (body : CStr) : List Byte :=
  startChar :: body.chars.take (PUMP_MAX_MSG - 3) ++ [cr]

/-- The loop over the bytes of a chunk: the response so far, and whether the line has ended. -/
def copyChunk (maxlen : Int) : (chunk response : List Byte) → List Byte × Bool
  | [], response => (response, false)
  | b :: bs, response =>
    if response.length < maxlen - 1 then
      if b = cr then (response, true) else copyChunk maxlen bs (response ++ [b])
    else (response, false)

/-- The bytes of one bulk read, when the adapter has `available` of them. -/
def readSize (available : Nat) (inFlight : List Byte) : Nat :=
  min (min available 64) inFlight.length

/-- The read loop: the response, whether the line has ended, and what is still in flight.
`reads attempt` is the number of bytes that have arrived at the adapter for that read; an empty
read and a failed one are the same to the loop. -/
def readLoop (maxlen : Int) (reads : Nat → Nat) :
    (left attempt : Nat) → (response inFlight : List Byte) → (List Byte × Bool) × List Byte
  | 0, _, response, inFlight => ((response, false), inFlight)
  | left + 1, attempt, response, inFlight =>
    if response.length < maxlen - 1 then
      let r := readSize (reads attempt) inFlight
      match copyChunk maxlen (inFlight.take r) response with
      | (response, true) => ((response, true), inFlight.drop r)
      | (response, false) =>
        readLoop maxlen reads left (attempt + 1) response (inFlight.drop r)
    else ((response, false), inFlight)

/-- How the bulk write of the message ends. When it fails, the pump may have received the message
all the same. -/
inductive Write where
  | ok
  | failed (received : Bool)
  deriving DecidableEq

/-- A call, with what the adapter and the pump do during the call. -/
structure Call where
  startChar : Byte
  body : CStr
  /-- `response_maxlen`, and `none` when `response` is `NULL` -/
  maxlen : Option Int
  /-- whether an adapter is attached -/
  attached : Bool
  write : Write
  /-- the line that the pump answers to a message, without the carriage return -/
  pump : List Byte → List Byte
  reads : Nat → Nat
  oneMessage : cr ∉ startChar :: body.chars
  oneLine : ∀ msg, cr ∉ pump msg

/-- The reply to the message of the call. -/
def Call.reply (c : Call) : List Byte := c.pump (message c.startChar c.body)

theorem Call.cr_notMem_reply (c : Call) : cr ∉ c.reply := c.oneLine _

/-- Whether the pump receives the message. -/
def Call.received (c : Call) : Bool :=
  c.attached && match c.write with
    | .ok => true
    | .failed received => received

/-- The bytes in flight once the pump has answered, if it does. -/
def Call.answered (c : Call) (inFlight : List Byte) : List Byte :=
  if c.received then inFlight ++ c.reply ++ [cr] else inFlight

/-- `pump_send_command`: the result, the text in `response` if it is written, and what is still in
flight. -/
def pumpSendCommand (c : Call) (inFlight : List Byte) : (Int × Option (List Byte)) × List Byte :=
  if !c.attached then ((-1, none), inFlight)
  else
    let inFlight := c.answered inFlight
    if c.write ≠ .ok then ((-1, none), inFlight)
    else
      match c.maxlen with
      | none => ((0, none), inFlight)
      | some maxlen =>
        if maxlen ≤ 0 then ((0, none), inFlight)
        else
          let ((response, ended), inFlight) :=
            readLoop maxlen c.reads PUMP_READ_RETRIES 0 [] inFlight
          if ended then ((response.length, some response), inFlight)
          else ((if response.length > 0 then response.length else -1, some response), inFlight)

/-! ### What the loops read -/

/-- The bytes before the first carriage return. -/
def line (u : List Byte) : List Byte := u.takeWhile (· ≠ cr)

theorem line_append_of_notMem {u v : List Byte} (h : cr ∉ u) : line (u ++ v) = u ++ line v :=
  List.takeWhile_append_of_pos fun b hb => by
    simp only [ne_eq, decide_not, Bool.not_eq_true', decide_eq_false_iff_not]
    rintro rfl
    exact h hb

theorem line_cons (b : Byte) (v : List Byte) :
    line (b :: v) = if b = cr then [] else b :: line v := by
  rw [line, List.takeWhile_cons]
  by_cases h : b = cr
  · simp [h]
  · simp only [h, if_false, ne_eq, not_false_eq_true, decide_true, if_true]
    rfl

/-- The loop over a chunk copies the line, as far as there is room. -/
theorem copyChunk_spec (n : Nat) (chunk response : List Byte) (hr : response.length ≤ n) :
    (copyChunk (n + 1) chunk response).1 =
        response ++ (line chunk).take (n - response.length) ∧
      ((copyChunk (n + 1) chunk response).2 = true ↔
        cr ∈ chunk ∧ response.length + (line chunk).length < n) := by
  induction chunk generalizing response with
  | nil => simp [copyChunk, line]
  | cons b bs ih =>
    rw [copyChunk, line_cons]
    by_cases hlt : response.length < n
    · rw [if_pos (by omega)]
      by_cases hb : b = cr
      · simp [hb, hlt]
      · rw [if_neg hb, if_neg hb]
        have hlen : (response ++ [b]).length = response.length + 1 := by simp
        obtain ⟨h1, h2⟩ := ih (response ++ [b]) (by omega)
        rw [h1, h2, hlen]
        have hsub : n - response.length = n - (response.length + 1) + 1 := by omega
        refine ⟨by rw [hsub, List.take_succ_cons, List.append_assoc]; rfl, ?_⟩
        rw [List.mem_cons, List.length_cons]
        constructor
        · rintro ⟨hm, hl⟩
          exact ⟨.inr hm, by omega⟩
        · rintro ⟨hm, hl⟩
          exact ⟨hm.resolve_left fun h => hb h.symm, by omega⟩
    · rw [if_neg (by omega), show n - response.length = 0 by omega]
      simp
      omega

theorem line_append_of_mem {u : List Byte} (h : cr ∈ u) (v : List Byte) :
    line (u ++ v) = line u := by
  induction u with
  | nil => cases h
  | cons b u ih =>
    rw [List.cons_append, line_cons, line_cons]
    split
    · rfl
    · next hb => rw [ih ((List.mem_cons.mp h).resolve_left fun he => hb he.symm)]

theorem line_eq_self {u : List Byte} (h : cr ∉ u) : line u = u := by
  have := line_append_of_notMem (v := []) h
  simpa [line] using this

/-- The bytes that arrive at the adapter during the next `left` reads. -/
def arrived (reads : Nat → Nat) : (left attempt : Nat) → Nat
  | 0, _ => 0
  | left + 1, attempt => min (reads attempt) 64 + arrived reads left (attempt + 1)

theorem take_readSize (available : Nat) (inFlight : List Byte) :
    inFlight.take (readSize available inFlight) = inFlight.take (min available 64) :=
  List.take_eq_take_iff.mpr (by simp [readSize])

theorem drop_readSize (available : Nat) (inFlight : List Byte) :
    inFlight.drop (readSize available inFlight) = inFlight.drop (min available 64) := by
  rcases Nat.le_total (min available 64) inFlight.length with h | h
  · rw [readSize, Nat.min_eq_left h]
  · rw [readSize, Nat.min_eq_right h, List.drop_length, List.drop_of_length_le h]

/-- How the bytes are cut into reads does not matter to the response: the loop copies the line from
all that arrives, as far as there is room. -/
theorem readLoop_spec (n : Nat) (reads : Nat → Nat) (left attempt : Nat)
    (response inFlight : List Byte) (hr : response.length ≤ n) :
    (readLoop (n + 1) reads left attempt response inFlight).1.1 =
        response ++ (line (inFlight.take (arrived reads left attempt))).take
          (n - response.length) ∧
      ((readLoop (n + 1) reads left attempt response inFlight).1.2 = true ↔
        cr ∈ inFlight.take (arrived reads left attempt) ∧
          response.length + (line (inFlight.take (arrived reads left attempt))).length < n) := by
  induction left generalizing attempt response inFlight with
  | zero => simp [readLoop, arrived, line]
  | succ left ih =>
    rw [readLoop]
    by_cases hlt : response.length < n
    · rw [if_pos (by omega)]
      simp only [take_readSize, drop_readSize, arrived, List.take_add]
      generalize inFlight.take (min (reads attempt) 64) = chunk
      generalize inFlight.drop (min (reads attempt) 64) = rest
      obtain ⟨h1, h2⟩ := copyChunk_spec n chunk response hr
      cases hc : copyChunk (n + 1) chunk response with
      | mk response₁ ended =>
      rw [hc] at h1 h2
      simp only at h1 h2
      cases ended with
      | true =>
        obtain ⟨hmem, hroom⟩ := h2.mp rfl
        simp only [line_append_of_mem hmem, h1, true_iff]
        exact ⟨trivial, List.mem_append_left _ hmem, hroom⟩
      | false =>
        have hlen : response₁.length =
            response.length + min (n - response.length) (line chunk).length := by
          rw [h1, List.length_append, List.length_take]
        obtain ⟨ih1, ih2⟩ := ih (attempt + 1) response₁ rest (by omega)
        simp only [ih1, ih2]
        by_cases hmem : cr ∈ chunk
        · -- the buffer was full before the carriage return
          have hfull : ¬ response.length + (line chunk).length < n := fun hl =>
            Bool.false_ne_true (h2.mpr ⟨hmem, hl⟩)
          rw [line_append_of_mem hmem, show n - response₁.length = 0 by omega, List.take_zero,
            List.append_nil]
          refine ⟨h1, iff_of_false (fun h => ?_) fun h => hfull h.2⟩
          have := h.2
          omega
        · rw [line_eq_self hmem] at h1 hlen
          rw [line_append_of_notMem hmem, List.take_append, List.length_append, List.mem_append]
          refine ⟨?_, ?_⟩
          · rw [show n - response₁.length = n - response.length - chunk.length by omega, h1,
              List.append_assoc]
          · constructor
            · rintro ⟨hm, hroom⟩
              exact ⟨.inr hm, by omega⟩
            · rintro ⟨hm, hroom⟩
              exact ⟨hm.resolve_left hmem, by omega⟩
    · rw [if_neg (by omega), show n - response.length = 0 by omega]
      simp
      omega

/-! ### Replies -/

/-- A result with a response, which is not the reply to the call, cut to the buffer. -/
def Mismatch (c : Call) (result : Int × Option (List Byte)) : Prop :=
  ∃ maxlen response, c.maxlen = some maxlen ∧ result.2 = some response ∧ 0 ≤ result.1 ∧
    response ≠ c.reply.take (maxlen - 1).toNat

/-- The bytes that arrive during the call. -/
def Call.arrived (c : Call) : Nat := Pump.arrived c.reads PUMP_READ_RETRIES 0

/-- The call comes to its read loop. -/
def Call.Reads (c : Call) : Prop :=
  c.attached = true ∧ c.write = .ok ∧ ∃ maxlen, c.maxlen = some maxlen ∧ 0 < maxlen

/-- The calls that get no reply of another one, nor a part of their own: if they read, then no byte
arrives during the call, or nothing was in flight before it and the reads bring the reply, or as
much of it as the buffer can hold. -/
def Call.Safe (c : Call) (inFlight : List Byte) : Prop :=
  c.Reads → c.arrived = 0 ∨ inFlight = [] ∧ ∀ maxlen, c.maxlen = some maxlen →
    min c.reply.length (maxlen - 1).toNat ≤ c.arrived

theorem line_take_answered (c : Call) (h : c.received = true) (k : Nat) :
    line ((c.answered []).take k) = c.reply.take k := by
  have hno : cr ∉ c.reply.take k := fun hm => c.cr_notMem_reply (List.mem_of_mem_take hm)
  rw [Call.answered, if_pos h, List.nil_append, List.take_append, line_append_of_notMem hno]
  rcases hk : k - c.reply.length with - | m
  · simp [line]
  · simp [line]

variable {c : Call} {maxlen : Int} {inFlight : List Byte}

/-- A call with a buffer, whose message is sent. -/
theorem pumpSendCommand_eq (hatt : c.attached = true) (hw : c.write = .ok)
    (hmax : c.maxlen = some maxlen) (hpos : 0 < maxlen) (inFlight : List Byte) :
    pumpSendCommand c inFlight =
      let r := readLoop maxlen c.reads PUMP_READ_RETRIES 0 [] (c.answered inFlight)
      ((if r.1.2 then (r.1.1.length : Int) else if r.1.1.length > 0 then r.1.1.length else -1,
        some r.1.1), r.2) := by
  have hn : ¬ maxlen ≤ 0 := by omega
  unfold pumpSendCommand
  simp only [hatt, hw, hmax, hn, Bool.not_true, Bool.false_eq_true, if_false, ne_eq,
    not_true_eq_false]
  split <;> rfl

/-- A call that writes a response has a buffer, and its message is sent. -/
theorem pumpSendCommand_response {response : List Byte} (hmax : c.maxlen = some maxlen)
    (hres : (pumpSendCommand c inFlight).1.2 = some response) :
    c.attached = true ∧ c.write = .ok ∧ 0 < maxlen := by
  unfold pumpSendCommand at hres
  cases hatt : c.attached with
  | false => simp [hatt] at hres
  | true =>
    by_cases hw : c.write = .ok
    · by_cases hpos : maxlen ≤ 0
      · simp [hatt, hw, hmax, hpos] at hres
      · exact ⟨rfl, hw, by omega⟩
    · simp [hatt, hw] at hres

theorem Call.received_of_ok (hatt : c.attached = true) (hw : c.write = .ok) :
    c.received = true := by
  simp [Call.received, hatt, hw]

/-- A call that is safe gets its own reply, if it gets one. -/
theorem not_mismatch (h : c.Safe inFlight) :
    ¬ Mismatch c (pumpSendCommand c inFlight).1 := by
  rintro ⟨maxlen, response, hmax, hres, hnonneg, hne⟩
  obtain ⟨hatt, hw, hpos⟩ := pumpSendCommand_response hmax hres
  have heq := pumpSendCommand_eq hatt hw hmax hpos inFlight
  obtain ⟨n, rfl⟩ : ∃ n : Nat, maxlen = n + 1 := ⟨(maxlen - 1).toNat, by omega⟩
  obtain ⟨h1, h2⟩ := readLoop_spec n c.reads PUMP_READ_RETRIES 0 [] (c.answered inFlight)
    (Nat.zero_le _)
  rw [heq] at hres hnonneg
  simp only [Option.some.injEq] at hres hnonneg
  rcases h ⟨hatt, hw, _, hmax, hpos⟩ with h0 | ⟨rfl, harr⟩
  · -- nothing arrives, and the call fails
    have htake : (c.answered inFlight).take (Pump.arrived c.reads PUMP_READ_RETRIES 0) = [] := by
      rw [show Pump.arrived c.reads PUMP_READ_RETRIES 0 = 0 from h0, List.take_zero]
    rw [htake] at h1 h2
    have hend := mt h2.mp (by simp)
    have hnil : line [] = [] := rfl
    rw [if_neg hend, h1, hnil] at hnonneg
    simp at hnonneg
  · apply hne
    rw [← hres, h1, line_take_answered c (Call.received_of_ok hatt hw), List.nil_append,
      List.take_take]
    have hmin := harr (n + 1) hmax
    rw [show ((n : Int) + 1 - 1).toNat = n by omega] at hmin ⊢
    have hk : Pump.arrived c.reads PUMP_READ_RETRIES 0 = c.arrived := rfl
    rw [List.take_eq_take_iff, List.length_nil, hk]
    omega

theorem mem_of_copyChunk {chunk response : List Byte}
    (h : (copyChunk maxlen chunk response).2 = true) : cr ∈ chunk := by
  induction chunk generalizing response with
  | nil => simp [copyChunk] at h
  | cons b bs ih =>
    rw [copyChunk] at h
    split at h
    · split at h
      · next hb => exact hb ▸ List.mem_cons_self
      · exact List.mem_cons_of_mem _ (ih h)
    · cases h

/-- What a call takes from the queue; a call that has seen the end of a line has taken it. -/
theorem readLoop_rest (maxlen : Int) (reads : Nat → Nat) (left attempt : Nat)
    (response inFlight : List Byte) :
    ∃ k, (readLoop maxlen reads left attempt response inFlight).2 = inFlight.drop k ∧
      ((readLoop maxlen reads left attempt response inFlight).1.2 = true →
        cr ∈ inFlight.take k) := by
  induction left generalizing attempt response inFlight with
  | zero => exact ⟨0, rfl, fun h => absurd h Bool.false_ne_true⟩
  | succ left ih =>
    rw [readLoop]
    split
    · simp only
      generalize readSize (reads attempt) inFlight = r
      have hmem : (copyChunk maxlen (inFlight.take r) response).2 = true → cr ∈ inFlight.take r :=
        mem_of_copyChunk
      cases hc : copyChunk maxlen (inFlight.take r) response with
      | mk response₁ ended =>
      rw [hc] at hmem
      cases ended with
      | true => exact ⟨r, rfl, fun _ => hmem rfl⟩
      | false =>
        obtain ⟨k, hk, hend⟩ := ih (attempt + 1) response₁ (inFlight.drop r)
        refine ⟨r + k, ?_, fun he => ?_⟩
        · rw [← List.drop_drop]
          exact hk
        · rw [List.take_add]
          exact List.mem_append_right _ (hend he)
    · exact ⟨0, rfl, fun h => absurd h Bool.false_ne_true⟩

/-- A call whose reply arrives in time, and has room in the buffer, leaves nothing in flight. -/
theorem drained (hatt : c.attached = true) (hw : c.write = .ok) (hmax : c.maxlen = some maxlen)
    (hroom : (c.reply.length : Int) < maxlen - 1) (harr : c.reply.length < c.arrived) :
    (pumpSendCommand c []).2 = [] := by
  have hrec := Call.received_of_ok hatt hw
  have hans : c.answered [] = c.reply ++ [cr] := by simp [Call.answered, hrec]
  obtain ⟨n, rfl⟩ : ∃ n : Nat, maxlen = n + 1 := ⟨(maxlen - 1).toNat, by omega⟩
  obtain ⟨-, hend⟩ := readLoop_spec n c.reads PUMP_READ_RETRIES 0 [] (c.answered [])
    (Nat.zero_le _)
  obtain ⟨k, hk, hmem⟩ := readLoop_rest (n + 1) c.reads PUMP_READ_RETRIES 0 [] (c.answered [])
  rw [pumpSendCommand_eq hatt hw hmax (by omega)]
  have htake : (c.answered []).take (Pump.arrived c.reads PUMP_READ_RETRIES 0) = c.answered [] :=
    List.take_of_length_le (by
      rw [hans, List.length_append]
      exact harr)
  have hline : line (c.answered []) = c.reply := by
    rw [hans, line_append_of_notMem c.cr_notMem_reply]
    simp [line]
  have hin := hmem (hend.mpr (by
    rw [htake, hline, hans]
    exact ⟨by simp, by simp only [List.length_nil]; omega⟩))
  simp only [hk]
  rw [hans] at hin ⊢
  -- the carriage return is the last byte, so all of the line was taken
  have hlast : c.reply.length < k := by
    by_contra hle
    rw [List.take_append_of_le_length (by omega)] at hin
    exact c.cr_notMem_reply (List.mem_of_mem_take hin)
  exact List.drop_of_length_le (by simpa using hlast)

/-! ### Runs -/

/-- Calls one after the other on a line with nothing in flight at first: what is in flight after
them, and the calls with their results. Every call meets `C`. -/
inductive Run (C : Call → List Byte → Prop) :
    List Byte → List (Call × Int × Option (List Byte)) → Prop where
  | start : Run C [] []
  | call {inFlight : List Byte} {log : List (Call × Int × Option (List Byte))}
      (h : Run C inFlight log) (c : Call) (hC : C c inFlight) :
      Run C (pumpSendCommand c inFlight).2 (log ++ [(c, (pumpSendCommand c inFlight).1)])

/-- In a run of safe calls no reply is mismatched. -/
theorem not_mismatch_of_run {log : List (Call × Int × Option (List Byte))}
    (h : Run Call.Safe inFlight log) : ∀ p ∈ log, ¬ Mismatch p.1 p.2 := by
  induction h with
  | start => simp
  | call _ c hC ih =>
    intro p hp
    rcases List.mem_append.mp hp with hp | hp
    · exact ih p hp
    · rw [List.mem_singleton.mp hp]
      exact not_mismatch hC

/-- A command with a buffer of 64 bytes; the pump answers with one character, which arrives with
the read `attempt`, if there is one. -/
def command (startChar answer : Byte) (attempt : Nat) (h : startChar ≠ cr) (ha : answer ≠ cr) :
    Call where
  startChar := startChar
  body := ⟨[], CStr.nz_nil⟩
  maxlen := some 64
  attached := true
  write := .ok
  pump := fun _ => [answer]
  reads := fun i => if i = attempt then 64 else 0
  oneMessage := by simpa using h.symm
  oneLine := fun _ => by simpa using ha.symm

/-- `!`, which the pump answers with `*`. -/
def store (attempt : Nat) : Call := command 0x21 0x2A attempt (by decide) (by decide)

/-- `?`, which the pump answers with `=`. -/
def query (attempt : Nat) : Call := command 0x3F 0x3D attempt (by decide) (by decide)

theorem not_mismatch_of_run_inTime :
    ¬ Mismatch (store 0) (1, some [0x2A]) ∧ ¬ Mismatch (query 2) (1, some [0x3D]) := by
  have hroom : ∀ c : Call, c.maxlen = some 64 → c.reply.length = 1 → 1 ≤ c.arrived →
      ∀ maxlen, c.maxlen = some maxlen → min c.reply.length (maxlen - 1).toNat ≤ c.arrived :=
    fun _ _ h₁ h₂ _ _ => by omega
  have hstore : Call.Safe (store 0) [] := fun _ => .inr ⟨rfl, hroom _ rfl rfl (by decide)⟩
  have hflight : (pumpSendCommand (store 0) []).2 = [] :=
    drained rfl rfl rfl (by decide) (by decide)
  have hquery : Call.Safe (query 2) (pumpSendCommand (store 0) []).2 :=
    fun _ => .inr ⟨hflight, hroom _ rfl rfl (by decide)⟩
  have hall := not_mismatch_of_run ((Run.start.call _ hstore).call _ hquery)
  have h₁ : (pumpSendCommand (store 0) []).1 = (1, some [0x2A]) := by decide
  have h₂ : (pumpSendCommand (query 2) (pumpSendCommand (store 0) []).2).1 = (1, some [0x3D]) := by
    decide
  rw [h₁, h₂] at hall
  exact ⟨hall (store 0, 1, some [0x2A]) (by simp), hall (query 2, 1, some [0x3D]) (by simp)⟩

/-- The reply to the first command comes after its last read, and the second call returns it as its
own. -/
theorem second_gets_first :
    Run (fun _ _ => True) [] [(store 40, -1, some []), (query 0, 1, some [0x2A])] ∧
      Mismatch (query 0) (1, some [0x2A]) := by
  constructor
  · have h := ((Run.start (C := fun _ _ => True)).call (store 40) trivial).call (query 0) trivial
    have h₀ : (pumpSendCommand (store 40) []).1 = (-1, some []) := by decide
    have h₁ : pumpSendCommand (query 0) (pumpSendCommand (store 40) []).2 =
        ((1, some [0x2A]), []) := by decide
    rw [h₀, h₁] at h
    exact h
  · exact ⟨64, [0x2A], rfl, rfl, by decide, by decide⟩

end Crusadia.Pump
