import Mathlib.Data.BitVec
import Crusadia.Lib.Along

/-!
# Crusadia.Usb.Hub

`usbhub_poll` (`usbhub.c`): each port of each hub is asked for its status word, whose upper half has
the changes. The upper half is shifted down and then tested at bit 16, which it does not have, so a
poll only reads the words: no change is cleared, no port enumerated, no device freed
(`poll_tracks_iff`).
-/

namespace Crusadia.Usb.Hub

/-! The features `USB_PORT_FEAT_*` of a port. -/

def featConnection := 0
def featEnable := 1
def featReset := 4
def featLowspeed := 9
def featHighspeed := 10
def featCConnection := 16
def featCReset := 20

/-- What a poll does beside reading: requests to port `p` of the hub at `addr`, the enumeration of
a device and the release of one. -/
inductive Action
  | clearFeature (addr p feature : Nat)
  | setFeature (addr p feature : Nat)
  | enumerate (addr p speed : Nat)
  | freeDevice (addr p : Nat)
  deriving DecidableEq

/-- `usb_device_t` -/
structure Device where
  inUse : Bool
  hubAddr : Nat
  hubPort : Nat

/-- `usbhub_ctx_t` -/
structure Ctx where
  address : Nat
  numPorts : Nat
  present : Nat → Bool

/-- `g_hubs`, `g_hub_count` and the table of devices. -/
structure St where
  hubs : Nat → Ctx
  hubCount : Nat
  devices : List Device
  /-- status words read so far -/
  reads : Nat
  log : List Action

/-- The words that the transfers return, one after the other, and what the enumeration of a device
makes of the tables: a hub found behind a hub is attached while the poll runs. -/
structure Env where
  words : Nat → BitVec 32
  usbEnumerateDevice : St → (addr p speed : Nat) → St

variable (env : Env)

/-- `usbhub_get_port_status`. -/
def St.getPortStatus (st : St) : BitVec 32 × St :=
  (env.words st.reads, { st with reads := st.reads + 1 })

/-- `usbhub_set_feature` and `usbhub_clear_feature`, or a call of `usb.c`. -/
def St.act (st : St) (a : Action) : St := { st with log := st.log ++ [a] }

def St.setPresent (st : St) (h p : Nat) (v : Bool) : St :=
  { st with hubs := fun i =>
      if i = h then { st.hubs h with present := Function.update (st.hubs h).present p v }
      else st.hubs i }

def isChild (addr p : Nat) (d : Device) : Bool := d.inUse ∧ d.hubAddr = addr ∧ d.hubPort = p

/-- `usb_find_child_device`, and `usb_free_device` of what it finds. -/
def St.freeChild (st : St) (addr p : Nat) : St :=
  match st.devices.findIdx? (isChild addr p) with
  | none => st
  | some i =>
    { st with devices := st.devices.modify i fun d => { d with inUse := false } }.act
      (.freeDevice addr p)

/-- The wait of `usbhub_poll`, up to 60 rounds, for the end of a reset. -/
def waitReset : Nat → St → St
  | 0, st => st
  | n + 1, st =>
    let (st2, st) := st.getPortStatus env
    if (st2 >>> 16).getLsbD featReset then st else waitReset n st

/-- `usbhub_poll` at a port that is connected and was not present. -/
def connect (st : St) (h p : Nat) : St :=
  let addr := (st.hubs h).address
  let st := waitReset env 60 (st.act (.setFeature addr p featReset))
  let (st2, st) := (st.act (.clearFeature addr p featCReset)).getPortStatus env
  if ¬ st2.getLsbD featEnable then st
  else
    let speed := if st2.getLsbD featLowspeed then 1 else if st2.getLsbD featHighspeed then 2 else 0
    let st := (st.setPresent h p true).act (.enumerate addr p speed)
    env.usbEnumerateDevice st addr p speed

/-- The body of the loops of `usbhub_poll`. -/
def visit (st : St) (h p : Nat) : St :=
  let addr := (st.hubs h).address
  let (status, st) := st.getPortStatus env
  if (status >>> 16).getLsbD featCConnection then
    let st := st.act (.clearFeature addr p featCConnection)
    if status.getLsbD featConnection ∧ ¬ (st.hubs h).present p then connect env st h p
    else if ¬ status.getLsbD featConnection then (st.setPresent h p false).freeChild addr p
    else st
  else st

/-- The loops ask for `g_hub_count` and `num_ports` in every round. -/
def Due (st : St) (hp : Nat × Nat) : Prop := hp.1 < st.hubCount ∧ hp.2 < (st.hubs hp.1).numPorts

instance (st : St) (hp : Nat × Nat) : Decidable (Due st hp) := inferInstanceAs (Decidable (_ ∧ _))

def round (st : St) (hp : Nat × Nat) : St := if Due st hp then visit env st hp.1 hp.2 else st

/-- The rounds of a poll: up to eight hubs of up to eight ports. -/
def pollRounds : List (Nat × Nat) := List.range 8 ×ˢ List.range 8

/-- `usbhub_poll`. -/
def usbhubPoll (st : St) : St := pollRounds.foldl (round env) st

/-- A visit to port `p` of hub `h` keeps track of it. -/
def Tracks (st st' : St) (h p : Nat) : Prop :=
  let addr := (st.hubs h).address
  let status := env.words st.reads
  let new := st'.log.drop st.log.length
  if status.getLsbD 16 then
    .clearFeature addr p featCConnection ∈ new ∧
      (status.getLsbD 0 → (st.hubs h).present p = false →
        (env.words (st'.reads - 1)).getLsbD featEnable → (st'.hubs h).present p = true ∧
          (new.filter fun a => a matches .enumerate _ _ _).length = 1) ∧
      (status.getLsbD 0 = false →
        (st'.hubs h).present p = false ∧ ∀ d ∈ st'.devices, isChild addr p d = false)
  else st' = { st with reads := st.reads + 1 }

/-- Every visit of the rounds keeps track of its port. -/
def AllTrack (st : St) (rounds : List (Nat × Nat)) : Prop :=
  Along (round env) (fun st hp => Due st hp → Tracks env st (round env st hp) hp.1 hp.2) st rounds

variable {env} {st : St} {rounds : List (Nat × Nat)}

/-- The upper half, shifted down, has no bit 16. -/
theorem getLsbD_change (w : BitVec 32) : (w >>> 16).getLsbD featCConnection = false := by
  rw [BitVec.getLsbD_ushiftRight]
  exact BitVec.getLsbD_of_ge w _ (by decide)

theorem visit_eq (h p : Nat) : visit env st h p = { st with reads := st.reads + 1 } := by
  simp only [visit, St.getPortStatus, getLsbD_change, Bool.false_eq_true, if_false]

theorem tracks_visit_iff (h p : Nat) :
    Tracks env st (visit env st h p) h p ↔ (env.words st.reads).getLsbD 16 = false := by
  rw [visit_eq, Tracks]
  cases (env.words st.reads).getLsbD 16 <;> simp

theorem due_reads (n : Nat) (hp : Nat × Nat) : Due { st with reads := n } hp ↔ Due st hp := Iff.rfl

theorem allTrack_cons (hp : Nat × Nat) : AllTrack env st (hp :: rounds) ↔
    (Due st hp → Tracks env st (round env st hp) hp.1 hp.2) ∧
      AllTrack env (round env st hp) rounds := Iff.rfl

theorem allTrack_iff : AllTrack env st rounds ↔
    ∀ i, i < (rounds.filter (Due st)).length → (env.words (st.reads + i)).getLsbD 16 = false := by
  induction rounds generalizing st with
  | nil => simp [AllTrack, Along]
  | cons hp rounds ih =>
    by_cases hdue : Due st hp
    · have hround : round env st hp = { st with reads := st.reads + 1 } := by
        rw [round, if_pos hdue, visit_eq]
      rw [allTrack_cons, forall_prop_of_true hdue, ih, hround, ← visit_eq hp.1 hp.2,
        tracks_visit_iff, visit_eq]
      simp only [due_reads, List.filter_cons, hdue, decide_true, if_true, List.length_cons]
      constructor
      · rintro ⟨h0, hrest⟩ i hi
        cases i with
        | zero => exact h0
        | succ i => exact Nat.add_right_comm _ i 1 ▸ hrest i (by omega)
      · intro h
        refine ⟨h 0 (by omega), fun i hi => ?_⟩
        exact Nat.add_right_comm _ i 1 ▸ h (i + 1) (by omega)
    · have hround : round env st hp = st := if_neg hdue
      simp [allTrack_cons, hround, hdue, ih]

/-- In any number of polls the hubs keep track of their ports just when no word that is read has
the connection change bit. -/
theorem poll_tracks_iff (env : Env) (st : St) (polls : Nat) :
    AllTrack env st (List.replicate polls pollRounds).flatten ↔
      ∀ i, i < polls * (pollRounds.filter (Due st)).length →
        (env.words (st.reads + i)).getLsbD 16 = false := by
  rw [allTrack_iff, List.filter_flatten, List.map_replicate, List.length_flatten,
    List.map_replicate, List.sum_replicate_nat]

/-- A hub with one port whose first word says connected, enabled and changed. -/
theorem poll_not_tracks :
    let env : Env := ⟨fun _ => 0x00010103, fun st _ _ _ => st⟩
    let st : St := ⟨fun _ => ⟨1, 1, fun _ => false⟩, 1, [], 0, []⟩
    (usbhubPoll env st).log = [] ∧ ¬ AllTrack env st pollRounds := by
  refine ⟨by decide +kernel, fun h => ?_⟩
  exact absurd (allTrack_iff.1 h 0 (by decide +kernel)) (by decide)

end Crusadia.Usb.Hub
