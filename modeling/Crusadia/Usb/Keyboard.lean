import Mathlib.Data.BitVec
import Crusadia.Lib.Along

/-!
# Crusadia.Usb.Keyboard

`usbhid_keyboard_report` and the keyboard part of `usbhid_attach` (`usbhid.c`). A key of a report is
a press if the report before does not have it, and there is one report before (`g_prev_keys`) for
all keyboards: it may be another keyboard's, a rollover report, or cleared by an attach
(`keys_once_iff`). Reports come one after the other here. In the source one can come inside another:
`terminal_key` runs a command, and `cc -run` polls the keyboards before `g_prev_keys` is stored.
-/

namespace Crusadia.Usb.Keyboard

abbrev Code := BitVec 8

def hidMapLower : List Char :=
  "\x00\x00\x00\x00abcdefghijklmnopqrstuvwxyz1234567890\n\x1b\x08\t -=[]\\\x00;'`,./".toList

def hidMapUpper : List Char :=
  "\x00\x00\x00\x00ABCDEFGHIJKLMNOPQRSTUVWXYZ!@#$%^&*()\n\x1b\x08\t _+\x7b\x7d|\x00:\"~<>?".toList

/-- The arrow keys and escape, from `terminal.h`. -/
def arrows : List (Code × Char) :=
  [(0x52, '\x01'), (0x51, '\x02'), (0x50, '\x04'), (0x4F, '\x05'), (0x29, '\x03')]

/-- The character of a key. Both tables are zero from 57 up to their size, 104. -/
def charOf (shift : Bool) (code : Code) : Option Char :=
  match arrows.lookup code with
  | some c => some c
  | none =>
    let map := if shift then hidMapUpper else hidMapLower
    map[code.toNat]?.filter (· ≠ '\x00')

/-- The eight bytes of a report, without the one that is reserved. -/
structure Report where
  modifiers : BitVec 8
  keys : List Code
  six : keys.length = 6

def Report.shift (r : Report) : Bool := r.modifiers &&& (0x02 ||| 0x20) ≠ 0

/-- ErrorRollOver -/
def Report.rollover (r : Report) : Prop := r.keys = List.replicate 6 1

instance (r : Report) : Decidable r.rollover := inferInstanceAs (Decidable (_ = _))

/-- The characters that a report gives to `terminal_key`, each with its key. -/
def keyboardReport (prevKeys : List Code) (r : Report) : List (Code × Char) :=
  r.keys.filterMap fun code =>
    if code = 0#8 ∨ code ∈ prevKeys then none else (charOf r.shift code).map (code, ·)

inductive Event
  | attach (dev : Nat)
  | report (dev : Nat) (r : Report)

/-- `g_prev_keys`, and beside it what is not in the source: the keys that each keyboard has listed
in its last report that is not a rollover. -/
structure St where
  prevKeys : List Code
  listed : Nat → List Code

def St.step (st : St) : Event → St
  | .attach dev => ⟨List.replicate 6 0, Function.update st.listed dev []⟩
  | .report dev r =>
    ⟨r.keys, if r.rollover then st.listed else Function.update st.listed dev r.keys⟩

def Mapped (code : Code) : Prop := (charOf false code).isSome

instance (code : Code) : Decidable (Mapped code) := inferInstanceAs (Decidable (_ = true))

/-- A report gives one character for each mapped key that its keyboard had not listed, and none
for the others. -/
def Once (st : St) : Event → Prop
  | .attach _ => True
  | .report dev r => ∀ code, Mapped code →
    ((keyboardReport st.prevKeys r).map Prod.fst).count code =
      if ¬ r.rollover ∧ code ∈ r.keys ∧ code ∉ st.listed dev then 1 else 0

/-- On the mapped keys of the report the remembered keys are those of its own keyboard, and a new
one is listed once. -/
def Remembered (st : St) : Event → Prop
  | .attach _ => True
  | .report dev r => ∀ code ∈ r.keys, Mapped code →
    if code ∈ st.listed dev then code ∈ st.prevKeys
    else code ∉ st.prevKeys ∧ r.keys.count code = 1

theorem isSome_charOf (shift : Bool) (code : Code) :
    (charOf shift code).isSome = (charOf false code).isSome := by
  revert shift code
  decide +kernel

theorem not_mapped_one : ¬ Mapped 1 := by
  decide +kernel

theorem map_fst_keyboardReport (prevKeys : List Code) (r : Report) :
    (keyboardReport prevKeys r).map Prod.fst = r.keys.filter fun code =>
      ¬ (code = 0#8 ∨ code ∈ prevKeys) ∧ (charOf r.shift code).isSome := by
  rw [keyboardReport]
  induction r.keys with
  | nil => rfl
  | cons k keys ih =>
    rw [List.filterMap_cons, List.filter_cons, ← ih]
    by_cases hk : k = 0#8 ∨ k ∈ prevKeys
    · rw [if_pos hk, if_neg (by simp [hk])]
    · rw [if_neg hk]
      cases charOf r.shift k <;> simp [hk]

/-- A key gets as many characters as the report lists it, or none if it is remembered. -/
theorem count_keyboardReport (prevKeys : List Code) (r : Report) {code : Code}
    (hmapped : Mapped code) : ((keyboardReport prevKeys r).map Prod.fst).count code =
      if code ∈ prevKeys then 0 else r.keys.count code := by
  have hzero : code ≠ 0#8 := fun h => absurd (h ▸ hmapped) (by decide +kernel)
  have hsome : (charOf r.shift code).isSome = true := (isSome_charOf r.shift code).trans hmapped
  rw [map_fst_keyboardReport]
  split
  · rename_i hprev
    exact List.count_eq_zero_of_not_mem fun h => by simp [hprev] at h
  · rename_i hprev
    exact List.count_filter (by simp [hzero, hprev, hsome])

theorem once_iff_remembered (st : St) (e : Event) : Once st e ↔ Remembered st e := by
  cases e with
  | attach dev => exact Iff.rfl
  | report dev r =>
    refine forall_congr' fun code => ?_
    by_cases hmapped : Mapped code
    · rw [forall_prop_of_true hmapped, forall_prop_of_true hmapped,
        count_keyboardReport st.prevKeys r hmapped]
      by_cases hmem : code ∈ r.keys
      · have hroll : ¬ r.rollover := fun h => by
          rw [show r.keys = _ from h] at hmem
          exact not_mapped_one (List.eq_of_mem_replicate hmem ▸ hmapped)
        have hpos : 0 < r.keys.count code := List.count_pos_iff.2 hmem
        by_cases hl : code ∈ st.listed dev <;> by_cases hp : code ∈ st.prevKeys <;>
          simp [hmem, hroll, hl, hp]
        omega
      · simp [hmem, List.count_eq_zero_of_not_mem hmem]
    · simp [hmapped]

/-- In every run of attached keyboards the presses are delivered once just when every report finds
its own keyboard's keys remembered. -/
theorem keys_once_iff (st : St) (events : List Event) :
    Along St.step Once st events ↔ Along St.step Remembered st events :=
  along_congr _ once_iff_remembered st events

/-- A key held on one keyboard comes again after a report of another. -/
theorem keys_not_once :
    let a : Report := ⟨0, [4, 0, 0, 0, 0, 0], rfl⟩
    let up : Report := ⟨0, [0, 0, 0, 0, 0, 0], rfl⟩
    let st : St := ⟨List.replicate 6 0, fun _ => []⟩
    keyboardReport up.keys a = [(4, 'a')] ∧
      ¬ Along St.step Once st [.attach 0, .attach 1, .report 0 a, .report 1 up, .report 0 a] := by
  refine ⟨by decide +kernel, fun h => ?_⟩
  have hcount := h.2.2.2.2.1 4 (by decide +kernel)
  exact absurd hcount (by decide +kernel)

end Crusadia.Usb.Keyboard
