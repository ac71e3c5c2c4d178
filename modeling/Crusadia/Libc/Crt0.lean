import Mathlib.Data.BitVec
import Mathlib.Logic.Function.Basic

/-!
# Crusadia.Libc.Crt0

The **start of a user program**, `_start` in `crt0.s`: the instructions it uses, on registers
and a memory of 32-bit words, with the functions it calls as any behaviour of the i386 calling
convention.

`_start` keeps `argc` in `eax` and `envp` in `ecx` over the call of `__init_environ`, but only
`ebx` is safe there. So `main` gets its arguments exactly if the callee happens to leave the
two registers alone (`start_calls_iff`).
-/

namespace Crusadia.Libc.Crt0

abbrev Word := BitVec 32

inductive Reg
  | eax | ebx | ecx | edx | esi | edi | ebp | esp
  deriving DecidableEq

/-- The registers a callee restores. -/
def Reg.saved : List Reg := [.ebx, .ebp, .esi, .edi, .esp]

/-- All accesses are of words at distances from `esp` that are multiples of four. -/
structure Machine where
  reg : Reg → Word
  mem : Word → Word

inductive Fn
  | initEnviron | main | exit
  deriving DecidableEq

def Fn.arity : Fn → Nat
  | .initEnviron => 1
  | .main => 3
  | .exit => 1

inductive Instr
  /-- `xor d, s` -/
  | xor (d s : Reg)
  /-- `mov d, [base]` -/
  | load (d base : Reg)
  /-- `mov d, s` -/
  | mov (d s : Reg)
  /-- `add d, imm` -/
  | add (d : Reg) (imm : Word)
  /-- `lea d, [base + index*4 + disp]` -/
  | lea (d base index : Reg) (disp : Word)
  | push (s : Reg)
  | call (f : Fn)
  deriving DecidableEq

structure Call where
  fn : Fn
  args : List Word
  deriving DecidableEq

namespace Machine

def set (m : Machine) (r : Reg) (v : Word) : Machine := { m with reg := Function.update m.reg r v }

def push (m : Machine) (v : Word) : Machine :=
  let sp := m.reg .esp - 4
  { m.set .esp sp with mem := Function.update m.mem sp v }

/-- The `i`th argument on the stack at a call. -/
def arg (m : Machine) (i : Nat) : Word := m.mem (m.reg .esp + 4 * BitVec.ofNat 32 i)

end Machine

/-- What the called functions do, from the call to their return. -/
abbrev Callees := Fn → Machine → Machine

/-- The calling convention: anything but the saved registers may change. -/
def Callees.Conform (env : Callees) : Prop := ∀ f m, ∀ r ∈ Reg.saved, (env f m).reg r = m.reg r

def step (env : Callees) (m : Machine) : Instr → Machine × List Call
  | .xor d s => (m.set d (m.reg d ^^^ m.reg s), [])
  | .load d base => (m.set d (m.mem (m.reg base)), [])
  | .mov d s => (m.set d (m.reg s), [])
  | .add d imm => (m.set d (m.reg d + imm), [])
  | .lea d base index disp => (m.set d (m.reg base + m.reg index * 4 + disp), [])
  | .push s => (m.push (m.reg s), [])
  | .call f => (env f m, [⟨f, (List.range f.arity).map m.arg⟩])

/-- The state after some instructions, and the calls they made. -/
def exec (env : Callees) : List Instr → Machine → Machine × List Call
  | [], m => (m, [])
  | i :: is, m =>
    let (m₁, c) := step env m i
    let (m₂, cs) := exec env is m₁
    (m₂, c ++ cs)

/-- `_start`, up to the call of `exit`, which does not return. -/
def start : List Instr :=
  [.xor .ebp .ebp, .load .eax .esp, .mov .ebx .esp, .add .ebx 4, .lea .ecx .ebx .eax 4,
    .push .ecx, .call .initEnviron, .add .esp 4,
    .push .ecx, .push .ebx, .push .eax, .call .main, .add .esp 12,
    .push .eax, .call .exit]

/-- The state in which `_start` calls `f`. -/
def atCall (env : Callees) (f : Fn) (m : Machine) : Machine :=
  (exec env (start.takeWhile (· ≠ .call f)) m).1

/-- The initial stack: `argc`, the arguments and a null, the environment and a null. -/
def Machine.Laid (m : Machine) (argv envp : List Word) : Prop :=
  ∀ i w, (BitVec.ofNat 32 argv.length :: (argv ++ 0 :: (envp ++ [0])))[i]? = some w → m.arg i = w

namespace Machine

variable (m : Machine)

@[simp] theorem reg_set (r r' : Reg) (v : Word) :
    (m.set r v).reg r' = if r' = r then v else m.reg r' := Function.update_apply ..

@[simp] theorem mem_set (r : Reg) (v : Word) : (m.set r v).mem = m.mem := rfl

@[simp] theorem reg_push (r : Reg) (v : Word) :
    (m.push v).reg r = if r = .esp then m.reg .esp - 4 else m.reg r := reg_set ..

@[simp] theorem arg_push_zero (v : Word) : (m.push v).arg 0 = v := by
  simp [push, set, arg]

@[simp] theorem arg_push_one (v : Word) : (m.push v).arg 1 = m.arg 0 := by
  have hne : m.reg .esp ≠ m.reg .esp - 4#32 := by bv_omega
  simp [push, set, arg, hne]

@[simp] theorem arg_push_two (v : Word) : (m.push v).arg 2 = m.arg 1 := by
  have haddr : m.reg .esp - 4#32 + 8#32 = m.reg .esp + 4#32 := by bv_omega
  have hne : m.reg .esp + 4#32 ≠ m.reg .esp - 4#32 := by bv_omega
  simp [push, set, arg, haddr, hne]

end Machine

/-- Only `ebx` is known to survive `__init_environ`: the two other arguments of `main` are
what that call leaves in `eax` and `ecx`. -/
theorem calls_start (env : Callees) (henv : env.Conform) (m : Machine) :
    let back := env .initEnviron (atCall env .initEnviron m)
    (exec env start m).2 = [
        ⟨.initEnviron, [m.reg .esp + 4 + m.mem (m.reg .esp) * 4 + 4]⟩,
        ⟨.main, [back.reg .eax, m.reg .esp + 4, back.reg .ecx]⟩,
        ⟨.exit, [(env .main (atCall env .main m)).reg .eax]⟩] := by
  intro back
  have hebx : back.reg .ebx = m.reg .esp + 4 := by
    rw [henv _ _ .ebx (by decide)]
    simp [atCall, start, exec, step]
  simp [back, atCall, start, exec, step, Fn.arity, List.range_succ] at hebx ⊢
  exact hebx

/-- One argument and an empty environment, on a stack at 96. -/
def oneArg : Machine :=
  ⟨fun r => if r = .esp then 96 else 0, fun a => if a = 96 then 1 else if a = 100 then 7 else 0⟩

theorem laid_oneArg : oneArg.Laid [7] [] := by
  intro i w h
  match i with
  | 0 | 1 | 2 | 3 =>
    cases h
    decide
  | i + 4 => simp at h

/-- Functions that change no register. -/
def quiet : Callees := fun _ m => m

/-- `__init_environ` with its argument in `eax` at the end, as it is compiled without
optimisation. -/
def viaEax : Callees := fun f m => if f = .initEnviron then m.set .eax (m.arg 0) else m

/-- `_start` passes the arguments on and exits with what `main` returns exactly if
`__init_environ` leaves `argc` in `eax` and the address of `envp` in `ecx`. -/
theorem start_calls_iff (env : Callees) (henv : env.Conform) (m : Machine) (argv envp : List Word)
    (hlaid : m.Laid argv envp) :
    let argc := BitVec.ofNat 32 argv.length
    let argvAt := m.reg .esp + 4
    let envpAt := m.reg .esp + 4 * BitVec.ofNat 32 (argv.length + 2)
    let back := env .initEnviron (atCall env .initEnviron m)
    (exec env start m).2 = [⟨.initEnviron, [envpAt]⟩, ⟨.main, [argc, argvAt, envpAt]⟩,
        ⟨.exit, [(env .main (atCall env .main m)).reg .eax]⟩] ↔
      back.reg .eax = argc ∧ back.reg .ecx = envpAt := by
  intro argc argvAt envpAt back
  have hargc : m.mem (m.reg .esp) = argc := by simpa [Machine.arg] using hlaid 0 _ rfl
  have henvp : m.reg .esp + 4 + m.mem (m.reg .esp) * 4 + 4 = envpAt := by
    rw [hargc]
    simp only [argc, envpAt, BitVec.ofNat_add, BitVec.mul_add, BitVec.mul_comm _ 4,
      ← BitVec.add_assoc]
    bv_omega
  rw [calls_start env henv m, henvp]
  simp [argvAt, back]

theorem start_calls_iff_quiet : quiet.Conform ∧ oneArg.Laid [7] [] ∧
    (exec quiet start oneArg).2 = [⟨.initEnviron, [108]⟩, ⟨.main, [1, 100, 108]⟩, ⟨.exit, [1]⟩] :=
  have hquiet : quiet.Conform := fun _ _ _ _ => rfl
  ⟨hquiet, laid_oneArg,
    (start_calls_iff quiet hquiet oneArg [7] [] laid_oneArg).mpr ⟨by decide, by decide⟩⟩

/-- `main` gets the address of `envp` as `argc`. -/
theorem start_calls_viaEax : viaEax.Conform ∧ oneArg.Laid [7] [] ∧
    (exec viaEax start oneArg).2 =
      [⟨.initEnviron, [108]⟩, ⟨.main, [108, 100, 108]⟩, ⟨.exit, [108]⟩] := by
  refine ⟨fun f m r hr => ?_, laid_oneArg, by decide⟩
  have hne : r ≠ .eax := by
    rintro rfl
    exact absurd hr (by decide)
  cases f <;> simp [viaEax, hne]

end Crusadia.Libc.Crt0
