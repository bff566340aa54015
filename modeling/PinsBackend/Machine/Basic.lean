import PinsBackend.Ir.Code
import PinsBackend.Machine.Host
import PinsBackend.Machine.Memory
import Std.Data.TreeMap

/-! What both ways of running code have in common: the temporaries of an activation, the state that
outlives a run, and the step budget. -/
namespace PinsBackend

open Ir (Temp)

/-- The temporaries of one activation; one that was never written holds zero. -/
structure Temps where
  values : Std.TreeMap Temp Value := {}

namespace Temps

/-- The content of a temporary. `Temp.fp` reads the register of the memory. -/
def get (ts : Temps) (m : Memory) (t : Temp) : Value :=
  if t = Temp.fp then Value.ofInt m.fp else ts.values.getD t .zero

def set (ts : Temps) (t : Temp) (v : Value) : Except Fault Temps :=
  if t = Temp.fp then .error (.malformed .framePointerWritten) else .ok ⟨ts.values.insert t v⟩

end Temps

/-- What a machine keeps between runs. -/
structure Machine where
  memory : Memory
  host : Host
  /-- Statements executed so far. -/
  steps : Nat := 0

/-- The result of running a program to its end. -/
structure Outcome where
  value : Value
  steps : Nat
  deriving DecidableEq

abbrev MachineM := EStateM (Halt Fault) Machine

namespace Machine

def create (memoryWords : Nat) (sink : Sink) : Machine where
  memory := .ofCapacity memoryWords
  host := { sink }

/-- A machine for a program, if a memory of this size can exist. -/
def start (memoryWords : Nat) (sink : Sink) : Except Overflow Machine := do
  Memory.checkCapacity memoryWords
  return create memoryWords sink

def onMemory {α : Type} (x : MemoryM α) : MachineM α := fun ⟨memory, host, steps⟩ =>
  match x memory with
  | .ok a memory => .ok a ⟨memory, host, steps⟩
  | .error h memory => .error h ⟨memory, host, steps⟩

def onHost {α : Type} (x : EStateM Fault Host α) : MachineM α := fun ⟨memory, host, steps⟩ =>
  match x host with
  | .ok a host => .ok a ⟨memory, host, steps⟩
  | .error f host => .error (.fault f) ⟨memory, host, steps⟩

/-- Counts a statement; the one past the budget faults. -/
def tick (budget : Option Nat) : MachineM Unit := fun ⟨memory, host, steps⟩ =>
  match budget with
  | none => .ok () ⟨memory, host, steps + 1⟩
  | some limit =>
    if limit < steps + 1 then
      .error (.fault (.timeout limit)) ⟨memory, host, steps + 1⟩
    else
      .ok () ⟨memory, host, steps + 1⟩

/-- The argument words of a call from outside: a static link and parameters of zero. -/
def zeroArguments (parameterCount : Nat) : Except Overflow (List Value) := do
  let count ← Word.succ parameterCount
  Word.block count
  return List.replicate count .zero

/-- Runs the built-in of this name on argument words. The first word is the static link. -/
def callBuiltin (label : String) (args : List Value) : MachineM Value :=
  match Builtin.ofLabel? label with
  | some b => onHost (Host.call b (args.drop 1))
  | none => throw (.fault (.unknownFunction label))

end Machine
end PinsBackend
