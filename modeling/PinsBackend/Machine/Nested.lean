import PinsBackend.Machine.Basic

/-! Direct evaluation of tree code.

The evaluator recurses on nested statements and on calls, with the memory, the calling convention
and the built-ins of the linear machine. A jump looks for its target in the flattened sequence it
stands in and then in the sequences around it; it cannot leave an expression or a chunk. Every
recursive call spends one unit of fuel. -/
namespace PinsBackend.Nested

open Ir

/-- What an evaluation is given besides its state. -/
structure Setting where
  program : TreeProgram
  /-- How many calls may be live at a time. -/
  maxCallDepth : Nat
  /-- How many statements may be executed. -/
  budget : Option Nat

structure State where
  machine : Machine
  /-- The labels of the live calls, the running one first. -/
  calls : List String := []
  /-- The temporaries of the running activation. -/
  temps : Temps := {}

abbrev EvalM := EStateM (Halt Fault) State

/-- Where control goes after a statement. -/
inductive Flow where
  | next
  | jump (label : String)
  deriving DecidableEq

def onMachine {α : Type} (x : MachineM α) : EvalM α := fun ⟨machine, calls, temps⟩ =>
  match x machine with
  | .ok a machine => .ok a ⟨machine, calls, temps⟩
  | .error h machine => .error h ⟨machine, calls, temps⟩

def lift {α : Type} (x : Except Fault α) : EvalM α := fun s =>
  match x with
  | .ok a => .ok a s
  | .error f => .error (.fault f) s

def tick (setting : Setting) : EvalM Unit :=
  onMachine (Machine.tick setting.budget)

def load (address : Value) : EvalM Value := do
  let a ← lift address.asInt
  lift ((← get).machine.memory.load a.toInt)

def readTemp (t : Temp) : EvalM Value := do
  let s ← get
  return s.temps.get s.machine.memory t

def writeTemp (t : Temp) (v : Value) : EvalM Unit := fun ⟨machine, calls, temps⟩ =>
  match temps.set t v with
  | .ok temps => .ok () ⟨machine, calls, temps⟩
  | .error f => .error (.fault f) ⟨machine, calls, temps⟩

/-- The statements from the first definition of a label on. -/
def seek (label : String) : List Stmt → Option (List Stmt)
  | [] => none
  | s :: rest => if s.isLabel label then some (s :: rest) else seek label rest

/-- What a call has to bring back when it returns. -/
structure Caller where
  registers : Registers
  temps : Temps

/-- Opens the activation record of a call, with fresh temporaries. -/
def enter (setting : Setting) (label : String) (frame : Frame) (args : List Value) :
    EvalM Caller := do
  match frame.argumentWords with
  | .error o => throw (.overflow o)
  | .ok expected =>
    if args.length ≠ expected then
      throw (.fault (.malformed (.callArity label args.length expected)))
  let s ← get
  if setting.maxCallDepth ≤ s.calls.length then
    throw (.fault (.stackOverflow s.machine.memory.sp))
  let registers ← onMachine (Machine.onMemory (Memory.enter frame args))
  modifyGet fun ⟨machine, calls, temps⟩ =>
    ({ registers, temps }, { machine, calls := frame.label :: calls })

/-- Closes the running activation and brings back the caller's registers and temporaries. -/
def leave (caller : Caller) : EvalM Unit :=
  modify fun ⟨⟨memory, host, steps⟩, calls, _⟩ =>
    ⟨⟨memory.restore caller.registers, host, steps⟩, calls.drop 1, caller.temps⟩

mutual

def exec (setting : Setting) : Nat → Stmt → EvalM Flow
  | 0, _ => throw .unfinished
  | fuel + 1, stmt =>
    match stmt with
    | .seq ss =>
      let flat := Stmt.flattenList ss
      execFrom setting fuel flat flat
    | .label _ => pure .next
    | .jump label => do
      tick setting
      return .jump label
    | .cjump cond ifTrue ifFalse => do
      tick setting
      let c ← eval setting fuel cond
      return .jump (if ← lift c.isTruthy then ifTrue else ifFalse)
    | .move dst src => do
      tick setting
      move setting fuel dst src
    | .eval e => do
      tick setting
      let _ ← eval setting fuel e
      return .next

/-- Executes the statements `rest`, which end the flattened sequence `all`. -/
def execFrom (setting : Setting) : Nat → List Stmt → List Stmt → EvalM Flow
  | 0, _, _ => throw .unfinished
  | _ + 1, _, [] => pure .next
  | fuel + 1, all, stmt :: rest => do
    match ← exec setting fuel stmt with
    | .next => execFrom setting fuel all rest
    | .jump label =>
      match seek label all with
      | some target => execFrom setting fuel all target
      | none => return .jump label

/-- Moves a value; the address of a memory word is evaluated before the value. -/
def move (setting : Setting) : Nat → Expr → Expr → EvalM Flow
  | 0, _, _ => throw .unfinished
  | fuel + 1, dst, src =>
    match dst with
    | .temp t => do
      writeTemp t (← eval setting fuel src)
      return .next
    | .mem a => do
      let address ← eval setting fuel a
      let address ← lift address.asInt
      let v ← eval setting fuel src
      onMachine (Machine.onMemory (Memory.store address.toInt v))
      return .next
    | .eseq stmt expr => do
      match ← exec setting fuel stmt with
      | .next => move setting fuel expr src
      | .jump label => return .jump label
    | dst => throw (.fault (.malformed (.notLocation dst)))

def eval (setting : Setting) : Nat → Expr → EvalM Value
  | 0, _ => throw .unfinished
  | fuel + 1, expr =>
    match expr with
    | .const v => pure v
    | .data label => do lift ((← get).machine.memory.dataAddress label)
    | .temp t => readTemp t
    | .mem a => do load (← eval setting fuel a)
    | .binop op l r => do
      let a ← eval setting fuel l
      let b ← eval setting fuel r
      lift (op.apply a b)
    | .checkIndex i n => do
      let v ← eval setting fuel i
      lift (v.checkIndex n)
    | .call label args => do
      let vs ← args.mapM (eval setting fuel)
      call setting fuel label vs
    | .eseq stmt expr => do
      match ← exec setting fuel stmt with
      | .next => eval setting fuel expr
      | .jump label => throw (.fault (.undefinedLabel label))

def call (setting : Setting) : Nat → String → List Value → EvalM Value
  | 0, _, _ => throw .unfinished
  | fuel + 1, label, args =>
    match setting.program.chunk? label with
    | none => onMachine (Machine.callBuiltin label args)
    | some chunk => do
      let caller ← enter setting label chunk.frame args
      match ← exec setting fuel chunk.body with
      | .jump label => throw (.fault (.undefinedLabel label))
      | .next =>
        let v ← readTemp Temp.rv
        leave caller
        return v

end

/-- Calls a label from outside, with a static link and parameters of zero. A failure is blamed on
the innermost live call. -/
def invoke (setting : Setting) (fuel : Nat) (label : String) :
    EStateM (Halt Crash) Machine Value := fun machine =>
  let parameters := (setting.program.chunk? label).elim 0 fun c => c.frame.parameterCount
  match Machine.zeroArguments parameters with
  | .error o => .error (.overflow o) machine
  | .ok args =>
    match call setting fuel label args { machine } with
    | .ok v s => .ok v s.machine
    | .error h s => .error (h.blame (s.calls.headD label)) s.machine

/-- Reserves static data, runs the global initializers and then the entry function. -/
def run (setting : Setting) (fuel : Nat) : EStateM (Halt Crash) Machine Outcome := do
  fun machine =>
    match Machine.onMemory (Memory.allocateGlobals setting.program.globals) machine with
    | .ok () machine => .ok () machine
    | .error h machine => .error (h.blame Frame.initLabel) machine
  let _ ← invoke setting fuel Frame.initLabel
  let value ← invoke setting fuel setting.program.entry
  return { value, steps := (← get).steps }

end PinsBackend.Nested
