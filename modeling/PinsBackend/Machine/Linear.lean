import PinsBackend.Machine.Basic

/-! The machine for linear code.

A state is a machine with a stack of activations, the running one first. `step` executes one
statement or returns from the running activation; calls push an activation instead of recursing. -/
namespace PinsBackend.Linear

open Ir

structure Activation where
  chunk : Chunk (List Stmt)
  /-- The statements still to be executed, a tail of the chunk's body. -/
  rest : List Stmt
  temps : Temps := {}
  /-- The temporary of the caller that takes the result. -/
  result : Option Temp
  /-- The registers of the caller. -/
  saved : Registers

structure State where
  machine : Machine
  stack : List Activation := []

abbrev StepM := EStateM (Halt Fault) State

/-- The value of an expression without calls and nested statements. -/
def eval (m : Memory) (temps : Temps) : Expr → Except Fault Value
  | .const v => .ok v
  | .data l => m.dataAddress l
  | .temp t => .ok (temps.get m t)
  | .mem a => do
    let address ← (← eval m temps a).asInt
    m.load address.toInt
  | .binop op l r => do
    let a ← eval m temps l
    let b ← eval m temps r
    op.apply a b
  | .checkIndex i n => do (← eval m temps i).checkIndex n
  | e => .error (.malformed (.nonCanonicalExpr e))

/-- The statements from a label on. Of two definitions of a label the later counts. -/
def seek (label : String) : List Stmt → Option (List Stmt)
  | [] => none
  | s :: rest =>
    match seek label rest with
    | some found => some found
    | none => if s.isLabel label then some (s :: rest) else none

def onMachine {α : Type} (x : MachineM α) : StepM α := fun ⟨machine, stack⟩ =>
  match x machine with
  | .ok a machine => .ok a ⟨machine, stack⟩
  | .error h machine => .error h ⟨machine, stack⟩

def lift {α : Type} (x : Except Fault α) : StepM α := fun s =>
  match x with
  | .ok a => .ok a s
  | .error f => .error (.fault f) s

/-- Continues the running activation with other temporaries. -/
def assign (t : Temp) (v : Value) : StepM Unit := fun ⟨machine, stack⟩ =>
  match stack with
  | [] => .ok () ⟨machine, []⟩
  | act :: callers =>
    match act.temps.set t v with
    | .ok temps => .ok () ⟨machine, { act with temps } :: callers⟩
    | .error f => .error (.fault f) ⟨machine, act :: callers⟩

/-- Continues the running activation at a label of its chunk. -/
def goto (label : String) : StepM Unit := fun ⟨machine, stack⟩ =>
  match stack with
  | [] => .ok () ⟨machine, []⟩
  | act :: callers =>
    match seek label act.chunk.body with
    | some rest => .ok () ⟨machine, { act with rest } :: callers⟩
    | none => .error (.fault (.undefinedLabel label)) ⟨machine, act :: callers⟩

/-- Opens an activation of a chunk. -/
def enter (chunk : Chunk (List Stmt)) (args : List Value) (result : Option Temp) : StepM Unit :=
  fun ⟨machine, stack⟩ =>
    match Machine.onMemory (Memory.enter chunk.frame args) machine with
    | .ok saved machine => .ok () ⟨machine, { chunk, rest := chunk.body, result, saved } :: stack⟩
    | .error h machine => .error h ⟨machine, stack⟩

/-- Calls a chunk, or runs a built-in in place. -/
def call (p : LinearProgram) (label : String) (args : List Value) (result : Option Temp) :
    StepM Unit :=
  match p.chunk? label with
  | some chunk =>
    match chunk.frame.argumentWords with
    | .error o => throw (.overflow o)
    | .ok expected =>
      if args.length = expected then
        enter chunk args result
      else
        throw (.fault (.malformed (.callArity label args.length expected)))
  | none => do
    let v ← onMachine (Machine.callBuiltin label args)
    match result with
    | some t => assign t v
    | none => pure ()

/-- Returns from an activation: the caller's registers come back and its temporary takes the
result. The outermost activation gives the result of the run. -/
def leave (act : Activation) (callers : List Activation) (machine : Machine) :
    EStateM.Result (Halt Fault) State (Option Value) :=
  let v := act.temps.get machine.memory Temp.rv
  let ⟨memory, host, steps⟩ := machine
  let machine : Machine := ⟨memory.restore act.saved, host, steps⟩
  match callers, act.result with
  | [], _ => .ok (some v) ⟨machine, []⟩
  | callers, none => .ok none ⟨machine, callers⟩
  | callers, some t =>
    match assign t v ⟨machine, callers⟩ with
    | .ok () s => .ok none s
    | .error h s => .error h s

/-- The values of expressions in the memory of a machine. -/
def evalAll (m : Memory) (temps : Temps) : List Expr → Except Fault (List Value)
  | [] => .ok []
  | e :: es => do
    let v ← eval m temps e
    let vs ← evalAll m temps es
    return v :: vs

/-- Writes a word of memory from the values of two expressions. -/
def storeAt (temps : Temps) (address src : Expr) : MachineM Unit := fun machine =>
  let operands : Except Fault (Int × Value) := do
    let a ← (← eval machine.memory temps address).asInt
    let v ← eval machine.memory temps src
    return (a.toInt, v)
  match operands with
  | .ok (a, v) => Machine.onMemory (Memory.store a v) machine
  | .error f => .error (.fault f) machine

/-- Executes a statement of the running activation, which has these temporaries. -/
def execute (p : LinearProgram) (temps : Temps) (stmt : Stmt) : StepM Unit :=
  match stmt with
  | .move (.temp t) (.call label args) => do
    let args ← lift (evalAll (← get).machine.memory temps args)
    call p label args (some t)
  | .eval (.call label args) => do
    let args ← lift (evalAll (← get).machine.memory temps args)
    call p label args none
  | .move (.temp t) src => do
    let v ← lift (eval (← get).machine.memory temps src)
    assign t v
  | .move (.mem address) src => onMachine (storeAt temps address src)
  | .eval e => do
    let _ ← lift (eval (← get).machine.memory temps e)
  | .jump label => goto label
  | .cjump cond ifTrue ifFalse => do
    let c ← lift (eval (← get).machine.memory temps cond)
    goto (if ← lift c.isTruthy then ifTrue else ifFalse)
  | .label _ => pure ()
  | stmt => throw (.fault (.malformed (.nonCanonicalStmt stmt)))

/-- Executes one statement, or returns from the running activation if it has none left. Gives the
result when the outermost activation returns. -/
def step (p : LinearProgram) (budget : Option Nat) : StepM (Option Value) := fun ⟨machine, stack⟩ =>
  match stack with
  | [] => .error (.fault (.malformed .noActiveCall)) ⟨machine, []⟩
  | act :: callers =>
    match act.rest with
    | [] => leave act callers machine
    | stmt :: rest =>
      let next : StepM (Option Value) := do
        onMachine (Machine.tick budget)
        execute p act.temps stmt
        return none
      next ⟨machine, { act with rest } :: callers⟩

/-- Steps until the outermost activation returns. -/
def loop (p : LinearProgram) (budget : Option Nat) : Nat → StepM Value
  | 0 => throw .unfinished
  | fuel + 1 => do
    match ← step p budget with
    | some v => return v
    | none => loop p budget fuel

/-- The function that a failure is blamed on: the one that was running. -/
def State.running (s : State) (entry : String) : String :=
  match s.stack with
  | [] => entry
  | act :: _ => act.chunk.frame.label

/-- Calls a chunk from outside, with a static link and parameters of zero. -/
def invoke (p : LinearProgram) (budget : Option Nat) (fuel : Nat) (label : String) :
    EStateM (Halt Crash) Machine Value := fun machine =>
  match p.chunk? label with
  | none => .error (.fault ⟨label, .unknownFunction label⟩) machine
  | some chunk =>
    match Machine.zeroArguments chunk.frame.parameterCount with
    | .error o => .error (.overflow o) machine
    | .ok args =>
      let body : StepM Value := do
        call p label args none
        loop p budget fuel
      match body ⟨machine, []⟩ with
      | .ok v s => .ok v s.machine
      | .error h s => .error (h.blame (s.running label)) s.machine

/-- Reserves static data, runs the global initializers and then the entry function. -/
def run (p : LinearProgram) (budget : Option Nat) (fuel : Nat) :
    EStateM (Halt Crash) Machine Outcome := do
  fun machine =>
    match Machine.onMemory (Memory.allocateGlobals p.globals) machine with
    | .ok () machine => .ok () machine
    | .error h machine => .error (h.blame Frame.initLabel) machine
  let _ ← invoke p budget fuel Frame.initLabel
  let value ← invoke p budget fuel p.entry
  return { value, steps := (← get).steps }

end PinsBackend.Linear
