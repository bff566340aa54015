import PinsBackend.Ir.Canonical
import PinsBackend.Ir.Lowering
import PinsBackend.Layout.Plan
import PinsBackend.Machine.Linear
import PinsBackend.Machine.Nested

/-! From a parsed program to its code and its result.

Name and type errors are gathered and reported together; a program that has any gets no layout and
no code. What the stages produced stays available, whether or not a later one fails. -/
namespace PinsBackend

/-- The stages in their order. -/
inductive Phase where
  | parsed
  | names
  | types
  | frames
  | ir
  | canonical
  | execute
  deriving DecidableEq, Repr

structure Options where
  memoryWords : Nat := 65536
  /-- The last stage to run. -/
  stopAfter : Phase := .execute
  /-- The function that starts the program. -/
  entry : String := "main"
  maxSteps : Option Nat := none
  /-- How deep calls may nest when tree code is evaluated. -/
  maxCallDepth : Nat := 1024
  deriving DecidableEq, Repr

/-- The release of the compiler. -/
def version : String := "1.0.0"

inductive Diagnostic where
  | parse (e : SyntaxError)
  | name (e : NameError)
  | type (e : TypeError)
  deriving DecidableEq

def Diagnostic.message : Diagnostic → String
  | .parse e => e.text
  | .name e => e.message
  | .type e => e.message

def Diagnostic.isName : Diagnostic → Bool
  | .name _ => true
  | _ => false

def Diagnostic.isType : Diagnostic → Bool
  | .type _ => true
  | _ => false

inductive CompileError where
  /-- The program is wrong, in these ways. -/
  | diagnostics (ds : List Diagnostic)
  | layout (e : LayoutError)
  | ir (e : IrError)
  deriving DecidableEq

def CompileError.message : CompileError → String
  | .diagnostics ds =>
    "compilation failed with " ++ toString ds.length ++ " error(s):\n" ++
      "\n".intercalate (ds.map Diagnostic.message)
  | .layout e => e.message
  | .ir e => e.message

/-- What the stages that ran have produced. -/
structure Compilation where
  bindings : Option (NodeTable Binding) := none
  types : Option (NodeTable Ty) := none
  layout : Option Layout := none
  tree : Option Ir.TreeProgram := none
  linear : Option Ir.LinearProgram := none

namespace Compilation

abbrev CompileM := EStateM CompileError Compilation

def lift {α ε : Type} (wrap : ε → CompileError) (x : Except ε α) : CompileM α := fun c =>
  match x with
  | .ok a => .ok a c
  | .error e => .error (wrap e) c

/-- Fails if there is anything to report. -/
def finish (ds : List Diagnostic) : CompileM Unit :=
  if ds.isEmpty then pure () else throw (.diagnostics ds)

/-- Runs the stages up to the last one asked for. Types are checked even if names are wrong. -/
def stages (options : Options) (parsed : Parsed) : CompileM Unit := do
  let stop := options.stopAfter
  let parseErrors := parsed.errors.map Diagnostic.parse
  if stop = .parsed then
    finish parseErrors
  else
    let source := parsed.arena.source
    let resolution := source.resolve
    let nameErrors := parseErrors ++ resolution.errors.map Diagnostic.name
    modify fun c => { c with bindings := some resolution.bindings }
    if stop = .names then
      finish nameErrors
    else
      let typing := source.check resolution.bindings
      modify fun c => { c with types := some typing.types }
      finish (nameErrors ++ typing.errors.toList.map Diagnostic.type)
      if stop = .types then
        pure ()
      else
        let layout ← lift .layout (source.layout resolution.bindings typing.types)
        modify fun c => { c with layout := some layout }
        if stop = .frames then
          pure ()
        else
          let tree ← lift .ir
            (source.lower resolution.bindings typing.types layout options.entry)
          modify fun c => { c with tree := some tree }
          if stop = .ir then
            pure ()
          else
            let linear ← lift .ir tree.canonical
            modify fun c => { c with linear := some linear }

end Compilation

/-- Compiles a program; a failure comes with what was produced before it. -/
def Parsed.compile (parsed : Parsed) (options : Options) :
    EStateM.Result CompileError Compilation Unit :=
  Compilation.stages options parsed {}

/-- Why a program has no result. -/
inductive Error where
  | compile (e : CompileError)
  | halt (h : Halt Crash)
  deriving DecidableEq

/-- A program that was compiled and run, or was given up: what was produced, the machine at the
end, and the result. -/
structure Execution where
  compilation : Compilation
  machine : Machine
  result : Except Error Outcome

namespace Execution

def ofRun (compilation : Compilation) :
    EStateM.Result (Halt Crash) Machine Outcome → Execution
  | .ok outcome machine => { compilation, machine, result := .ok outcome }
  | .error h machine => { compilation, machine, result := .error (.halt h) }

/-- Compiles a program and runs the code that `code` finds in the compilation. A program that does
not get to run leaves a machine without memory. -/
def of {β : Type} (parsed : Parsed) (options : Options) (sink : Sink)
    (code : Compilation → Option β) (run : β → EStateM (Halt Crash) Machine Outcome) : Execution :=
  let idle := Machine.create 0 sink
  match parsed.compile options with
  | .error e compilation => { compilation, machine := idle, result := .error (.compile e) }
  | .ok () compilation =>
    match code compilation with
    | none => { compilation, machine := idle, result := .error (.compile (.ir .stoppedEarly)) }
    | some program =>
      match Machine.start options.memoryWords sink with
      | .error o => { compilation, machine := idle, result := .error (.halt (.overflow o)) }
      | .ok machine => ofRun compilation (run program machine)

end Execution

/-- Compiles a program and runs its linear code. -/
def Parsed.execute (parsed : Parsed) (options : Options) (sink : Sink) (fuel : Nat) : Execution :=
  .of parsed options sink Compilation.linear fun p => Linear.run p options.maxSteps fuel

/-- Compiles a program and evaluates its tree code. -/
def Parsed.executeTree (parsed : Parsed) (options : Options) (sink : Sink) (fuel : Nat) :
    Execution :=
  .of parsed options sink Compilation.tree fun program =>
    Nested.run { program, maxCallDepth := options.maxCallDepth, budget := options.maxSteps } fuel

end PinsBackend
