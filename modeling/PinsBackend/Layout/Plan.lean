import PinsBackend.Layout.Frame
import PinsBackend.Names.Resolution
import PinsBackend.Typing.Check

/-! The layout of a program.

Globals get static storage. Every other variable gets a place in the frame of the function that
directly holds its block, and every name reference gets the way from its own function to that frame.
The pass expects a tree without name and type errors; whatever it meets that such a tree cannot have
is an error of its own. -/
namespace PinsBackend

inductive LayoutError where
  | notExpression (id : NodeId)
  /-- A placeholder of parser recovery. -/
  | placeholder (id : NodeId)
  | unboundName (id : NodeId)
  | noStorage (decl : NodeId)
  | noAccess (decl : NodeId)
  | noType (decl : NodeId)
  | deeperFrame (id : NodeId) (owner here : Nat)
  | nonLocalDecl (decl : NodeId)
  | repeatedLabel (label : String)
  | overflow (o : Overflow)
  deriving DecidableEq, Repr

namespace LayoutError

def cause : LayoutError → String
  | .notExpression id => id.text ++ " is not an expression"
  | .placeholder id => "parse-error placeholder " ++ id.text ++ " reached frame evaluation"
  | .unboundName id => "name reference " ++ id.text ++ " is not bound to a declaration"
  | .noStorage decl => "declaration " ++ decl.text ++ " has no storage"
  | .noAccess decl => "declaration " ++ decl.text ++ " has no access"
  | .noType decl => "declaration " ++ decl.text ++ " has no type"
  | .deeperFrame id owner here =>
    id.text ++ " refers to a deeper frame (" ++ toString owner ++ " > " ++ toString here ++ ")"
  | .nonLocalDecl decl => "declaration " ++ decl.text ++ " has a non-local access"
  | .repeatedLabel label => "code label `" ++ label ++ "` assigned twice"
  | .overflow o => o.message

def message : LayoutError → String
  | .overflow o => o.message
  | e => "frame evaluation invariant violated: " ++ e.cause

end LayoutError

namespace Layout

open Syntax

/-- A layout in the making. -/
structure Plan where
  layout : Layout := {}
  /-- The depth of the function that owns each variable; globals are at depth 0. -/
  owners : Std.TreeMap NodeId Nat := {}
  /-- The frame of the function that is being read. -/
  frame : Frame := .initial
  /-- Nested functions met so far. -/
  nested : Nat := 0
  /-- Code labels given out so far. -/
  labels : List String := [Frame.initLabel]

abbrev PlanM := EStateM LayoutError Plan

structure Context where
  bindings : NodeTable Binding
  types : NodeTable Ty

def checked {α : Type} (x : Except Overflow α) : PlanM α := fun plan =>
  match x with
  | .ok a => .ok a plan
  | .error o => .error (.overflow o) plan

def wordsOf (ctx : Context) (decl : NodeId) : PlanM Int :=
  match ctx.types.get? decl with
  | some type => checked type.sizeInWords
  | none => throw (.noType decl)

/-- Gives a variable its place and its owner. -/
def place (decl : NodeId) (owner : Nat) (access : Access) : PlanM Unit :=
  modify fun plan =>
    { plan with
      owners := plan.owners.insert decl owner
      layout := { plan.layout with accesses := plan.layout.accesses.insert decl access } }

/-- Static storage for the variables of the top level. -/
def placeGlobals (ctx : Context) : List Decl → PlanM Unit
  | [] => pure ()
  | .var site name _ _ :: ds => do
    let size ← checked (Word.mul (← wordsOf ctx site.id) Word.bytes)
    modify fun plan =>
      { plan with
        layout := { plan.layout with globals := plan.layout.globals ++ [{ label := name, size }] } }
    place site.id 0 (.global name)
    placeGlobals ctx ds
  | _ :: ds => placeGlobals ctx ds

/-- Room in the current frame for the variables of a scoped block. -/
def placeLocals (ctx : Context) (depth : Nat) : List Decl → PlanM Unit
  | [] => pure ()
  | .var site _ _ _ :: ds => do
    let words ← wordsOf ctx site.id
    let (offset, frame) ← checked ((← get).frame.allocate words)
    modify fun plan => { plan with frame }
    place site.id depth (.here offset)
    placeLocals ctx depth ds
  | _ :: ds => placeLocals ctx depth ds

/-- The places of parameters, from this index on. -/
def placeParameters (depth index : Nat) : List Decl → PlanM Unit
  | [] => pure ()
  | d :: ds => do
    place d.id depth (.here (← checked (Frame.parameterOffset index)))
    placeParameters depth (index + 1) ds

/-- The label of a function's code: its own name at the top level, a numbered one below. -/
def label (depth : Nat) (name : String) : PlanM String := do
  if depth = 1 then
    return name
  else
    modify fun plan => { plan with nested := plan.nested + 1 }
    return "L" ++ toString (← get).nested ++ "." ++ name

def reserveLabel (label : String) : PlanM Unit := do
  if label ∈ (← get).labels then
    throw (.repeatedLabel label)
  else
    modify fun plan => { plan with labels := label :: plan.labels }

/-- How code at depth `here` reaches the variable `decl` of a function at depth `owner`. -/
def reach (id decl : NodeId) (here owner : Nat) : Access → Except LayoutError Access
  | .global label => .ok (.global label)
  | .here offset =>
    if here < owner then .error (.deeperFrame id owner here)
    else if here = owner then .ok (.here offset)
    else .ok (.outer (here - owner) offset)
  | .outer _ _ => .error (.nonLocalDecl decl)

/-- The access of a name reference. -/
def nameRef (ctx : Context) (id : NodeId) : PlanM Unit := do
  match ctx.bindings.get? id with
  | some (.decl decl) =>
    let plan ← get
    match plan.owners[decl]?, plan.layout.accesses.get? decl with
    | none, _ => throw (.noStorage decl)
    | some _, none => throw (.noAccess decl)
    | some owner, some access =>
      match reach id decl plan.frame.depth owner access with
      | .error e => throw e
      | .ok access =>
        set { plan with
              layout := { plan.layout with accesses := plan.layout.accesses.insert id access } }
  | _ => throw (.unboundName id)

mutual

def expr (ctx : Context) : Expr → PlanM Unit
  | .absent site => throw (.notExpression site.id)
  | .hole site => throw (.placeholder site.id)
  | .literal _ _ => pure ()
  | .name site _ => nameRef ctx site.id
  | .unary _ _ e => expr ctx e
  | .binary _ _ l r => do
    expr ctx l
    expr ctx r
  | .call _ _ args => exprs ctx args
  | .block _ items => exprs ctx items
  | .ifThen _ c t => do
    expr ctx c
    expr ctx t
  | .ifElse _ c t e => do
    expr ctx c
    expr ctx t
    expr ctx e
  | .whileDo _ c body => do
    expr ctx c
    expr ctx body
  | .forDo _ counter low high step body => do
    expr ctx counter
    expr ctx low
    expr ctx high
    expr ctx step
    expr ctx body
  | .scoped _ ds body => do
    let depth := (← get).frame.depth
    placeLocals ctx depth ds
    decls ctx (depth + 1) ds
    expr ctx body
  | .assign _ target value => do
    expr ctx target
    expr ctx value

def exprs (ctx : Context) : List Expr → PlanM Unit
  | [] => pure ()
  | e :: es => do
    expr ctx e
    exprs ctx es

/-- The initializer of a variable, or a function at this depth. -/
def decl (ctx : Context) (depth : Nat) : Decl → PlanM Unit
  | .var _ _ _ (some init) => expr ctx init
  | .function site name params _ body => do
    let label ← label depth name
    reserveLabel label
    placeParameters depth 0 params
    let outer := (← get).frame
    let frame ← checked (Frame.create label depth params.length)
    modify fun plan => { plan with frame }
    expr ctx body
    modify fun plan =>
      { plan with
        frame := outer
        layout := { plan.layout with frames := plan.layout.frames.insert site.id plan.frame } }
  | _ => pure ()

def decls (ctx : Context) (depth : Nat) : List Decl → PlanM Unit
  | [] => pure ()
  | d :: ds => do
    decl ctx depth d
    decls ctx depth ds

end

/-- The layout of the declarations of a program. Global initializers run in a frame of their
own, at the depth of the top-level functions. -/
def program (ctx : Context) (definitions : List Decl) : PlanM Unit := do
  placeGlobals ctx definitions
  decls ctx 1 (definitions.filter Decl.isVar)
  modify fun plan => { plan with layout := { plan.layout with init := plan.frame } }
  decls ctx 1 (definitions.filter Decl.isFunction)

end Layout

/-- The layout of a program that is bound and typed. -/
def Syntax.Source.layout (source : Syntax.Source) (bindings : NodeTable Binding)
    (types : NodeTable Ty) : Except LayoutError Layout :=
  match Layout.program { bindings, types } source.definitions {} with
  | .ok () plan => .ok plan.layout
  | .error e _ => .error e

end PinsBackend
