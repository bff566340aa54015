import PinsBackend.Ir.Code
import PinsBackend.Ir.Error

/-! From tree code to linear code.

Every nested statement is lifted out of its expression and every call gets a statement of its own,
in evaluation order. An operand that a lifted statement would overtake is first saved in a fresh
temporary, unless the two commute. -/
namespace PinsBackend.Ir

namespace Canonical

/-- Splitting code, with the next free temporary. -/
abbrev SplitM := EStateM IrError Temp

def fresh : SplitM Temp := fun next =>
  if next < Temp.last then .ok next (next + 1) else .error (.overflow .add) next

/-- Puts the statement `after` behind an operand that was split before it. The operand keeps its
place if `after` commutes with what is left of it, and is saved in a temporary otherwise. -/
def keep (operand : Stmt × Expr) (after : Stmt) : SplitM (Stmt × Expr) :=
  if commutes after operand.2 then
    pure (operand.1.andThen after, operand.2)
  else do
    let t ← fresh
    pure (operand.1.andThen ((Stmt.move (.temp t) operand.2).andThen after), .temp t)

/-- One statement that runs what all the operands need, from left to right, and the operands. -/
def keepAll : List (Stmt × Expr) → SplitM (Stmt × List Expr)
  | [] => pure (.nop, [])
  | operand :: rest => do
    let (after, values) ← keepAll rest
    let (before, value) ← keep operand after
    pure (before, value :: values)

def keepBoth (left right : Stmt × Expr) : SplitM (Stmt × Expr × Expr) := do
  let (after, r) ← keep right .nop
  let (before, l) ← keep left after
  pure (before, l, r)

mutual

/-- Splits an expression into the statement it needs and a remainder without statements. With
`whole` a call may stay in place, for the caller puts it directly under a move or an `eval`. -/
def expr (whole : Bool) : Expr → SplitM (Stmt × Expr)
  | .const v => pure (.nop, .const v)
  | .data l => pure (.nop, .data l)
  | .temp t => pure (.nop, .temp t)
  | .mem a => do
    let (s, a) ← keep (← expr false a) .nop
    pure (s, .mem a)
  | .checkIndex i n => do
    let (s, i) ← keep (← expr false i) .nop
    pure (s, .checkIndex i n)
  | .binop op l r => do
    let left ← expr false l
    let right ← expr false r
    let (s, l, r) ← keepBoth left right
    pure (s, .binop op l r)
  | .call label args => do
    let (s, args) ← keepAll (← exprs args)
    if whole then
      pure (s, .call label args)
    else
      let t ← fresh
      pure (s.andThen (.move (.temp t) (.call label args)), .temp t)
  | .eseq st e => do
    let before ← stmt st
    let (s, e) ← expr whole e
    pure (before.andThen s, e)

def exprs : List Expr → SplitM (List (Stmt × Expr))
  | [] => pure []
  | e :: es => do
    let first ← expr false e
    let rest ← exprs es
    pure (first :: rest)

def stmt : Stmt → SplitM Stmt
  | .seq ss => do return .seq (← stmts ss)
  | .jump l => pure (.jump l)
  | .label l => pure (.label l)
  | .cjump c ifTrue ifFalse => do
    let (s, c) ← expr false c
    pure (s.andThen (.cjump c ifTrue ifFalse))
  | .move dst src => move (expr true src) (expr false src) dst
  | .eval e => do
    let (s, e) ← expr true e
    pure (if e.isLeaf then s else s.andThen (.eval e))

def stmts : List Stmt → SplitM (List Stmt)
  | [] => pure []
  | s :: ss => do
    let first ← stmt s
    let rest ← stmts ss
    pure (first :: rest)

/-- A move, by its destination. `call` splits the source where a call may stay and `value` where
it may not. -/
def move (call value : SplitM (Stmt × Expr)) : Expr → SplitM Stmt
  | .temp t => do
    let (s, src) ← call
    pure (s.andThen (.move (.temp t) src))
  | .mem a => do
    let address ← expr false a
    let source ← value
    let (s, a, src) ← keepBoth address source
    pure (s.andThen (.move (.mem a) src))
  | .eseq st e => do
    let before ← stmt st
    let rest ← move call value e
    pure (.seq [before, rest])
  | dst => throw (.notLocation dst)

end

/-- A temporary above all that the statement mentions. -/
def firstFree (body : Stmt) : Except IrError Temp :=
  match body.maxTemp? with
  | none => .ok Temp.firstFree
  | some t => if t < Temp.last then .ok (max (t + 1) Temp.firstFree) else .error (.overflow .add)

/-- An `eval` of a leaf, which does nothing. -/
def isIdle : Stmt → Bool
  | .eval e => e.isLeaf
  | _ => false

/-- The linear form of a statement. -/
def linearize (body : Stmt) : Except IrError (List Stmt) := do
  match stmt body (← firstFree body) with
  | .ok split _ => .ok (split.flatten.filter fun s => !isIdle s)
  | .error e _ => .error e

end Canonical

/-- Linear code for one function. -/
def Chunk.canonical (c : Chunk Stmt) : Except IrError (Chunk (List Stmt)) := do
  return { frame := c.frame, body := ← Canonical.linearize c.body }

/-- The linear form of linear code, as if it were tree code. -/
def Chunk.recanonical (c : Chunk (List Stmt)) : Except IrError (Chunk (List Stmt)) := do
  return { frame := c.frame, body := ← Canonical.linearize (.seq c.body) }

/-- Linear code for a whole program. -/
def TreeProgram.canonical (p : TreeProgram) : Except IrError LinearProgram := do
  let init ← p.init.canonical
  let chunks ← p.chunks.mapM Chunk.canonical
  return { chunks, globals := p.globals, init, entry := p.entry }

end PinsBackend.Ir
