import PinsBackend.Ir.Basic

/-! What running a piece of code may do.

`Expr.effects` and `Stmt.effects` over-approximate in one walk the calls, stores, faults, jumps and
temporaries of a piece of code. `commutes` decides from them whether a statement may run before an
expression that was written to its left. -/
namespace PinsBackend.Ir

structure Effects where
  /-- May call a function. -/
  call : Bool := false
  /-- May write memory; a callee may write anywhere. -/
  store : Bool := false
  /-- May fault on a divisor, on an index or inside a call. -/
  trap : Bool := false
  /-- May transfer control, and therefore loop. -/
  jump : Bool := false
  /-- Holds a statement inside an expression. -/
  nested : Bool := false
  /-- The temporaries read. -/
  reads : List Temp := []
  /-- The temporaries written. -/
  writes : List Temp := []
  deriving DecidableEq, Repr

namespace Effects

def union (a b : Effects) : Effects where
  call := a.call || b.call
  store := a.store || b.store
  trap := a.trap || b.trap
  jump := a.jump || b.jump
  nested := a.nested || b.nested
  reads := a.reads ++ b.reads
  writes := a.writes ++ b.writes

instance : Union Effects := ⟨union⟩

@[simp] theorem union_call (a b : Effects) : (a ∪ b).call = (a.call || b.call) := rfl
@[simp] theorem union_store (a b : Effects) : (a ∪ b).store = (a.store || b.store) := rfl
@[simp] theorem union_trap (a b : Effects) : (a ∪ b).trap = (a.trap || b.trap) := rfl
@[simp] theorem union_jump (a b : Effects) : (a ∪ b).jump = (a.jump || b.jump) := rfl
@[simp] theorem union_nested (a b : Effects) : (a ∪ b).nested = (a.nested || b.nested) := rfl
@[simp] theorem union_reads (a b : Effects) : (a ∪ b).reads = a.reads ++ b.reads := rfl
@[simp] theorem union_writes (a b : Effects) : (a ∪ b).writes = a.writes ++ b.writes := rfl

end Effects

mutual

def Expr.effects : Expr → Effects
  | .const _ | .data _ => {}
  | .temp t => { reads := [t] }
  | .mem a => a.effects
  | .binop op l r => l.effects ∪ r.effects ∪ { trap := op.mayTrap }
  | .call _ args => Expr.effectsList args ∪ { call := true, store := true, trap := true }
  | .eseq s e => s.effects ∪ e.effects ∪ { nested := true }
  | .checkIndex i _ => i.effects ∪ { trap := true }

def Expr.effectsList : List Expr → Effects
  | [] => {}
  | e :: es => e.effects ∪ Expr.effectsList es

def Stmt.effects : Stmt → Effects
  | .move (.temp t) src => { writes := [t] } ∪ src.effects
  | .move (.mem a) src => a.effects ∪ src.effects ∪ { store := true }
  | .move dst src => dst.effects ∪ src.effects
  | .eval e => e.effects
  | .jump _ => { jump := true }
  | .cjump c _ _ => c.effects ∪ { jump := true }
  | .label _ => {}
  | .seq ss => Stmt.effectsList ss

def Stmt.effectsList : List Stmt → Effects
  | [] => {}
  | s :: ss => s.effects ∪ Stmt.effectsList ss

end

/-- Temporaries by number, each once. -/
def Temp.ordered (ts : List Temp) : List Temp :=
  (ts.mergeSort (· ≤ ·)).eraseReps

/-- The greatest temporary that the statement mentions. -/
def Stmt.maxTemp? (s : Stmt) : Option Temp :=
  (s.effects.reads ++ s.effects.writes).max?

/-- Running `s` before the expression `e` changes neither the value of `e` nor which fault comes
first. A callee cannot touch the temporaries of its caller. -/
def commutes (s : Stmt) (e : Expr) : Bool :=
  s.isNop ||
  match e with
  | .const _ | .data _ => true
  | .temp t => !s.effects.writes.contains t
  | _ =>
    !(s.effects.call || s.effects.store || e.effects.call) &&
    !(e.effects.trap && (s.effects.trap || s.effects.jump)) &&
    s.effects.writes.all fun t => !e.effects.reads.contains t

/-- An expression without calls and without nested statements. -/
def Expr.isFlat (e : Expr) : Bool :=
  !e.effects.call && !e.effects.nested

def Expr.isFlatCall : Expr → Bool
  | .call _ args => args.all Expr.isFlat
  | _ => false

/-- The statements of linear code: calls stand directly under a move into a temporary or under an
`eval`, and every other expression is flat. -/
def Stmt.isCanonical : Stmt → Bool
  | .move (.temp _) src => src.isFlat || src.isFlatCall
  | .move (.mem a) src => a.isFlat && src.isFlat
  | .move _ _ => false
  | .eval e => e.isFlat || e.isFlatCall
  | .cjump c _ _ => c.isFlat
  | .jump _ | .label _ => true
  | .seq _ => false

end PinsBackend.Ir
