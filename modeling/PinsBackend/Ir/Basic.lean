import PinsBackend.Value

/-! Intermediate code.

Tree code lets a statement stand inside an expression (`eseq`) and a call stand anywhere. Linear
code is a list of statements in which a call is the whole source of a move into a temporary or the
whole of an `eval`. Both are made of the same expressions and statements. -/
namespace PinsBackend.Ir

/-- A virtual register, local to one activation. -/
abbrev Temp := Nat

namespace Temp

/-- Reads the frame pointer of the running activation; it cannot be written. -/
def fp : Temp := 0

/-- Holds the result when a function returns. -/
def rv : Temp := 1

/-- The first temporary that code generation may take. -/
def firstFree : Temp := 2

/-- The greatest number a temporary can have. -/
def last : Temp := 4294967295

def text (t : Temp) : String :=
  if t = fp then "FP" else if t = rv then "RV" else "T" ++ toString t

end Temp

inductive BinOp where
  | add
  | sub
  | mul
  | div
  | mod
  | eq
  | ne
  | lt
  | le
  | gt
  | ge
  deriving DecidableEq, Repr

def BinOp.isComparison : BinOp → Bool
  | .eq | .ne | .lt | .le | .gt | .ge => true
  | _ => false

/-- Operators that fault on a zero divisor. -/
def BinOp.mayTrap : BinOp → Bool
  | .div | .mod => true
  | _ => false

mutual

inductive Expr where
  | const (v : Value)
  /-- The address of static data. -/
  | data (label : String)
  | temp (t : Temp)
  /-- The word at a byte address. -/
  | mem (address : Expr)
  | binop (op : BinOp) (left right : Expr)
  /-- A call; the first argument is the static link. -/
  | call (label : String) (args : List Expr)
  /-- Runs the statement, then gives the expression's value. -/
  | eseq (stmt : Stmt) (expr : Expr)
  /-- The index if it lies in `0 ≤ index < length`, and a fault otherwise. -/
  | checkIndex (index : Expr) (length : Int)

inductive Stmt where
  /-- Puts the source into a temporary or a memory word. -/
  | move (dst src : Expr)
  | eval (e : Expr)
  | jump (label : String)
  | cjump (cond : Expr) (ifTrue ifFalse : String)
  | label (name : String)
  /-- Statements in order; the empty sequence does nothing. -/
  | seq (stmts : List Stmt)

end

instance : Inhabited Expr := ⟨.const default⟩
instance : Inhabited Stmt := ⟨.seq []⟩

mutual

def Expr.beq : Expr → Expr → Bool
  | .const v, .const w => v == w
  | .data l, .data k => l == k
  | .temp t, .temp u => t == u
  | .mem a, .mem b => a.beq b
  | .binop op l r, .binop op' l' r' => op == op' && l.beq l' && r.beq r'
  | .call l as, .call k bs => l == k && Expr.beqList as bs
  | .eseq s e, .eseq s' e' => s.beq s' && e.beq e'
  | .checkIndex i n, .checkIndex j m => i.beq j && n == m
  | _, _ => false

def Expr.beqList : List Expr → List Expr → Bool
  | [], [] => true
  | a :: as, b :: bs => a.beq b && Expr.beqList as bs
  | _, _ => false

def Stmt.beq : Stmt → Stmt → Bool
  | .move d s, .move d' s' => d.beq d' && s.beq s'
  | .eval e, .eval e' => e.beq e'
  | .jump l, .jump k => l == k
  | .cjump c a b, .cjump c' a' b' => c.beq c' && a == a' && b == b'
  | .label l, .label k => l == k
  | .seq ss, .seq ts => Stmt.beqList ss ts
  | _, _ => false

def Stmt.beqList : List Stmt → List Stmt → Bool
  | [], [] => true
  | a :: as, b :: bs => a.beq b && Stmt.beqList as bs
  | _, _ => false

end

mutual

theorem Expr.beq_iff : (a b : Expr) → (a.beq b = true ↔ a = b)
  | .const _, b => by cases b <;> simp [Expr.beq]
  | .data _, b => by cases b <;> simp [Expr.beq]
  | .temp _, b => by cases b <;> simp [Expr.beq]
  | .mem a, b => by cases b <;> simp [Expr.beq, Expr.beq_iff a]
  | .binop _ l r, b => by
    cases b <;> simp [Expr.beq, Expr.beq_iff l, Expr.beq_iff r, and_assoc]
  | .call _ as, b => by cases b <;> simp [Expr.beq, Expr.beqList_iff as]
  | .eseq s e, b => by cases b <;> simp [Expr.beq, Stmt.beq_iff s, Expr.beq_iff e]
  | .checkIndex i _, b => by cases b <;> simp [Expr.beq, Expr.beq_iff i]

theorem Expr.beqList_iff : (as bs : List Expr) → (Expr.beqList as bs = true ↔ as = bs)
  | [], bs => by cases bs <;> simp [Expr.beqList]
  | a :: as, bs => by cases bs <;> simp [Expr.beqList, Expr.beq_iff a, Expr.beqList_iff as]

theorem Stmt.beq_iff : (a b : Stmt) → (a.beq b = true ↔ a = b)
  | .move d s, b => by cases b <;> simp [Stmt.beq, Expr.beq_iff d, Expr.beq_iff s]
  | .eval e, b => by cases b <;> simp [Stmt.beq, Expr.beq_iff e]
  | .jump _, b => by cases b <;> simp [Stmt.beq]
  | .cjump c _ _, b => by cases b <;> simp [Stmt.beq, Expr.beq_iff c, and_assoc]
  | .label _, b => by cases b <;> simp [Stmt.beq]
  | .seq ss, b => by cases b <;> simp [Stmt.beq, Stmt.beqList_iff ss]

theorem Stmt.beqList_iff : (as bs : List Stmt) → (Stmt.beqList as bs = true ↔ as = bs)
  | [], bs => by cases bs <;> simp [Stmt.beqList]
  | a :: as, bs => by cases bs <;> simp [Stmt.beqList, Stmt.beq_iff a, Stmt.beqList_iff as]

end

instance : DecidableEq Expr := fun a b => decidable_of_iff _ (Expr.beq_iff a b)
instance : DecidableEq Stmt := fun a b => decidable_of_iff _ (Stmt.beq_iff a b)

def Expr.int (n : Int) : Expr := .const (Value.ofInt n)

/-- Constants, data labels and temporaries: nothing to evaluate and no effect. -/
def Expr.isLeaf : Expr → Bool
  | .const _ | .data _ | .temp _ => true
  | _ => false

/-- The statement that does nothing. -/
def Stmt.nop : Stmt := .seq []

mutual

/-- Holds of a sequence that has no statement in it, however nested. -/
def Stmt.isNop : Stmt → Bool
  | .seq ss => Stmt.allNop ss
  | _ => false

def Stmt.allNop : List Stmt → Bool
  | [] => true
  | s :: ss => s.isNop && Stmt.allNop ss

end

mutual

/-- The statements of a sequence, with every nested sequence opened. -/
def Stmt.flatten : Stmt → List Stmt
  | .seq ss => Stmt.flattenList ss
  | s => [s]

def Stmt.flattenList : List Stmt → List Stmt
  | [] => []
  | s :: ss => s.flatten ++ Stmt.flattenList ss

end

/-- `first` and then `second`, without the one that does nothing. -/
def Stmt.andThen (first second : Stmt) : Stmt :=
  if first.isNop then second else if second.isNop then first else .seq [first, second]

/-- `stmt` and then the value of `expr`; a statement that does nothing is left out. -/
def Expr.after (stmt : Stmt) (expr : Expr) : Expr :=
  if stmt.isNop then expr else .eseq stmt expr

def Stmt.isLabel (name : String) : Stmt → Bool
  | .label l => l == name
  | _ => false

end PinsBackend.Ir
