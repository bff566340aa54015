/-! The parts of syntax that are the same in an arena and in a tree. -/
namespace PinsBackend

structure Location where
  line : Nat := 0
  column : Nat := 0
  deriving DecidableEq, Repr, Inhabited

/-- The span of a node in the source text. -/
structure Position where
  start : Location := {}
  stop : Location := {}
  deriving DecidableEq, Repr, Inhabited

namespace Position

def point (line column : Nat) : Position := ⟨⟨line, column⟩, ⟨line, column⟩⟩

def text (p : Position) : String := toString p.start.line ++ ":" ++ toString p.start.column

end Position

namespace Syntax

/-- The keywords of the atomic types. -/
inductive Atom where
  | logical
  | integer
  | string
  deriving DecidableEq, Repr

inductive Literal where
  | integer (n : Int64)
  | logical (b : Bool)
  | string (s : String)
  deriving DecidableEq, Repr

inductive UnaryOp where
  | plus
  | minus
  | not
  deriving DecidableEq, Repr

inductive BinaryOp where
  | add
  | sub
  | mul
  | div
  | mod
  | and
  | or
  | eq
  | neq
  | lt
  | gt
  | leq
  | geq
  | index
  deriving DecidableEq, Repr

namespace BinaryOp

def isArithmetic : BinaryOp → Bool
  | .add | .sub | .mul | .div | .mod => true
  | _ => false

/-- The operators that evaluate their right operand only if it decides the result. -/
def isLogical : BinaryOp → Bool
  | .and | .or => true
  | _ => false

def isComparison : BinaryOp → Bool
  | .eq | .neq | .lt | .gt | .leq | .geq => true
  | _ => false

def text : BinaryOp → String
  | .add => "+"
  | .sub => "-"
  | .mul => "*"
  | .div => "/"
  | .mod => "%"
  | .and => "&"
  | .or => "|"
  | .eq => "=="
  | .neq => "!="
  | .lt => "<"
  | .gt => ">"
  | .leq => "<="
  | .geq => ">="
  | .index => "[]"

end BinaryOp
end Syntax
end PinsBackend
