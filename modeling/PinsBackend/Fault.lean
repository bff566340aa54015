import PinsBackend.Ir.Text
import PinsBackend.Word

/-! Why a running program stops before it has a result. -/
namespace PinsBackend

/-- Code or words of a shape that cannot be executed. -/
inductive Malformation where
  | integerExpected (found : Value.Kind)
  | stringExpected (found : Value.Kind)
  | incomparable (left right : Value.Kind)
  /-- A built-in with the wrong number of arguments. -/
  | builtinArity (name : String) (expected given : Nat)
  /-- A call with the wrong number of argument words, the static link included. -/
  | callArity (label : String) (given expected : Nat)
  | unknownData (label : String)
  | framePointerWritten
  | noActiveCall
  /-- A move whose destination is neither a temporary nor a memory word. -/
  | notLocation (dst : Ir.Expr)
  | nonCanonicalStmt (s : Ir.Stmt)
  | nonCanonicalExpr (e : Ir.Expr)
  deriving DecidableEq

def Malformation.message : Malformation → String
  | .integerExpected found => "expected integer, found " ++ found.text
  | .stringExpected found => "print_str expects a string, found " ++ found.text
  | .incomparable left right => "cannot compare " ++ left.text ++ " with " ++ right.text
  | .builtinArity name expected given =>
    "`" ++ name ++ "` takes " ++ toString expected ++ " argument(s), got " ++ toString given
  | .callArity label given expected =>
    "`" ++ label ++ "` called with " ++ toString given ++ " argument word(s), expected " ++
      toString expected
  | .unknownData label => "unknown data label `" ++ label ++ "`"
  | .framePointerWritten => "the frame pointer is not writable"
  | .noActiveCall => "no active call"
  | .notLocation dst => "move into a non-location " ++ dst.text
  | .nonCanonicalStmt s => "non-canonical statement " ++ s.text
  | .nonCanonicalExpr e => "non-canonical expression " ++ e.text

inductive Fault where
  | divisionByZero
  /-- Static data does not fit. -/
  | outOfMemory (requested available : Int)
  /-- The stack would grow into static data, or calls are nested too deep. -/
  | stackOverflow (stackPointer : Int)
  | indexOutOfBounds (index length : Int)
  /-- An address outside memory, or not on a word boundary. -/
  | invalidAddress (address : Int)
  /-- A call to a label that is neither code nor a built-in. -/
  | unknownFunction (label : String)
  | undefinedLabel (label : String)
  | malformed (m : Malformation)
  /-- The step budget is used up. -/
  | timeout (steps : Nat)
  /-- The output stream refused a text. -/
  | output (reason : String)
  deriving DecidableEq

def Fault.message : Fault → String
  | .divisionByZero => "division by zero"
  | .outOfMemory requested available =>
    "out of memory: " ++ toString requested ++ " bytes requested, " ++ toString available ++
      " available"
  | .stackOverflow sp => "stack overflow (stack pointer " ++ toString sp ++ ")"
  | .indexOutOfBounds index length =>
    "array index " ++ toString index ++ " out of bounds for length " ++ toString length
  | .invalidAddress address => "invalid memory address " ++ toString address
  | .unknownFunction label => "unknown function `" ++ label ++ "`"
  | .undefinedLabel label => "jump to undefined label `" ++ label ++ "`"
  | .malformed m => "malformed IR: " ++ m.message
  | .timeout steps => "execution timed out after " ++ toString steps ++ " steps"
  | .output reason => "output error: " ++ reason

/-- Why a computation ended without a result. -/
inductive Halt (φ : Type) where
  | fault (f : φ)
  /-- A size does not fit a machine word. -/
  | overflow (o : Overflow)
  /-- The fuel given to the computation was not enough; a larger amount may do. -/
  | unfinished
  deriving DecidableEq

/-- A fault with the label of the function that was running. -/
structure Crash where
  function : String
  fault : Fault
  deriving DecidableEq

def Crash.message (c : Crash) : String :=
  "runtime error in `" ++ c.function ++ "`: " ++ c.fault.message

def Halt.blame (function : String) : Halt Fault → Halt Crash
  | .fault f => .fault { function, fault := f }
  | .overflow o => .overflow o
  | .unfinished => .unfinished

end PinsBackend
