import PinsBackend.Fault

/-! Operators on words. Integer arithmetic wraps at 64 bits, division goes toward zero, and strings
are ordered by code points. -/
namespace PinsBackend

namespace Value

def asInt : Value → Except Fault Int64
  | .int n => .ok n
  | .str _ => .error (.malformed (.integerExpected .string))

def isTruthy (v : Value) : Except Fault Bool :=
  (· != 0) <$> v.asInt

/-- The order of two words of one kind. -/
def order : Value → Value → Except Fault Ordering
  | .int a, .int b => .ok (compare a b)
  | .str a, .str b => .ok (compare a b)
  | a, b => .error (.malformed (.incomparable a.kind b.kind))

/-- The bounds check of an array index. -/
def checkIndex (length : Int) (index : Value) : Except Fault Value := do
  let i ← index.asInt
  if i.toInt < 0 ∨ length ≤ i.toInt then
    .error (.indexOutOfBounds i.toInt length)
  else
    .ok (.int i)

end Value

namespace Ir.BinOp

/-- Whether a comparison holds of two words in this order; no comparison holds of an arithmetic
operator. -/
def holds : BinOp → Ordering → Bool
  | .eq, o => o == .eq
  | .ne, o => o != .eq
  | .lt, o => o == .lt
  | .le, o => o != .gt
  | .gt, o => o == .gt
  | .ge, o => o != .lt
  | _, _ => false

/-- The result of an arithmetic operator; a comparison has none. -/
def compute : BinOp → Int64 → Int64 → Except Fault Int64
  | .add, a, b => .ok (a + b)
  | .sub, a, b => .ok (a - b)
  | .mul, a, b => .ok (a * b)
  | .div, a, b => if b = 0 then .error .divisionByZero else .ok (a / b)
  | .mod, a, b => if b = 0 then .error .divisionByZero else .ok (a % b)
  | _, _, _ => .ok 0

def apply (op : BinOp) (left right : Value) : Except Fault Value :=
  if op.isComparison then do
    return .logical (op.holds (← left.order right))
  else do
    let a ← left.asInt
    let b ← right.asInt
    return .int (← op.compute a b)

end Ir.BinOp
end PinsBackend
