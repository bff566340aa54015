import PinsBackend.Ir.Text
import PinsBackend.NodeTable
import PinsBackend.Word

/-! Why a program has no code: a defect that an earlier pass let through, or a size that does not
fit a machine word. -/
namespace PinsBackend

inductive IrError where
  | notExpression (id : NodeId)
  /-- A placeholder of parser recovery. -/
  | placeholder (id : NodeId)
  | functionWithoutFrame (id : NodeId)
  | calleeWithoutFrame (id : NodeId)
  | unboundCall (id : NodeId)
  | noAccess (id : NodeId)
  | noType (id : NodeId)
  | notArray (id : NodeId)
  | notAssignable (id : NodeId)
  /-- A call from one depth into a depth that it cannot see. -/
  | unreachableDepth (here callee : Nat)
  /-- A move whose destination is neither a temporary nor a memory word. -/
  | notLocation (dst : Ir.Expr)
  | stoppedEarly
  | overflow (o : Overflow)
  deriving DecidableEq

namespace IrError

def cause : IrError → String
  | .notExpression id => id.text ++ " is not an expression"
  | .placeholder id => "parse-error placeholder " ++ id.text ++ " reached code generation"
  | .functionWithoutFrame id => "function " ++ id.text ++ " has no frame"
  | .calleeWithoutFrame id => "callee " ++ id.text ++ " has no frame"
  | .unboundCall id => "call " ++ id.text ++ " is not bound"
  | .noAccess id => "node " ++ id.text ++ " has no access"
  | .noType id => "node " ++ id.text ++ " has no type"
  | .notArray id => "indexed node " ++ id.text ++ " is not an array"
  | .notAssignable id => "node " ++ id.text ++ " is not assignable"
  | .unreachableDepth here callee =>
    "call from depth " ++ toString here ++ " into depth " ++ toString callee
  | .notLocation dst => "move into a non-location " ++ dst.text
  | .stoppedEarly => "execution requested but compilation stopped before producing IR"
  | .overflow o => o.message

def message : IrError → String
  | .overflow o => o.message
  | e => "IR invariant violated: " ++ e.cause

end IrError
end PinsBackend
