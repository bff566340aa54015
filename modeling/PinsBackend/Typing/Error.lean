import PinsBackend.Syntax.Basic
import PinsBackend.Ty

/-! What the type checker reports. -/
namespace PinsBackend

inductive TypeError where
  | mismatch (expected found : Ty) (position : Position)
  | arityMismatch (name : String) (expected found : Nat) (position : Position)
  | notIndexable (found : Ty) (position : Position)
  | notCallable (name : String) (position : Position)
  | notAssignable (found : Ty) (position : Position)
  /-- Functions return atomic values only. -/
  | invalidReturnType (name : String) (found : Ty) (position : Position)
  /-- Array types have at least one element. -/
  | invalidArrayLength (length : Int) (position : Position)
  | cyclicType (name : String) (position : Position)
  deriving DecidableEq

def TypeError.message : TypeError → String
  | .mismatch expected found position =>
    "type mismatch at " ++ position.text ++ ": expected " ++ expected.text ++ ", found " ++
      found.text
  | .arityMismatch name expected found position =>
    "`" ++ name ++ "` at " ++ position.text ++ " expects " ++ toString expected ++
      " argument(s), found " ++ toString found
  | .notIndexable found position =>
    "value of type " ++ found.text ++ " at " ++ position.text ++ " cannot be indexed"
  | .notCallable name position => "`" ++ name ++ "` at " ++ position.text ++ " is not a function"
  | .notAssignable found position =>
    "cannot assign a value of type " ++ found.text ++ " at " ++ position.text
  | .invalidReturnType name found position =>
    "function `" ++ name ++ "` at " ++ position.text ++ " cannot return a value of type " ++
      found.text
  | .invalidArrayLength length position =>
    "array length " ++ toString length ++ " at " ++ position.text ++ " is not positive"
  | .cyclicType name position =>
    "type `" ++ name ++ "` at " ++ position.text ++ " is defined in terms of itself"

end PinsBackend
