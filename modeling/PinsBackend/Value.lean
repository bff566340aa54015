/-! The contents of one memory word or temporary.

Logical values are the integers 0 and 1, and addresses are integers too. -/
namespace PinsBackend

inductive Value where
  | int (n : Int64)
  | str (s : String)
  deriving DecidableEq, Repr

/-- What a word holds, as fault messages name it. -/
inductive Value.Kind where
  | integer
  | string
  deriving DecidableEq, Repr

def Value.Kind.text : Value.Kind → String
  | .integer => "integer"
  | .string => "string"

namespace Value

/-- The content of storage that was never written. -/
def zero : Value := .int 0

instance : Inhabited Value := ⟨zero⟩

def ofInt (n : Int) : Value := .int (Int64.ofInt n)

def logical (b : Bool) : Value := if b then .int 1 else .int 0

def kind : Value → Kind
  | .int _ => .integer
  | .str _ => .string

def text : Value → String
  | .int n => toString n.toInt
  | .str s => s

end Value
end PinsBackend
