import PinsBackend.Ty

/-! The functions that every program can call and that the machine runs itself. They are declared in
a scope around the whole program and are typed and called like any other function. -/
namespace PinsBackend

inductive Builtin where
  | printInt
  | printStr
  | printLog
  | randInt
  | seed
  deriving DecidableEq, Repr

namespace Builtin

/-- In the order of their declarations. -/
def all : List Builtin := [.printInt, .printStr, .printLog, .randInt, .seed]

/-- The name in programs, which is also the label of calls. -/
def name : Builtin → String
  | .printInt => "print_int"
  | .printStr => "print_str"
  | .printLog => "print_log"
  | .randInt => "rand_int"
  | .seed => "seed"

def ofLabel? (label : String) : Option Builtin :=
  all.find? fun b => b.name = label

def params : Builtin → List Ty
  | .printInt | .seed => [.integer]
  | .printStr => [.string]
  | .printLog => [.logical]
  | .randInt => [.integer, .integer]

def result : Builtin → Ty
  | .printInt | .randInt | .seed => .integer
  | .printStr => .string
  | .printLog => .logical

def signature (b : Builtin) : Ty := .function b.params b.result

end Builtin
end PinsBackend
