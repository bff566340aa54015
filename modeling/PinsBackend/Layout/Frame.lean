import PinsBackend.NodeTable
import PinsBackend.Word

/-! Activation records and the places of variables.

The frame pointer addresses the lowest word of an activation record. There lies the static link,
then one word for each parameter, then the locals in declaration order. Variables of a scoped block
live in the record of the innermost enclosing function. -/
namespace PinsBackend

structure Frame where
  /-- The label of the function's code. -/
  label : String
  /-- Lexical nesting; top-level functions are at depth 1. -/
  depth : Nat
  parameterCount : Nat
  /-- Bytes of the static link and the parameters. -/
  parametersSize : Int
  /-- Bytes of all locals of the function and its scoped blocks. -/
  localsSize : Int := 0
  staticLinkOffset : Int := 0
  deriving DecidableEq, Repr

namespace Frame

/-- The label of the code that runs the global initializers. User labels have no dot, so it is
never the name of a function. -/
def initLabel : String := ".init"

/-- The offset of a parameter from the frame pointer. -/
def parameterOffset (index : Nat) : Except Overflow Int := do
  Word.mul Word.bytes (← Word.add 1 (Word.ofCount index))

/-- A frame without locals. The parameters end where one more parameter would begin. -/
def create (label : String) (depth parameterCount : Nat) : Except Overflow Frame := do
  return { label, depth, parameterCount, parametersSize := ← parameterOffset parameterCount }

/-- The frame in which global initializers run. -/
def initial : Frame where
  label := initLabel
  depth := 1
  parameterCount := 0
  parametersSize := Word.bytes

instance : Inhabited Frame := ⟨initial⟩

def size (f : Frame) : Except Overflow Int :=
  Word.add f.parametersSize f.localsSize

/-- The argument words of a call: the static link and the parameters. -/
def argumentWords (f : Frame) : Except Overflow Nat :=
  Word.succ f.parameterCount

/-- Room for a local of so many words: its offset, and the frame that has it. -/
def allocate (f : Frame) (words : Int) : Except Overflow (Int × Frame) := do
  let offset ← f.size
  let bytes ← Word.mul words Word.bytes
  let localsSize ← Word.add f.localsSize bytes
  return (offset, { f with localsSize })

end Frame

/-- How code reaches a variable. -/
inductive Access where
  /-- In the frame of the running function. -/
  | here (offset : Int)
  /-- In the frame of an enclosing function, so many static links away. -/
  | outer (hops : Nat) (offset : Int)
  /-- In static data. -/
  | global (label : String)
  deriving DecidableEq, Repr

/-- Static storage of one global variable. -/
structure Global where
  label : String
  size : Int
  deriving DecidableEq, Repr

/-- The frames of functions and the places of variables. -/
structure Layout where
  /-- By function declaration. -/
  frames : NodeTable Frame := {}
  /-- By variable declaration and by name reference. -/
  accesses : NodeTable Access := {}
  globals : List Global := []
  /-- The frame of the global initializers. -/
  init : Frame := Frame.initial

end PinsBackend
