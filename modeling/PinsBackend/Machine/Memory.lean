import PinsBackend.Arithmetic
import PinsBackend.Layout.Frame

/-! Memory: an array of words with a frame pointer and a stack pointer.

Addresses are byte addresses of words. Static data grows upward from address 0, activation records
grow downward from the end, and `staticTop` is the first byte that the stack may not cross. -/
namespace PinsBackend

structure Memory where
  words : Array Value
  fp : Int
  sp : Int
  staticTop : Int := 0
  /-- The addresses of static data, the latest first. -/
  labels : List (String × Int) := []
  deriving DecidableEq

/-- The frame pointer and the stack pointer of an activation. -/
structure Registers where
  fp : Int
  sp : Int
  deriving DecidableEq, Repr

/-- Operations that update memory. A failure leaves what was done before it. -/
abbrev MemoryM := EStateM (Halt Fault) Memory

namespace Memory

/-- A memory of so many zeros, with an empty stack. -/
def ofCapacity (capacity : Nat) : Memory where
  words := Array.replicate capacity .zero
  fp := capacity * Word.bytes
  sp := capacity * Word.bytes

/-- Refuses a capacity whose byte size does not fit a word, or that no storage has. -/
def checkCapacity (capacity : Nat) : Except Overflow Unit := do
  let _ ← Word.mul (Word.ofCount capacity) Word.bytes
  Word.block capacity

def size (m : Memory) : Int := m.words.size * Word.bytes

def address? (m : Memory) (label : String) : Option Int := m.labels.lookup label

/-- The place of the word at an address. -/
def index? (m : Memory) (address : Int) : Option Nat :=
  if 0 ≤ address ∧ address % Word.bytes = 0 ∧ address < m.size then
    some (address / Word.bytes).toNat
  else
    none

def load (m : Memory) (address : Int) : Except Fault Value :=
  match (m.index? address).bind (m.words[·]?) with
  | some v => .ok v
  | none => .error (.invalidAddress address)

/-- The address of static data as a word. -/
def dataAddress (m : Memory) (label : String) : Except Fault Value :=
  match m.address? label with
  | some a => .ok (Value.ofInt a)
  | none => .error (.malformed (.unknownData label))

def store (address : Int) (v : Value) : MemoryM Unit := fun m =>
  match m.index? address with
  | some i => .ok () { m with words := m.words.setIfInBounds i v }
  | none => .error (.fault (.invalidAddress address)) m

def registers (m : Memory) : Registers := ⟨m.fp, m.sp⟩

def restore (r : Registers) (m : Memory) : Memory := { m with fp := r.fp, sp := r.sp }

/-- Lets both registers address a new activation record and gives their former contents. -/
@[noinline] def switch (sp : Int) : MemoryM Registers := fun m =>
  .ok m.registers { m with fp := sp, sp }

/-- A result on sizes, inside an operation on memory. -/
def checked {α : Type} (x : Except Overflow α) : MemoryM α := fun m =>
  match x with
  | .ok a => .ok a m
  | .error o => .error (.overflow o) m

/-- Reserves static data and gives its address. -/
def allocateStatic (label : String) (size : Int) : MemoryM Int := do
  let size ← checked (Word.roundUp (max size 0))
  let m ← get
  let available ← checked (Word.sub m.sp m.staticTop)
  if size > available then
    throw (.fault (.outOfMemory size available))
  let address := m.staticTop
  modify fun m =>
    { m with
      staticTop := address + size
      labels := (label, address) :: m.labels.filter (·.1 ≠ label) }
  return address

/-- Writes zero to so many words from an address upward. -/
def clear (address : Int) : Nat → MemoryM Unit
  | 0 => pure ()
  | n + 1 => do
    store address .zero
    clear (address + Word.bytes) n

/-- Finds room for an activation record below the stack pointer and fills it with zeros. -/
def reserve (size : Int) : MemoryM Int := do
  let size ← checked (Word.roundUp (max size 0))
  let sp ← checked (Word.sub (← get).sp size)
  if sp < (← get).staticTop then
    throw (.fault (.stackOverflow sp))
  clear sp (size / Word.bytes).toNat
  return sp

/-- Opens an activation record of zeros, which both registers then address. -/
def pushFrame (size : Int) : MemoryM Int := do
  let sp ← reserve size
  let _ ← switch sp
  return sp

/-- Writes words one after the other from an address upward. -/
def storeAll (address : Int) : List Value → MemoryM Unit
  | [] => pure ()
  | v :: vs => do
    store address v
    storeAll (address + Word.bytes) vs

/-- Opens the activation record of a call and puts the argument words into it, the static link
first. Gives the registers of the caller. -/
def enter (frame : Frame) (args : List Value) : MemoryM Registers := do
  let sp ← reserve (← checked frame.size)
  let caller ← switch sp
  storeAll sp args
  return caller

/-- Reserves the static data of a program. -/
def allocateGlobals : List Global → MemoryM Unit
  | [] => pure ()
  | g :: gs => do
    let _ ← allocateStatic g.label g.size
    allocateGlobals gs

end Memory
end PinsBackend
