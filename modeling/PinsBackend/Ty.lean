import PinsBackend.Word

/-! Static types.

An alias is transparent: two types are compatible if their structural forms, in which every alias is
replaced by its target, are equal. `error` is the type of what could not be typed; checks that meet
it are skipped, so that one cause gives one report. -/
namespace PinsBackend

inductive Ty where
  | logical
  | integer
  | string
  /-- The type of loops, of conditionals without an alternative and of empty blocks. -/
  | void
  | array (length : Int) (element : Ty)
  | alias (name : String) (target : Ty)
  | function (params : List Ty) (result : Ty)
  | error

namespace Ty

instance : Inhabited Ty := ⟨.error⟩

mutual

def beq : Ty → Ty → Bool
  | .logical, .logical => true
  | .integer, .integer => true
  | .string, .string => true
  | .void, .void => true
  | .array n a, .array m b => n == m && a.beq b
  | .alias x a, .alias y b => x == y && a.beq b
  | .function ps r, .function qs s => beqList ps qs && r.beq s
  | .error, .error => true
  | _, _ => false

def beqList : List Ty → List Ty → Bool
  | [], [] => true
  | a :: as, b :: bs => a.beq b && beqList as bs
  | _, _ => false

end

mutual

theorem beq_iff : (a b : Ty) → (a.beq b = true ↔ a = b)
  | .logical, b => by cases b <;> simp [beq]
  | .integer, b => by cases b <;> simp [beq]
  | .string, b => by cases b <;> simp [beq]
  | .void, b => by cases b <;> simp [beq]
  | .array _ a, b => by cases b <;> simp [beq, beq_iff a]
  | .alias _ a, b => by cases b <;> simp [beq, beq_iff a]
  | .function ps r, b => by cases b <;> simp [beq, beqList_iff ps, beq_iff r]
  | .error, b => by cases b <;> simp [beq]

theorem beqList_iff : (as bs : List Ty) → (beqList as bs = true ↔ as = bs)
  | [], bs => by cases bs <;> simp [beqList]
  | a :: as, bs => by cases bs <;> simp [beqList, beq_iff a, beqList_iff as]

end

instance : DecidableEq Ty := fun a b => decidable_of_iff _ (beq_iff a b)

mutual

/-- The type with every alias replaced by its target. -/
def structural : Ty → Ty
  | .alias _ target => target.structural
  | .array n element => .array n element.structural
  | .function params result => .function (structuralList params) result.structural
  | t => t

def structuralList : List Ty → List Ty
  | [] => []
  | t :: ts => t.structural :: structuralList ts

end

/-- The outermost type that is not an alias. -/
def unaliased : Ty → Ty
  | .alias _ target => target.unaliased
  | t => t

def isCompatible (a b : Ty) : Bool := a.structural = b.structural

/-- Only atomic values are assigned and returned. -/
def isAtomic (t : Ty) : Bool :=
  match t.unaliased with
  | .logical | .integer | .string => true
  | _ => false

def isInteger (t : Ty) : Bool :=
  match t.unaliased with
  | .integer => true
  | _ => false

def isLogical (t : Ty) : Bool :=
  match t.unaliased with
  | .logical => true
  | _ => false

def isArray (t : Ty) : Bool :=
  match t.unaliased with
  | .array _ _ => true
  | _ => false

/-- Holds of `error` itself, of its aliases and of arrays of it. -/
def isError : Ty → Bool
  | .error => true
  | .alias _ target => target.isError
  | .array _ element => element.isError
  | _ => false

/-- The length and the element type of an array. -/
def arrayParts? (t : Ty) : Option (Int × Ty) :=
  match t.unaliased with
  | .array n element => some (n, element)
  | _ => none

/-- The storage of a value: a word for an atomic value, all elements of an array, nothing for
`void`. -/
def sizeInWords : Ty → Except Overflow Int
  | .logical | .integer | .string => .ok 1
  | .array n element => do Word.mul n (← element.sizeInWords)
  | .alias _ target => target.sizeInWords
  | .void | .function _ _ | .error => .ok 0

mutual

def text : Ty → String
  | .logical => "logical"
  | .integer => "integer"
  | .string => "string"
  | .void => "void"
  | .array n element => "arr[" ++ toString n ++ "] " ++ element.text
  | .alias name _ => name
  | .function params result => "fun(" ++ ", ".intercalate (texts params) ++ "): " ++ result.text
  | .error => "error"

def texts : List Ty → List String
  | [] => []
  | t :: ts => t.text :: texts ts

end

end Ty
end PinsBackend
