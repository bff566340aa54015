import PinsBackend.Builtin
import PinsBackend.NodeTable
import PinsBackend.Syntax.Basic

/-! Lexical scopes: which declaration a name means at a place. -/
namespace PinsBackend

/-- The kind of thing a name stands for. -/
inductive NameKind where
  | type
  | var
  | function
  deriving DecidableEq, Repr

def NameKind.text : NameKind → String
  | .type => "type"
  | .var => "variable"
  | .function => "function"

/-- What a reference is bound to. -/
inductive Binding where
  | decl (id : NodeId)
  | builtin (b : Builtin)
  deriving DecidableEq, Repr

def Binding.decl? : Binding → Option NodeId
  | .decl id => some id
  | .builtin _ => none

namespace Scope

/-- One declaration in a scope. -/
structure Entry where
  binding : Binding
  kind : NameKind
  /-- The place among the declarations of the scope. -/
  order : Nat
  position : Position
  deriving DecidableEq, Repr

end Scope

/-- The names that one function body or scoped block declares. -/
structure Scope where
  entries : List (String × Scope.Entry) := []
  /-- The place of the variable whose initializer is being read. -/
  initializing : Option Nat := none
  deriving DecidableEq, Repr

/-- Nested scopes, the innermost first. -/
abbrev ScopeChain := List Scope

namespace ScopeChain

def push (c : ScopeChain) : ScopeChain := {} :: c

def pop (c : ScopeChain) : ScopeChain := c.tail

/-- Declares a name in the innermost scope. The first declaration of a name stays, and a second
one gives its position. -/
def declare (c : ScopeChain) (name : String) (entry : Scope.Entry) : Except Position ScopeChain :=
  match c with
  | [] => .ok []
  | scope :: outer =>
    match scope.entries.lookup name with
    | some previous => .error previous.position
    | none => .ok ({ scope with entries := (name, entry) :: scope.entries } :: outer)

/-- Marks the innermost scope: the initializer of its variable at this place is being read. -/
def beginInitializer (c : ScopeChain) (order : Nat) : ScopeChain :=
  match c with
  | [] => []
  | scope :: outer => { scope with initializing := some order } :: outer

def endInitializer (c : ScopeChain) : ScopeChain :=
  match c with
  | [] => []
  | scope :: outer => { scope with initializing := none } :: outer

end ScopeChain

/-- A declaration that a name means. -/
structure Found where
  entry : Scope.Entry
  /-- It is a variable, and an initializer at its place or before it in the same scope is being
  read. -/
  uninitialized : Bool
  deriving DecidableEq, Repr

def Scope.find? (s : Scope) (name : String) : Option Found :=
  (s.entries.lookup name).map fun entry =>
    { entry
      uninitialized :=
        entry.kind = .var && s.initializing.any fun current => current ≤ entry.order }

/-- The declaration in the innermost scope that has the name. -/
def ScopeChain.lookup (c : ScopeChain) (name : String) : Option Found :=
  c.findSome? fun scope => scope.find? name

end PinsBackend
