import PinsBackend.Names.Scope
import PinsBackend.Syntax.Tree

/-! Binding references to declarations.

All declarations of a block are entered before any of them is read, so functions of one block may
call each other. Each reference gives its findings: a binding, an error, or both. -/
namespace PinsBackend

inductive NameError where
  | unresolved (name : String) (position : Position)
  | duplicate (name : String) (position previous : Position)
  | kindMismatch (name : String) (expected found : NameKind) (position : Position)
  /-- An initializer names a variable of its scope that is not initialized before it. -/
  | forwardReference (name : String) (position : Position)
  deriving DecidableEq, Repr

def NameError.message : NameError → String
  | .unresolved name position => "unresolved name `" ++ name ++ "` at " ++ position.text
  | .duplicate name position previous =>
    "duplicate definition of `" ++ name ++ "` at " ++ position.text ++ " (first defined at " ++
      previous.text ++ ")"
  | .kindMismatch name expected found position =>
    "`" ++ name ++ "` at " ++ position.text ++ " is a " ++ found.text ++ ", expected a " ++
      expected.text
  | .forwardReference name position =>
    "`" ++ name ++ "` at " ++ position.text ++ " is used before its declaration is initialized"

/-- The binding of each reference that has one. -/
structure Resolution where
  bindings : NodeTable Binding
  errors : List NameError

namespace Resolution

open Syntax

inductive Finding where
  | bound (id : NodeId) (b : Binding)
  | error (e : NameError)
  deriving DecidableEq, Repr

/-- The kind and the name that a declaration gives to its scope. -/
def declared? : Decl → Option (NameKind × String)
  | .absent _ => none
  | .alias _ name _ => some (.type, name)
  | .function _ name _ _ _ => some (.function, name)
  | .param _ name _ => some (.var, name)
  | .var _ name _ _ => some (.var, name)

/-- Enters declarations into the innermost scope, from this place on. -/
def declare (chain : ScopeChain) (order : Nat) : List Decl → ScopeChain × List Finding
  | [] => (chain, [])
  | d :: ds =>
    match declared? d with
    | none => declare chain (order + 1) ds
    | some (kind, name) =>
      match chain.declare name ⟨.decl d.id, kind, order, d.site.position⟩ with
      | .ok chain => declare chain (order + 1) ds
      | .error previous =>
        let (chain, findings) := declare chain (order + 1) ds
        (chain, .error (.duplicate name d.site.position previous) :: findings)

def typeExpr (chain : ScopeChain) : TypeExpr → List Finding
  | .absent _ | .atom _ _ => []
  | .array _ _ element => typeExpr chain element
  | .named site name =>
    match chain.lookup name with
    | none => [.error (.unresolved name site.position)]
    | some found =>
      if found.entry.kind = .type then
        [.bound site.id found.entry.binding]
      else
        [.error (.kindMismatch name .type found.entry.kind site.position)]

/-- A reference to a variable or parameter. -/
def value (chain : ScopeChain) (site : Site) (name : String) : List Finding :=
  match chain.lookup name with
  | none => [.error (.unresolved name site.position)]
  | some found =>
    if found.entry.kind = .var then
      (if found.uninitialized then [.error (.forwardReference name site.position)] else []) ++
        [.bound site.id found.entry.binding]
    else
      [.error (.kindMismatch name .var found.entry.kind site.position)]

/-- The name of a call. A variable is bound too; that it cannot be called is for the types. -/
def callee (chain : ScopeChain) (site : Site) (name : String) : List Finding :=
  match chain.lookup name with
  | none => [.error (.unresolved name site.position)]
  | some found =>
    if found.entry.kind = .type then
      [.error (.kindMismatch name .function .type site.position)]
    else
      [.bound site.id found.entry.binding]

/-- The types of parameters, which belong to the scope around the function. -/
def paramTypes (chain : ScopeChain) (params : List Decl) : List Finding :=
  params.flatMap fun
    | .param _ _ type => typeExpr chain type
    | _ => []

mutual

def expr (chain : ScopeChain) : Expr → List Finding
  | .absent _ | .hole _ | .literal _ _ => []
  | .name site x => value chain site x
  | .unary _ _ e => expr chain e
  | .binary _ _ l r => expr chain l ++ expr chain r
  | .call site f args => callee chain site f ++ exprs chain args
  | .block _ items => exprs chain items
  | .ifThen _ c t => expr chain c ++ expr chain t
  | .ifElse _ c t e => expr chain c ++ expr chain t ++ expr chain e
  | .whileDo _ c body => expr chain c ++ expr chain body
  | .forDo _ counter low high step body =>
    expr chain counter ++ expr chain low ++ expr chain high ++ expr chain step ++ expr chain body
  | .scoped _ ds body =>
    let (inner, duplicates) := declare chain.push 0 ds
    duplicates ++ decls inner 0 ds ++ expr inner body
  | .assign _ target v => expr chain target ++ expr chain v

def exprs (chain : ScopeChain) : List Expr → List Finding
  | [] => []
  | e :: es => expr chain e ++ exprs chain es

/-- A declaration at this place of the innermost scope. -/
def decl (chain : ScopeChain) (order : Nat) : Decl → List Finding
  | .absent _ => []
  | .alias _ _ type => typeExpr chain type
  | .param _ _ type => typeExpr chain type
  | .var _ _ type none => typeExpr chain type
  | .var _ _ type (some init) => typeExpr chain type ++ expr (chain.beginInitializer order) init
  | .function _ _ params result body =>
    let (inner, duplicates) := declare chain.push 0 params
    paramTypes chain params ++ typeExpr chain result ++ duplicates ++ expr inner body

def decls (chain : ScopeChain) (order : Nat) : List Decl → List Finding
  | [] => []
  | d :: ds => decl chain order d ++ decls chain (order + 1) ds

end

/-- The scope around a program, which declares the built-ins. -/
def root : Scope where
  entries := Builtin.all.mapIdx fun order b => (b.name, ⟨.builtin b, .function, order, {}⟩)

def program (definitions : List Decl) : List Finding :=
  let (top, duplicates) := declare (ScopeChain.push [root]) 0 definitions
  duplicates ++ decls top 0 definitions

def Finding.error? : Finding → Option NameError
  | .error e => some e
  | .bound _ _ => none

def Finding.record (table : NodeTable Binding) : Finding → NodeTable Binding
  | .bound id b => table.insert id b
  | .error _ => table

def ofFindings (findings : List Finding) : Resolution where
  bindings := findings.foldl Finding.record .empty
  errors := findings.filterMap Finding.error?

end Resolution

/-- Binds the references of a program. -/
def Syntax.Source.resolve (source : Syntax.Source) : Resolution :=
  .ofFindings (Resolution.program source.definitions)

end PinsBackend
