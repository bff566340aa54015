import PinsBackend.Names.Resolution
import PinsBackend.Typing.Error

/-! The types of declarations and expressions.

Expressions are typed from the leaves up. Declarations are typed when they are first needed and then
remembered, so that a function may be called before its declaration is reached. -/
namespace PinsBackend

/-- The type of each node that has one. -/
structure Typing where
  types : NodeTable Ty := {}
  errors : Array TypeError := #[]

namespace Typing

open Syntax

abbrev CheckM := StateM Typing

/-- What the checker knows of the program. -/
structure Context where
  signatures : NodeTable Signature
  bindings : NodeTable Binding

def report (e : TypeError) : CheckM Unit :=
  modify fun t => { t with errors := t.errors.push e }

def record (id : NodeId) (type : Ty) : CheckM Unit :=
  modify fun t => { t with types := t.types.insert id type }

/-- The type of a node: the recorded one if there is one, else a new one, which is recorded. -/
def remember (id : NodeId) (compute : CheckM Ty) : CheckM Ty := do
  match (← get).types.get? id with
  | some type => return type
  | none =>
    let type ← compute
    record id type
    return type

/-- The type of a node that is computed anew at each visit; the first one stays recorded. -/
def typed (site : Site) (compute : CheckM Ty) : CheckM Ty := do
  let type ← compute
  record site.id type
  return type

/-- Reports a mismatch of two sound types that are not compatible. Gives true if both types are
sound and compatible. -/
def expect (expected found : Ty) (place : Site) : CheckM Bool := do
  if expected.isError || found.isError then
    return false
  else if expected.isCompatible found then
    return true
  else
    report (.mismatch expected.structural found.structural place.position)
    return false

def atomType : Atom → Ty
  | .logical => .logical
  | .integer => .integer
  | .string => .string

/-- The type that a type expression denotes; `decl` types the declaration of a named type. -/
def typeExpr (ctx : Context) (decl : NodeId → CheckM Ty) : TypeExpr → CheckM Ty
  | .absent site => remember site.id (pure .error)
  | .atom site a => remember site.id (pure (atomType a))
  | .array site size element => remember site.id do
    let element ← typeExpr ctx decl element
    if size ≤ 0 then
      report (.invalidArrayLength size site.position)
      return .error
    else
      return .array size element
  | .named site _ => remember site.id do
    match ctx.bindings.get? site.id with
    | some (.decl id) => decl id
    | _ => return .error

/-- The type of a declaration. `resolving` holds the aliases whose targets are being computed: to
meet one of them again is a cycle. -/
def declType (ctx : Context) : Nat → List NodeId → NodeId → CheckM Ty
  | 0, _, _ => return .error
  | fuel + 1, resolving, id => do
    match (← get).types.get? id, ctx.signatures.get? id with
    | some type, _ => return type
    | none, none => return .error
    | none, some (.alias site name type) =>
      if id ∈ resolving then
        report (.cyclicType name site.position)
        return .error
      else
        let target ← typeExpr ctx (declType ctx fuel (id :: resolving)) type
        record id (.alias name target)
        return .alias name target
    | none, some (.param type) | none, some (.var type) =>
      let type ← typeExpr ctx (declType ctx fuel resolving) type
      record id type
      return type
    | none, some (.function params result) =>
      let params ← params.mapM (declType ctx fuel resolving)
      let result ← typeExpr ctx (declType ctx fuel resolving) result
      record id (.function params result)
      return .function params result

/-- How many declarations a chain of references may pass: each alias stops the chain when it is
met twice, and other declarations can only recur between two aliases. -/
def Context.chain (ctx : Context) : Nat :=
  (ctx.signatures.size + 1) * (ctx.signatures.size + 1)

def Context.declType (ctx : Context) (id : NodeId) : CheckM Ty :=
  Typing.declType ctx ctx.chain [] id

/-- The variable or parameter that a name is bound to. -/
def Context.boundVar? (ctx : Context) (id : NodeId) : Option NodeId := do
  let decl ← (← ctx.bindings.get? id).decl?
  match ctx.signatures.get? decl with
  | some (.var _) | some (.param _) => some decl
  | _ => none

/-- Holds of expressions that denote a place: bound names and elements of arrays. -/
def isLocation (ctx : Context) : Expr → Bool
  | .name site _ => (ctx.boundVar? site.id).isSome
  | .binary _ .index _ _ => true
  | _ => false

def literalType : Literal → Ty
  | .integer _ => .integer
  | .logical _ => .logical
  | .string _ => .string

def unaryType : UnaryOp → Ty
  | .plus | .minus => .integer
  | .not => .logical

/-- The type of an element of an array. -/
def indexType (left right : Ty) (l r : Site) : CheckM Ty := do
  if left.isError then
    return .error
  match left.arrayParts? with
  | none =>
    report (.notIndexable left l.position)
    let _ ← expect .integer right r
    return .error
  | some (_, element) =>
    if ← expect .integer right r then
      return element
    else
      return .error

/-- The type of an operation on two operands of the type `operand`, with the same type. -/
def sameType (operand left right : Ty) (l r : Site) : CheckM Ty := do
  let leftOk ← expect operand left l
  let rightOk ← expect operand right r
  return if leftOk && rightOk then operand else .error

def comparisonType (left right : Ty) (l r : Site) : CheckM Ty := do
  if left.isError || right.isError then
    return .error
  else if left.isAtomic then
    return if ← expect left right r then .logical else .error
  else
    report (.mismatch .integer left.structural l.position)
    return .error

def binaryType (op : BinaryOp) (left right : Ty) (l r : Site) : CheckM Ty :=
  if op = .index then
    indexType left right l r
  else if op.isArithmetic then
    sameType .integer left right l r
  else if op.isLogical then
    sameType .logical left right l r
  else
    comparisonType left right l r

/-- Compares arguments with parameters, all of them. -/
def expectAll : List Ty → List Ty → List Site → CheckM Bool
  | param :: params, arg :: args, site :: sites => do
    let first ← expect param arg site
    let rest ← expectAll params args sites
    return first && rest
  | _, _, _ => return true

/-- The type of a call of a function with this signature. -/
def applyType (site : Site) (name : String) (signature : Ty) (args : List Ty) (sites : List Site) :
    CheckM Ty := do
  match signature with
  | .function params result =>
    if params.length ≠ args.length then
      report (.arityMismatch name params.length args.length site.position)
      return .error
    else if ← expectAll params args sites then
      return result
    else
      return .error
  | _ => return .error

def callType (ctx : Context) (site : Site) (name : String) (args : List Ty) (sites : List Site) :
    CheckM Ty := do
  match ctx.bindings.get? site.id with
  | none => return .error
  | some (.builtin b) => applyType site name b.signature args sites
  | some (.decl decl) =>
    match ctx.signatures.get? decl with
    | some (.function _ _) => applyType site name (← ctx.declType decl) args sites
    | _ =>
      report (.notCallable name site.position)
      return .error

/-- The type of a conditional with two branches; branches that do not agree give no value. -/
def branchType (thenType elseType : Ty) : Ty :=
  if !thenType.isError && thenType.isCompatible elseType then thenType else .void

def assignType (ctx : Context) (site : Site) (target : Expr) (targetType valueType : Ty)
    (value : Site) : CheckM Ty := do
  if targetType.isError then
    return .error
  else if !isLocation ctx target || !targetType.isAtomic then
    report (.notAssignable targetType site.position)
    return .error
  else
    return if ← expect targetType valueType value then targetType else .error

mutual

def expr (ctx : Context) : Expr → CheckM Ty
  | .absent site => typed site (pure .error)
  | .hole site => typed site (pure .error)
  | .literal site l => typed site (pure (literalType l))
  | .name site _ => typed site do
    match ctx.boundVar? site.id with
    | some decl => ctx.declType decl
    | none => return .error
  | .unary site op e => typed site do
    let found ← expr ctx e
    return if ← expect (unaryType op) found e.site then unaryType op else .error
  | .binary site op l r => typed site do
    let left ← expr ctx l
    let right ← expr ctx r
    binaryType op left right l.site r.site
  | .call site name args => typed site do
    let types ← exprs ctx args
    callType ctx site name types (args.map Expr.site)
  | .block site items => typed site do
    return (← exprs ctx items).getLastD .void
  | .ifThen site c t => typed site do
    let condition ← expr ctx c
    let _ ← expect .logical condition c.site
    let _ ← expr ctx t
    return .void
  | .ifElse site c t e => typed site do
    let condition ← expr ctx c
    let _ ← expect .logical condition c.site
    let thenType ← expr ctx t
    let elseType ← expr ctx e
    return branchType thenType elseType
  | .whileDo site c body => typed site do
    let condition ← expr ctx c
    let _ ← expect .logical condition c.site
    let _ ← expr ctx body
    return .void
  | .forDo site counter low high step body => typed site do
    let counterType ← expr ctx counter
    if (ctx.boundVar? counter.id).isNone && !counterType.isError then
      report (.notAssignable counterType counter.site.position)
    let _ ← expect .integer counterType counter.site
    let lowType ← expr ctx low
    let _ ← expect .integer lowType low.site
    let highType ← expr ctx high
    let _ ← expect .integer highType high.site
    let stepType ← expr ctx step
    let _ ← expect .integer stepType step.site
    let _ ← expr ctx body
    return .void
  | .scoped site ds body => typed site do
    decls ctx ds
    expr ctx body
  | .assign site target value => typed site do
    let targetType ← expr ctx target
    let valueType ← expr ctx value
    assignType ctx site target targetType valueType value.site

def exprs (ctx : Context) : List Expr → CheckM (List Ty)
  | [] => return []
  | e :: es => do
    let first ← expr ctx e
    let rest ← exprs ctx es
    return first :: rest

def decl (ctx : Context) : Decl → CheckM Unit
  | .absent _ => pure ()
  | .alias site _ _ => do let _ ← ctx.declType site.id
  | .param site _ _ => do let _ ← ctx.declType site.id
  | .var site _ _ none => do let _ ← ctx.declType site.id
  | .var site _ _ (some init) => do
    let declared ← ctx.declType site.id
    let found ← expr ctx init
    if !declared.isError && !declared.isAtomic then
      report (.notAssignable declared site.position)
    else
      let _ ← expect declared found init.site
  | .function site name params _ body => do
    let signature ← ctx.declType site.id
    decls ctx params
    let result := match signature with
      | .function _ result => result
      | _ => .error
    if !result.isError && !result.isAtomic then
      report (.invalidReturnType name result site.position)
    let found ← expr ctx body
    if result.isAtomic then
      let _ ← expect result found body.site

def decls (ctx : Context) : List Decl → CheckM Unit
  | [] => pure ()
  | d :: ds => do
    decl ctx d
    decls ctx ds

end

end Typing

/-- Types a program whose references are bound. -/
def Syntax.Source.check (source : Syntax.Source) (bindings : NodeTable Binding) : Typing :=
  ((Typing.decls { signatures := source.signatures, bindings } source.definitions).run {}).2

end PinsBackend
