import PinsBackend.Machine.Host
import PinsBackend.Names.Resolution
import PinsBackend.Proofs.Syntax.Traversal
import PinsBackend.Proofs.Typing.Types

/-! What programs mean.

The evaluator works on syntax trees. A call opens an activation with a cell for each parameter and a
block of cells for each variable of the function, all zero, and links it to the activation of the
function around it. A name stands for the block of its declaration, which is found along the links;
an array is passed on as the place of its first cell. Fuel bounds how deep calls nest and how often
each loop turns. -/
namespace PinsBackend.Meaning

open Syntax

/-- A cell: the activation that has the variable, or none for the top level, and the position in the
block of the variable. -/
structure Place where
  owner : Option Nat
  decl : NodeId
  offset : Nat := 0
  deriving DecidableEq, Repr

inductive Datum where
  | word (v : Value)
  /-- An array stands for its first cell. -/
  | place (p : Place)
  deriving DecidableEq, Repr

/-- A call that has not returned. -/
structure Activation where
  level : Level
  /-- The activation of the function around this one. -/
  link : Option Nat

structure Store where
  cells : Place → Datum := fun _ => .word .zero
  /-- The live activations, the oldest first. -/
  stack : List Activation := []
  host : Host := {}

inductive Stop where
  | fault (f : Fault)
  /-- The fuel was not enough. -/
  | unfinished
  /-- The rules give no meaning. -/
  | stuck
  deriving DecidableEq

abbrev RunM := EStateM Stop Store

/-- A program with the tables that give its names and types a meaning. -/
structure Context where
  source : Source
  bindings : NodeTable Binding
  types : NodeTable Ty

def lift {α : Type} (x : Except Fault α) : RunM α := fun σ =>
  match x with
  | .ok a => .ok a σ
  | .error f => .error (.fault f) σ

def onHost {α : Type} (x : EStateM Fault Host α) : RunM α := fun ⟨cells, stack, host⟩ =>
  match x host with
  | .ok a host => .ok a ⟨cells, stack, host⟩
  | .error f host => .error (.fault f) ⟨cells, stack, host⟩

def Datum.toWord : Datum → RunM Value
  | .word v => pure v
  | .place _ => throw .stuck

def Datum.toPlace : Datum → RunM Place
  | .word _ => throw .stuck
  | .place p => pure p

def load (p : Place) : RunM Datum := return (← get).cells p

/-- The store with another datum in one cell. -/
def Store.set (σ : Store) (p : Place) (d : Datum) : Store :=
  { σ with cells := fun q => if q = p then d else σ.cells q }

def store (p : Place) (d : Datum) : RunM Unit := modify fun σ => σ.set p d

/-! ## Activations -/

/-- The first activation of a kind along the links, of so many at most. -/
def search (stack : List Activation) (wanted : Level → Bool) : Nat → Option Nat → Option Nat
  | fuel + 1, some k =>
    match stack[k]? with
    | some a => if wanted a.level then some k else search stack wanted fuel a.link
    | none => none
  | _, _ => none

/-- The first activation of a kind, from the running one outward. -/
def find? (stack : List Activation) (wanted : Level → Bool) : Option Nat :=
  search stack wanted stack.length (some (stack.length - 1))

/-- The block of a variable. -/
def block (ctx : Context) (d : NodeId) : RunM Place := do
  if d ∈ ctx.source.globals then
    return { owner := none, decl := d }
  else
    match find? (← get).stack fun l => d ∈ l.variables with
    | some k => return { owner := some k, decl := d }
    | none => throw .stuck

/-- The block of the variable that a name is bound to. -/
def blockOf (ctx : Context) (id : NodeId) : RunM Place :=
  match ctx.bindings.get? id with
  | some (.decl d) => block ctx d
  | _ => throw .stuck

/-- Holds of the cells of parameters. -/
def isParameter (stack : List Activation) (p : Place) : Bool :=
  match p.owner.bind (stack[·]?) with
  | some a => p.decl ∈ a.level.params
  | none => false

/-- The store with one more activation, in which parameters have their arguments and all other
cells are zero. -/
def Store.opened (σ : Store) (level : Level) (link : Option Nat) (args : List Datum) : Store :=
  { σ with
    stack := σ.stack ++ [{ level, link }]
    cells := fun p =>
      if p.owner = some σ.stack.length then
        ((level.params.zip args).lookup p.decl).getD (.word .zero)
      else σ.cells p }

/-- The store without its youngest activation. -/
def Store.closed (σ : Store) : Store := { σ with stack := σ.stack.dropLast }

def enter (level : Level) (link : Option Nat) (args : List Datum) : RunM Unit :=
  modify fun σ => σ.opened level link args

def leave : RunM Unit := modify Store.closed

/-! ## Expressions -/

def literal : Literal → Value
  | .integer n => .int n
  | .logical b => .logical b
  | .string s => .str s

/-- False is the word zero, and to negate a word is to compare it with false. -/
def unary : UnaryOp → Value → Except Fault Value
  | .plus, v => .ok v
  | .minus, v => do return .int (-(← v.asInt))
  | .not, v => Ir.BinOp.eq.apply v .zero

/-- Operators on two words; the other operators are no operations on words. -/
def operate : BinaryOp → Value → Value → Option (Except Fault Value)
  | .add, a, b => some (Ir.BinOp.add.apply a b)
  | .sub, a, b => some (Ir.BinOp.sub.apply a b)
  | .mul, a, b => some (Ir.BinOp.mul.apply a b)
  | .div, a, b => some (Ir.BinOp.div.apply a b)
  | .mod, a, b => some (Ir.BinOp.mod.apply a b)
  | .eq, a, b => some (Ir.BinOp.eq.apply a b)
  | .neq, a, b => some (Ir.BinOp.ne.apply a b)
  | .lt, a, b => some (Ir.BinOp.lt.apply a b)
  | .gt, a, b => some (Ir.BinOp.gt.apply a b)
  | .leq, a, b => some (Ir.BinOp.le.apply a b)
  | .geq, a, b => some (Ir.BinOp.ge.apply a b)
  | .and, _, _ | .or, _, _ | .index, _, _ => none

/-- The place of an element of the array that a node stands for. -/
def element (ctx : Context) (array : NodeId) (base : Place) (index : Value) : RunM Place :=
  match (ctx.types.get? array).bind Ty.arrayParts? with
  | none => throw .stuck
  | some (length, type) => do
    let i ← lift (do (← index.checkIndex length).asInt)
    return { base with offset := base.offset + i.toInt.toNat * type.extent }

/-- An element that is an array itself stands for its place. -/
def isArrayOfArrays (ctx : Context) (array : NodeId) : Bool :=
  ((ctx.types.get? array).bind Ty.arrayParts?).any fun parts => parts.2.isArray

/-- Runs a body while a test holds, so many times at most. -/
def repeatWhile (test : RunM Bool) (body : RunM Unit) : Nat → RunM Unit
  | 0 => throw .unfinished
  | n + 1 => do
    if ← test then
      body
      repeatWhile test body n

section

variable (ctx : Context) (call : NodeId → List Datum → RunM Datum) (limit : Nat)

mutual

/-- The value of an expression. -/
def expr : Expr → RunM Datum
  | .absent _ | .hole _ => throw .stuck
  | .literal _ l => return .word (literal l)
  | .name site _ => do
    let p ← blockOf ctx site.id
    -- a parameter that is an array holds the place of the array
    if ((ctx.types.get? site.id).any Ty.isArray) && !isParameter (← get).stack p then
      return .place p
    else
      load p
  | .unary _ op e => do
    let v ← (← expr e).toWord
    return .word (← lift (unary op v))
  | .binary _ .and l r => do
    let left ← (← expr l).toWord
    if ← lift left.isTruthy then expr r else return .word left
  | .binary _ .or l r => do
    let left ← (← expr l).toWord
    if ← lift left.isTruthy then return .word left else expr r
  | .binary _ .index l r => do
    let base ← (← expr l).toPlace
    let index ← (← expr r).toWord
    let p ← element ctx l.id base index
    if isArrayOfArrays ctx l.id then return .place p else load p
  | .binary _ op l r => do
    let left ← (← expr l).toWord
    let right ← (← expr r).toWord
    match operate op left right with
    | some result => return .word (← lift result)
    | none => throw .stuck
  | .call site _ args => do
    let args ← exprs args
    match ctx.bindings.get? site.id with
    | some (.builtin b) => return .word (← onHost (Host.call b (← args.mapM Datum.toWord)))
    | some (.decl f) => call f args
    | none => throw .stuck
  | .block _ items => do return (← exprs items).getLastD (.word .zero)
  | .ifThen _ c t => do
    let condition ← (← expr c).toWord
    if ← lift condition.isTruthy then
      let _ ← expr t
    return .word .zero
  | .ifElse _ c t e => do
    let condition ← (← expr c).toWord
    if ← lift condition.isTruthy then expr t else expr e
  | .whileDo _ c b => do
    repeatWhile
      (do lift (← (← expr c).toWord).isTruthy)
      (do let _ ← expr b)
      limit
    return .word .zero
  | .forDo _ c lo hi st b => do
    let counter ← location c
    store counter (← expr lo)
    let high ← (← expr hi).toWord
    let step ← (← expr st).toWord
    repeatWhile
      (do
        let v ← (← load counter).toWord
        lift (do (← Ir.BinOp.lt.apply v high).isTruthy))
      (do
        let _ ← expr b
        let v ← (← load counter).toWord
        store counter (.word (← lift (Ir.BinOp.add.apply v step))))
      limit
    return .word .zero
  | .scoped _ ds b => do
    decls ds
    expr b
  | .assign _ target value => do
    let v ← expr value
    store (← location target) v
    return v

def exprs : List Expr → RunM (List Datum)
  | [] => return []
  | e :: es => do
    let first ← expr e
    let rest ← exprs es
    return first :: rest

/-- The cell that an assignable expression stands for. -/
def location : Expr → RunM Place
  | .name site _ => blockOf ctx site.id
  | .binary _ .index l r => do
    let base ← (← expr l).toPlace
    let index ← (← expr r).toWord
    element ctx l.id base index
  | _ => throw .stuck

/-- Initializes a variable that has an initial value. -/
def decl : Decl → RunM Unit
  | .var site _ _ (some init) => do
    let v ← expr init
    store (← block ctx site.id) v
  | _ => pure ()

def decls : List Decl → RunM Unit
  | [] => pure ()
  | d :: ds => do
    decl d
    decls ds

end

end

/-! ## Calls and programs -/

/-- The declaration of a function, with the functions around it. -/
def Context.function? (ctx : Context) (f : NodeId) : Option (Env × Decl) :=
  ctx.source.declarations.find? fun x => x.2.isFunction && x.2.id = f

/-- The activation that a function declared in this environment is linked to. -/
def linkFor (stack : List Activation) : Env → Option Nat
  | [] => none
  | outer :: _ => find? stack fun l => l.function = outer.function

/-- Calls a function with its arguments. Calls nest so deep at most, and each loop turns `limit`
times at most. -/
def call (ctx : Context) (limit : Nat) : Nat → NodeId → List Datum → RunM Datum
  | 0, _, _ => throw .unfinished
  | depth + 1, f, args =>
    match ctx.function? f with
    | some (Γ, .function site _ params _ body) => do
      enter (Decl.level site params body) (linkFor (← get).stack Γ) args
      let v ← expr ctx (call ctx limit depth) limit body
      leave
      return v
    | _ => throw .stuck

/-- The function of the top level with this name. -/
def Context.main? (ctx : Context) (name : String) : Option NodeId :=
  ctx.source.definitions.findSome? fun
    | .function site f _ _ _ => if f = name then some site.id else none
    | _ => none

/-- Initializes the variables of the top level and calls the entry function. -/
def run (ctx : Context) (entry : String) (fuel : Nat) : RunM Datum := do
  enter ctx.source.init none []
  decls ctx (call ctx fuel fuel) fuel (ctx.source.definitions.filter Decl.isVar)
  leave
  match ctx.main? entry with
  | some f => call ctx fuel fuel f []
  | none => throw .stuck

end PinsBackend.Meaning
