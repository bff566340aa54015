import PinsBackend.Ir.Code
import PinsBackend.Ir.Error
import PinsBackend.Names.Resolution
import PinsBackend.Typing.Check

/-! From syntax to tree code.

Every function becomes a chunk that leaves its value in `Temp.rv`, and the initializers of globals
become the chunk that runs first. A variable becomes an address computed from its access; an array
stands for the address of its first element, and a parameter of array type holds such an address. -/
namespace PinsBackend.Ir.Lowering

open Syntax (Decl BinaryOp UnaryOp Literal)

structure Context where
  signatures : NodeTable Syntax.Signature
  bindings : NodeTable Binding
  types : NodeTable Ty
  layout : Layout

structure State where
  /-- The chunks that are finished. -/
  chunks : Array (Chunk Stmt) := #[]
  /-- The next free temporary of the current function. -/
  nextTemp : Temp := Temp.firstFree
  /-- Labels given out so far. -/
  labels : Nat := 0

abbrev LowerM := EStateM IrError State

def fresh : LowerM Temp :=
  modifyGet fun s => (s.nextTemp, { s with nextTemp := s.nextTemp + 1 })

def label : LowerM String :=
  modifyGet fun s => ("L" ++ toString (s.labels + 1), { s with labels := s.labels + 1 })

def typeOf (ctx : Context) (id : NodeId) : LowerM Ty :=
  match ctx.types.get? id with
  | some type => pure type
  | none => throw (.noType id)

/-- The frame pointer so many static links outward. -/
def frameAt : Nat → Expr
  | 0 => .temp Temp.fp
  | hops + 1 => .mem (frameAt hops)

def addressOf (ctx : Context) (id : NodeId) : LowerM Expr :=
  match ctx.layout.accesses.get? id with
  | none => throw (.noAccess id)
  | some (.here offset) => pure (.binop .add (.temp Temp.fp) (.int offset))
  | some (.outer hops offset) => pure (.binop .add (frameAt hops) (.int offset))
  | some (.global label) => pure (.data label)

/-- The static link that code at one depth passes to a function at another. -/
def staticLink (here callee : Nat) : LowerM Expr :=
  if callee = 1 then pure (.int 0)
  else
    match Word.succ here with
    | .error o => throw (.overflow o)
    | .ok inner =>
      if inner < callee then throw (.unreachableDepth here callee)
      else pure (frameAt (inner - callee))

/-- Holds of names of parameters. -/
def isParameter (ctx : Context) (id : NodeId) : Bool :=
  match (ctx.bindings.get? id).bind Binding.decl? |>.bind ctx.signatures.get? with
  | some (.param _) => true
  | _ => false

/-- The value of a name. An array that is not a parameter is its own address. -/
def nameValue (ctx : Context) (id : NodeId) : LowerM Expr := do
  let address ← addressOf ctx id
  let type ← typeOf ctx id
  return if type.isArray && !isParameter ctx id then address else .mem address

/-- The length and the element type of an indexed expression. -/
def arrayOf (ctx : Context) (id : NodeId) : LowerM (Int × Ty) := do
  match (← typeOf ctx id).arrayParts? with
  | some parts => return parts
  | none => throw (.notArray id)

/-- The address of an element. -/
def element (base index : Expr) (length : Int) (type : Ty) : LowerM Expr :=
  match type.sizeInWords.bind fun words => Word.mul words Word.bytes with
  | .ok size =>
    pure (.binop .add base (.binop .mul (.checkIndex index length) (.int size)))
  | .error o => throw (.overflow o)

def literal : Literal → Value
  | .integer n => .int n
  | .logical b => .logical b
  | .string s => .str s

def unary : UnaryOp → Expr → Expr
  | .plus, e => e
  | .minus, e => .binop .sub (.int 0) e
  | .not, e => .binop .eq e (.int 0)

/-- How an operator is lowered. -/
inductive Form where
  | direct (op : BinOp)
  | conjunction
  | disjunction
  | index

def form : BinaryOp → Form
  | .add => .direct .add
  | .sub => .direct .sub
  | .mul => .direct .mul
  | .div => .direct .div
  | .mod => .direct .mod
  | .eq => .direct .eq
  | .neq => .direct .ne
  | .lt => .direct .lt
  | .gt => .direct .gt
  | .leq => .direct .le
  | .geq => .direct .ge
  | .and => .conjunction
  | .or => .disjunction
  | .index => .index

/-- Puts the left operand into `t` and, if it does not decide, the right one. -/
def shortCircuit (conjunction : Bool) (l r : Expr) (t : Temp) (right done : String) : Expr :=
  .after
    (.seq
      [.move (.temp t) l,
       if conjunction then .cjump (.temp t) right done else .cjump (.temp t) done right,
       .label right,
       .move (.temp t) r,
       .label done])
    (.temp t)

def whileDo (cond body : Expr) (test enter exit : String) : Expr :=
  .after
    (.seq
      [.label test,
       .cjump cond enter exit,
       .label enter,
       .eval body,
       .jump test,
       .label exit])
    (.int 0)

/-- The limit and the increment are evaluated once, before the loop. -/
def forDo (counter low high step body : Expr) (limit increment : Temp) (test enter exit : String) :
    Expr :=
  .after
    (.seq
      [.move counter low,
       .move (.temp limit) high,
       .move (.temp increment) step,
       .label test,
       .cjump (.binop .lt counter (.temp limit)) enter exit,
       .label enter,
       .eval body,
       .move counter (.binop .add counter (.temp increment)),
       .jump test,
       .label exit])
    (.int 0)

def ifThen (cond value : Expr) (onTrue onFalse : String) : Expr :=
  .after
    (.seq
      [.cjump cond onTrue onFalse,
       .label onTrue,
       .eval value,
       .label onFalse])
    (.int 0)

def ifElse (cond thenValue elseValue : Expr) (t : Temp) (onTrue onFalse done : String) : Expr :=
  .after
    (.seq
      [.cjump cond onTrue onFalse,
       .label onTrue,
       .move (.temp t) thenValue,
       .jump done,
       .label onFalse,
       .move (.temp t) elseValue,
       .label done])
    (.temp t)

/-- Runs all items and gives the value of the last. -/
def block (items : List Expr) : Expr :=
  match items.getLast? with
  | none => .int 0
  | some last => .after (.seq (items.dropLast.map .eval)) last

/-- The label of a callee and the static link for it. -/
def callee (ctx : Context) (depth : Nat) (id : NodeId) : LowerM (String × Expr) :=
  match ctx.bindings.get? id with
  | none => throw (.unboundCall id)
  | some (.builtin b) => pure (b.name, .int 0)
  | some (.decl decl) =>
    match ctx.layout.frames.get? decl with
    | none => throw (.calleeWithoutFrame decl)
    | some frame => do return (frame.label, ← staticLink depth frame.depth)

mutual

/-- The value of an expression in a function at this depth. -/
def expr (ctx : Context) (depth : Nat) : Syntax.Expr → LowerM Expr
  | .absent site => throw (.notExpression site.id)
  | .hole site => throw (.placeholder site.id)
  | .literal _ l => pure (.const (literal l))
  | .name site _ => nameValue ctx site.id
  | .unary _ op e => do return unary op (← expr ctx depth e)
  | .binary _ op l r =>
    match form op with
    | .direct op => do
      let left ← expr ctx depth l
      let right ← expr ctx depth r
      return .binop op left right
    | .conjunction => do
      let left ← expr ctx depth l
      let right ← expr ctx depth r
      return shortCircuit true left right (← fresh) (← label) (← label)
    | .disjunction => do
      let left ← expr ctx depth l
      let right ← expr ctx depth r
      return shortCircuit false left right (← fresh) (← label) (← label)
    | .index => do
      let (length, type) ← arrayOf ctx l.id
      let base ← expr ctx depth l
      let index ← expr ctx depth r
      let address ← element base index length type
      return if type.isArray then address else .mem address
  | .call site _ args => do
    let (label, link) ← callee ctx depth site.id
    let (moves, temps) ← arguments ctx depth args
    return .after (.seq moves) (.call label (link :: temps))
  | .block _ items => do return block (← exprs ctx depth items)
  | .ifThen _ c t => do
    let cond ← expr ctx depth c
    let value ← expr ctx depth t
    return ifThen cond value (← label) (← label)
  | .ifElse _ c t e => do
    let cond ← expr ctx depth c
    let thenValue ← expr ctx depth t
    let onTrue ← label
    let onFalse ← label
    let elseValue ← expr ctx depth e
    let done ← label
    return ifElse cond thenValue elseValue (← fresh) onTrue onFalse done
  | .whileDo _ c b => do
    let test ← label
    let enter ← label
    let exit ← label
    let cond ← expr ctx depth c
    let body ← expr ctx depth b
    return whileDo cond body test enter exit
  | .forDo _ c lo hi st b => do
    let counter ← location ctx depth c
    let low ← expr ctx depth lo
    let high ← expr ctx depth hi
    let step ← expr ctx depth st
    let body ← expr ctx depth b
    let limit ← fresh
    let increment ← fresh
    return forDo counter low high step body limit increment (← label) (← label) (← label)
  | .scoped _ ds b => do
    let inits ← decls ctx depth ds
    let body ← expr ctx depth b
    return .after (.seq inits) body
  | .assign _ target v => do
    let value ← expr ctx depth v
    let dst ← location ctx depth target
    let t ← fresh
    return .after (.seq [.move (.temp t) value, .move dst (.temp t)]) (.temp t)

def exprs (ctx : Context) (depth : Nat) : List Syntax.Expr → LowerM (List Expr)
  | [] => return []
  | e :: es => do
    let first ← expr ctx depth e
    let rest ← exprs ctx depth es
    return first :: rest

/-- Arguments go into temporaries, one after the other, before the call. -/
def arguments (ctx : Context) (depth : Nat) : List Syntax.Expr → LowerM (List Stmt × List Expr)
  | [] => return ([], [])
  | e :: es => do
    let value ← expr ctx depth e
    let t ← fresh
    let (moves, temps) ← arguments ctx depth es
    return (.move (.temp t) value :: moves, .temp t :: temps)

/-- The memory word that an assignable expression denotes. -/
def location (ctx : Context) (depth : Nat) : Syntax.Expr → LowerM Expr
  | .name site _ => do return .mem (← addressOf ctx site.id)
  | .binary _ .index l r => do
    let (length, type) ← arrayOf ctx l.id
    let base ← expr ctx depth l
    let index ← expr ctx depth r
    return .mem (← element base index length type)
  | e => throw (.notAssignable e.id)

/-- The statements that a declaration adds to its block. A function adds none, but a chunk. -/
def decl (ctx : Context) (depth : Nat) : Decl → LowerM (List Stmt)
  | .var site _ _ (some init) => do
    let address ← addressOf ctx site.id
    let value ← expr ctx depth init
    return [.move (.mem address) value]
  | .function site _ _ _ body =>
    match ctx.layout.frames.get? site.id with
    | none => throw (.functionWithoutFrame site.id)
    | some frame => do
      let outer := (← get).nextTemp
      modify fun s => { s with nextTemp := Temp.firstFree }
      let value ← expr ctx frame.depth body
      modify fun s =>
        { s with
          nextTemp := outer
          chunks := s.chunks.push { frame, body := .move (.temp Temp.rv) value } }
      return []
  | _ => return []

def decls (ctx : Context) (depth : Nat) : List Decl → LowerM (List Stmt)
  | [] => return []
  | d :: ds => do
    let first ← decl ctx depth d
    let rest ← decls ctx depth ds
    return first ++ rest

end

/-- The code of a program: the initializers first, then the functions of the top level. -/
def program (ctx : Context) (definitions : List Decl) (entry : String) : LowerM TreeProgram := do
  let inits ← decls ctx ctx.layout.init.depth (definitions.filter Decl.isVar)
  let _ ← decls ctx ctx.layout.init.depth (definitions.filter Decl.isFunction)
  return {
    chunks := (← get).chunks.toList
    globals := ctx.layout.globals
    init := { frame := ctx.layout.init, body := .seq inits }
    entry }

end PinsBackend.Ir.Lowering

namespace PinsBackend

/-- Tree code for a program that is bound, typed and laid out. -/
def Syntax.Source.lower (source : Syntax.Source) (bindings : NodeTable Binding)
    (types : NodeTable Ty) (layout : Layout) (entry : String) : Except IrError Ir.TreeProgram :=
  let ctx : Ir.Lowering.Context := { signatures := source.signatures, bindings, types, layout }
  match Ir.Lowering.program ctx source.definitions entry {} with
  | .ok code _ => .ok code
  | .error e _ => .error e

end PinsBackend
