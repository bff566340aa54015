import PinsBackend.Syntax.Arena

/-! Syntax as trees.

Reading an arena opens every node at every place that names it. Where a place names no node, or a
node of the wrong kind, the tree says so with `absent`. Each node carries its identity, so that the
tables of the passes can speak of it. -/
namespace PinsBackend

namespace Syntax

/-- The identity and the position of a node. -/
structure Site where
  id : NodeId
  position : Position
  deriving DecidableEq, Repr

inductive TypeExpr where
  | absent (site : Site)
  | atom (site : Site) (a : Atom)
  | array (site : Site) (size : Int) (element : TypeExpr)
  | named (site : Site) (name : String)

mutual

inductive Expr where
  | absent (site : Site)
  | hole (site : Site)
  | literal (site : Site) (l : Literal)
  | name (site : Site) (name : String)
  | unary (site : Site) (op : UnaryOp) (operand : Expr)
  | binary (site : Site) (op : BinaryOp) (left right : Expr)
  | call (site : Site) (name : String) (args : List Expr)
  | block (site : Site) (items : List Expr)
  | ifThen (site : Site) (condition thenBranch : Expr)
  | ifElse (site : Site) (condition thenBranch elseBranch : Expr)
  | whileDo (site : Site) (condition body : Expr)
  | forDo (site : Site) (counter low high step body : Expr)
  | scoped (site : Site) (decls : List Decl) (body : Expr)
  | assign (site : Site) (target value : Expr)

inductive Decl where
  | absent (site : Site)
  | alias (site : Site) (name : String) (type : TypeExpr)
  | function (site : Site) (name : String) (params : List Decl) (result : TypeExpr) (body : Expr)
  | param (site : Site) (name : String) (type : TypeExpr)
  | var (site : Site) (name : String) (type : TypeExpr) (init : Option Expr)

end

def TypeExpr.site : TypeExpr → Site
  | .absent site | .atom site _ | .array site _ _ | .named site _ => site

def Expr.site : Expr → Site
  | .absent site | .hole site | .literal site _ | .name site _ | .unary site _ _
  | .binary site _ _ _ | .call site _ _ | .block site _ | .ifThen site _ _ | .ifElse site _ _ _
  | .whileDo site _ _ | .forDo site _ _ _ _ _ | .scoped site _ _ | .assign site _ _ => site

def Decl.site : Decl → Site
  | .absent site | .alias site _ _ | .function site _ _ _ _ | .param site _ _
  | .var site _ _ _ => site

def Decl.isVar : Decl → Bool
  | .var _ _ _ _ => true
  | _ => false

def Decl.isFunction : Decl → Bool
  | .function _ _ _ _ _ => true
  | _ => false

def Expr.id (e : Expr) : NodeId := e.site.id

def Decl.id (d : Decl) : NodeId := d.site.id

/-- What a declaration says about types, for the references to it. -/
inductive Signature where
  | alias (site : Site) (name : String) (type : TypeExpr)
  | function (params : List NodeId) (result : TypeExpr)
  | param (type : TypeExpr)
  | var (type : TypeExpr)

/-- A program as trees. References reach declarations through their signatures, which include
those of declarations that stand nowhere in the trees. -/
structure Source where
  definitions : List Decl
  signatures : NodeTable Signature

end Syntax

namespace Arena

open Syntax (Site)

def site (a : Arena) (id : NodeId) : Site := ⟨id, a.position id⟩

/-- The tree of a type expression, of at most so many levels. -/
def typeTree (a : Arena) : Nat → NodeId → Syntax.TypeExpr
  | 0, id => .absent (a.site id)
  | depth + 1, id =>
    match a.type? id with
    | none => .absent (a.site id)
    | some (.atom t) => .atom (a.site id) t
    | some (.array size element) => .array (a.site id) size (a.typeTree depth element)
    | some (.named name) => .named (a.site id) name

mutual

/-- The tree of an expression, of at most so many levels. -/
def exprTree (a : Arena) : Nat → NodeId → Syntax.Expr
  | 0, id => .absent (a.site id)
  | depth + 1, id =>
    match a.expr? id with
    | none => .absent (a.site id)
    | some .hole => .hole (a.site id)
    | some (.literal l) => .literal (a.site id) l
    | some (.name x) => .name (a.site id) x
    | some (.unary op e) => .unary (a.site id) op (exprTree a depth e)
    | some (.binary op l r) => .binary (a.site id) op (exprTree a depth l) (exprTree a depth r)
    | some (.call f args) => .call (a.site id) f (args.map (exprTree a depth))
    | some (.block items) => .block (a.site id) (items.map (exprTree a depth))
    | some (.ifThen c t none) => .ifThen (a.site id) (exprTree a depth c) (exprTree a depth t)
    | some (.ifThen c t (some e)) =>
      .ifElse (a.site id) (exprTree a depth c) (exprTree a depth t) (exprTree a depth e)
    | some (.whileDo c body) => .whileDo (a.site id) (exprTree a depth c) (exprTree a depth body)
    | some (.forDo counter low high step body) =>
      .forDo (a.site id) (exprTree a depth counter) (exprTree a depth low) (exprTree a depth high)
        (exprTree a depth step) (exprTree a depth body)
    | some (.scoped decls body) =>
      .scoped (a.site id) (decls.map (declTree a depth)) (exprTree a depth body)
    | some (.assign target value) =>
      .assign (a.site id) (exprTree a depth target) (exprTree a depth value)

/-- The tree of a declaration, of at most so many levels. -/
def declTree (a : Arena) : Nat → NodeId → Syntax.Decl
  | 0, id => .absent (a.site id)
  | depth + 1, id =>
    match a.decl? id with
    | none => .absent (a.site id)
    | some (.alias name type) => .alias (a.site id) name (a.typeTree depth type)
    | some (.function name params result body) =>
      .function (a.site id) name (params.map (declTree a depth)) (a.typeTree depth result)
        (exprTree a depth body)
    | some (.param name type) => .param (a.site id) name (a.typeTree depth type)
    | some (.var name type init) =>
      .var (a.site id) name (a.typeTree depth type) (init.map (exprTree a depth))

end

def signature? (a : Arena) (id : NodeId) : Option Syntax.Signature :=
  match a.decl? id with
  | none => none
  | some (.alias name type) => some (.alias (a.site id) name (a.typeTree a.nodes.size type))
  | some (.function _ params result _) => some (.function params (a.typeTree a.nodes.size result))
  | some (.param _ type) => some (.param (a.typeTree a.nodes.size type))
  | some (.var _ type _) => some (.var (a.typeTree a.nodes.size type))

def signatures (a : Arena) : NodeTable Syntax.Signature :=
  (List.range a.nodes.size).foldl
    (fun table id => (a.signature? id).elim table (table.insert id)) .empty

/-- The trees of a program. A path without a cycle has at most as many levels as the arena has
nodes, so nothing is cut off. -/
def source (a : Arena) : Syntax.Source where
  definitions := a.definitions.map (a.declTree a.nodes.size)
  signatures := a.signatures

end Arena
end PinsBackend
