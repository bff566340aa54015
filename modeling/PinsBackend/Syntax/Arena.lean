import PinsBackend.NodeTable
import PinsBackend.Syntax.Basic

/-! Syntax as it comes from a parser: an array of nodes that name their children by place.

Nothing is promised about the children: an identity may name no node at all, a node of another kind,
or a node that other parents name too. -/
namespace PinsBackend

namespace Arena

open Syntax

inductive TypeExpr where
  | atom (a : Atom)
  | array (size : Int) (element : NodeId)
  /-- A reference to a declared type. -/
  | named (name : String)
  deriving DecidableEq, Repr

inductive Decl where
  | alias (name : String) (type : NodeId)
  | function (name : String) (params : List NodeId) (result body : NodeId)
  | param (name : String) (type : NodeId)
  | var (name : String) (type : NodeId) (init : Option NodeId)
  deriving DecidableEq, Repr

inductive Expr where
  | literal (l : Literal)
  | name (name : String)
  | unary (op : UnaryOp) (operand : NodeId)
  | binary (op : BinaryOp) (left right : NodeId)
  | call (name : String) (args : List NodeId)
  | block (items : List NodeId)
  | ifThen (condition thenBranch : NodeId) (elseBranch : Option NodeId)
  | whileDo (condition body : NodeId)
  | forDo (counter low high step body : NodeId)
  | scoped (decls : List NodeId) (body : NodeId)
  | assign (target value : NodeId)
  /-- The placeholder that parser recovery puts in. -/
  | hole
  deriving DecidableEq, Repr

inductive Kind where
  | decl (d : Decl)
  | expr (e : Expr)
  | type (t : TypeExpr)
  deriving DecidableEq, Repr

def Decl.name : Decl → String
  | .alias name _ | .function name _ _ _ | .param name _ | .var name _ _ => name

structure Node where
  position : Position
  kind : Kind
  deriving DecidableEq, Repr

end Arena

structure Arena where
  nodes : Array Arena.Node := #[]
  /-- The top-level declarations. -/
  definitions : List NodeId := []
  deriving DecidableEq, Repr

namespace Arena

def node? (a : Arena) (id : NodeId) : Option Node := a.nodes[id]?

/-- The position of a node, and the zero position of an unknown one. -/
def position (a : Arena) (id : NodeId) : Position :=
  (a.node? id).elim {} Node.position

def decl? (a : Arena) (id : NodeId) : Option Decl :=
  match a.node? id with
  | some ⟨_, .decl d⟩ => some d
  | _ => none

def expr? (a : Arena) (id : NodeId) : Option Expr :=
  match a.node? id with
  | some ⟨_, .expr e⟩ => some e
  | _ => none

def type? (a : Arena) (id : NodeId) : Option TypeExpr :=
  match a.node? id with
  | some ⟨_, .type t⟩ => some t
  | _ => none

end Arena

/-- An error that the parser reports. -/
structure SyntaxError where
  message : String
  position : Position
  deriving DecidableEq, Repr

def SyntaxError.text (e : SyntaxError) : String :=
  "syntax error at " ++ e.position.text ++ ": " ++ e.message

/-- What a parser hands over: a possibly partial arena, and what was wrong with the text. -/
structure Parsed where
  arena : Arena
  errors : List SyntaxError := []
  deriving DecidableEq, Repr

end PinsBackend
