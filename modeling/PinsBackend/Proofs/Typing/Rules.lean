import Mathlib.Data.List.Forall2
import PinsBackend.Proofs.Syntax.Traversal
import PinsBackend.Proofs.Typing.Types
import PinsBackend.Typing.Check

/-! The typing rules of trees.

`wellTyped` says for each node which types its parts have and which type it gets. -/
namespace PinsBackend

/-- Types of expressions: those of values, and `void`. -/
def Ty.IsResult (τ : Ty) : Prop := τ.isData = true ∨ τ = .void

theorem Ty.IsResult.isError {τ : Ty} (h : τ.IsResult) : τ.isError = false := by
  rcases h with h | rfl
  · exact isError_of_isData h
  · rfl

namespace Syntax

/-- The node has this type, up to aliases. -/
def Has (T : NodeTable Ty) (id : NodeId) (expected : Ty) : Prop :=
  ∃ τ, T.get? id = some τ ∧ expected.Same τ

/-- The type of the function or built-in that a call is bound to. -/
def CalleeType (bindings : NodeTable Binding) (T : NodeTable Ty) (id : NodeId) (params : List Ty)
    (result : Ty) : Prop :=
  (∃ b, bindings.get? id = some (.builtin b) ∧ b.signature = .function params result) ∨
    ∃ d, bindings.get? id = some (.decl d) ∧ T.get? d = some (.function params result)

theorem CalleeType.of_decl {bindings : NodeTable Binding} {T : NodeTable Ty} {id d : NodeId}
    {params : List Ty} {result : Ty} (h : CalleeType bindings T id params result)
    (bound : bindings.get? id = some (.decl d)) : T.get? d = some (.function params result) := by
  rcases h with ⟨b, bound', -⟩ | ⟨d', bound', type⟩
  · rw [bound] at bound'
    cases bound'
  · rw [bound] at bound'
    cases bound'
    exact type

/-- The rule of an operator, for the types of its operands. -/
def OperatorRule (op : BinaryOp) (left right τ : Ty) : Prop :=
  if op = .index then (∃ n, left.arrayParts? = some (n, τ)) ∧ Ty.integer.Same right
  else if op.isArithmetic then Ty.integer.Same left ∧ Ty.integer.Same right ∧ τ = .integer
  else if op.isLogical then Ty.logical.Same left ∧ Ty.logical.Same right ∧ τ = .logical
  else left.isAtomic = true ∧ left.Same right ∧ τ = .logical

/-- The typing rule of each construct. -/
def Rule (bindings : NodeTable Binding) (T : NodeTable Ty) : Expr → Ty → Prop
  | .absent _, _ | .hole _, _ => False
  | .literal _ l, τ => τ = Typing.literalType l
  | .name site _, τ => ∃ d, bindings.get? site.id = some (.decl d) ∧ T.get? d = some τ
  | .unary _ op e, τ => Has T e.id (Typing.unaryType op) ∧ τ = Typing.unaryType op
  | .binary _ op l r, τ => ∃ left right, T.get? l.id = some left ∧ T.get? r.id = some right ∧
    OperatorRule op left right τ
  | .call site _ args, τ => ∃ params, CalleeType bindings T site.id params τ ∧
    List.Forall₂ (fun arg p => Has T arg.id p) args params
  | .block _ items, τ =>
    match items.getLast? with
    | none => τ = .void
    | some last => T.get? last.id = some τ
  | .ifThen _ c _, τ => Has T c.id .logical ∧ τ = .void
  | .ifElse _ c t e, τ => Has T c.id .logical ∧ ∃ a b, T.get? t.id = some a ∧ T.get? e.id = some b ∧
    τ = Typing.branchType a b
  | .whileDo _ c _, τ => Has T c.id .logical ∧ τ = .void
  | .forDo _ c lo hi st _, τ => (∃ d, bindings.get? c.id = some (.decl d)) ∧ Has T c.id .integer ∧
    Has T lo.id .integer ∧ Has T hi.id .integer ∧ Has T st.id .integer ∧ τ = .void
  | .scoped _ _ b, τ => T.get? b.id = some τ
  | .assign _ t v, τ => T.get? t.id = some τ ∧ τ.isAtomic = true ∧ Has T v.id τ

/-- Every node has a type by the rules. -/
def wellTyped (bindings : NodeTable Binding) (T : NodeTable Ty) : Facts where
  expr _ e := ∃ τ, T.get? e.id = some τ ∧ τ.IsResult ∧ Rule bindings T e τ
  decl _ d :=
    match d with
    | .absent _ | .alias _ _ _ => True
    | .param site _ _ | .var site _ _ none => ∃ τ, T.get? site.id = some τ ∧ τ.isData = true
    | .var site _ _ (some init) =>
      ∃ τ, T.get? site.id = some τ ∧ τ.isAtomic = true ∧ Has T init.id τ
    | .function site _ params _ body => ∃ ps r, T.get? site.id = some (.function ps r) ∧
      r.isAtomic = true ∧ Has T body.id r ∧
      List.Forall₂ (fun p τ => T.get? (Decl.id p) = some τ ∧ τ.isData = true) params ps

end Syntax

end PinsBackend
