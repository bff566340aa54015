import PinsBackend.Proofs.Names.Clean
import PinsBackend.Proofs.Typing.Outcomes

/-! Types for all nodes of a program at once.

An assignment gives every node a type such that at each node the types of its parts come out as the
type of the node. Whether a given assignment is one can be seen node by node; the checker instead
computes types in the order in which they are needed, and remembers them. -/
namespace PinsBackend.Assignment

open Typing

/-! ## The rules -/

section

variable (a : Arena) (B : NodeTable Binding) (T : NodeId → Ty)

def context : Context := ⟨a.signatures, B⟩

/-- The type of a written type or of a declaration, from those it is made of. -/
def Declares (id : NodeId) (τ : Ty) : Arena.Kind → Prop
  | .type (.atom t) => τ = atomType t
  | .type (.array n element) => 0 < n ∧ τ = .array n (T element)
  | .type (.named _) => ∃ d, B.get? id = some (.decl d) ∧ τ = T d
  | .decl (.alias x t) => τ = .alias x (T t)
  | .decl (.param _ t) | .decl (.var _ t _) => τ = T t
  | .decl (.function _ params result _) => τ = .function (params.map T) (T result)
  | .expr _ => False

/-- The checks on the numbers that drive a loop. -/
def steps : List NodeId → CheckM Ty
  | [] => return .void
  | e :: es => do
    let _ ← expect .integer (T e) (a.site e)
    steps es

/-- The check on what a function returns. -/
def returns (result body : NodeId) : CheckM Unit :=
  if (T result).isAtomic then do
    let _ ← expect (T result) (T body) (a.site body)
  else
    return ()

/-- The type of an expression, from those of its parts. -/
def infer (id : NodeId) : Arena.Expr → CheckM Ty
  | .hole => return .error
  | .literal l => return literalType l
  | .name _ =>
    match (context a B).boundVar? id with
    | some d => return T d
    | none => return .error
  | .unary op e => do
    return if ← expect (unaryType op) (T e) (a.site e) then unaryType op else .error
  | .binary op l r => binaryType op (T l) (T r) (a.site l) (a.site r)
  | .call f args =>
    match B.get? id with
    | none => return .error
    | some (.builtin b) => applyType (a.site id) f b.signature (args.map T) (args.map a.site)
    | some (.decl d) =>
      match a.decl? d with
      | some (.function _ _ _ _) => applyType (a.site id) f (T d) (args.map T) (args.map a.site)
      | _ => do
        report (.notCallable f (a.position id))
        return .error
  | .block items => return (items.map T).getLastD .void
  | .ifThen c _ none => do
    let _ ← expect .logical (T c) (a.site c)
    return .void
  | .ifThen c t (some e) => do
    let _ ← expect .logical (T c) (a.site c)
    return branchType (T t) (T e)
  | .whileDo c _ => do
    let _ ← expect .logical (T c) (a.site c)
    return .void
  | .forDo counter low high step _ =>
    if ((context a B).boundVar? counter).isNone && !(T counter).isError then do
      report (.notAssignable (T counter) (a.position counter))
      steps a T [counter, low, high, step]
    else
      steps a T [counter, low, high, step]
  | .scoped _ body => return T body
  | .assign target value =>
    assignType (context a B) (a.site id) (a.exprTree 1 target) (T target) (T value) (a.site value)

/-- What is checked of a declaration of this type. -/
def accept (id : NodeId) (τ : Ty) : Arena.Decl → CheckM Unit
  | .var _ _ (some init) =>
    if !τ.isError && !τ.isAtomic then
      report (.notAssignable τ (a.position id))
    else do
      let _ ← expect τ (T init) (a.site init)
  | .function name _ result body =>
    if !(T result).isError && !(T result).isAtomic then do
      report (.invalidReturnType name (T result) (a.position id))
      returns a T result body
    else
      returns a T result body
  | .alias _ _ | .param _ _ | .var _ _ none => return ()

/-- The node has this type if its parts have the types that are assigned to them. -/
def Passes (id : NodeId) (τ : Ty) : Arena.Kind → Prop
  | .type t => Declares B T id τ (.type t)
  | .decl d => Declares B T id τ (.decl d) ∧ outcome (accept a T id τ d) = some ()
  | .expr e => outcome (infer a B T id e) = some τ

/-- Every node of the program has the type that is assigned to it. -/
def Assigns : Prop :=
  ∀ id node, a.Reached id → a.node? id = some node → Passes a B T id (T id) node.kind

end

variable {a : Arena} {B : NodeTable Binding} {T : NodeId → Ty}

theorem plain_steps (es : List NodeId) : Plain (steps a T es) := by
  induction es with
  | nil => exact .pure _
  | cons e es ih => exact .bind (plain_expect _ _ _) fun _ => ih

theorem outcome_steps {es : List NodeId} {τ : Ty} : outcome (steps a T es) = some τ ↔
    τ = .void ∧ ∀ e ∈ es, ∃ ok, outcome (expect .integer (T e) (a.site e)) = some ok := by
  induction es with
  | nil => simp [steps, eq_comm]
  | cons e es ih =>
    rw [steps, outcome_bind fun _ => plain_steps es, Option.bind_eq_some_iff, List.forall_mem_cons]
    simp only [ih, exists_and_left, and_left_comm, exists_and_right]

theorem plain_returns (result body : NodeId) : Plain (returns a T result body) :=
  .ite (.bind (plain_expect _ _ _) fun _ => .pure _) (.pure _)

theorem plain_infer (id : NodeId) (e : Arena.Expr) : Plain (infer a B T id e) := by
  have logical (c : NodeId) (τ : Ty) : Plain (do
      let _ ← expect .logical (T c) (a.site c)
      return τ) := .bind (plain_expect _ _ _) fun _ => .pure _
  cases e with
  | hole | literal | block | «scoped» => exact .pure _
  | name =>
    dsimp only [infer]
    split
    · exact .pure _
    · exact .pure _
  | unary => exact .bind (plain_expect _ _ _) fun _ => .pure _
  | binary => exact plain_binaryType _ _ _ _ _
  | call f args =>
    dsimp only [infer]
    split
    · exact .pure _
    · exact plain_applyType _ _ _ _ _
    · split
      · exact plain_applyType _ _ _ _ _
      · exact .bind (.report rfl) fun _ => .pure _
  | ifThen c t e =>
    cases e with
    | none => exact logical c _
    | some e => exact logical c _
  | whileDo c b => exact logical c _
  | forDo => exact .ite (.bind (.report rfl) fun _ => plain_steps _) (plain_steps _)
  | assign => exact plain_assignType _ _ _ _ _ _

theorem plain_accept (id : NodeId) (τ : Ty) (d : Arena.Decl) : Plain (accept a T id τ d) := by
  cases d with
  | «alias» | param => exact .pure _
  | var x t init =>
    cases init with
    | none => exact .pure _
    | some init => exact .ite (.report rfl) (.bind (plain_expect _ _ _) fun _ => .pure _)
  | function => exact .ite (.bind (.report rfl) fun _ => plain_returns _ _) (plain_returns _ _)

/-! ## Outcomes -/

theorem expect_isSome {expected found : Ty} {place : Syntax.Site} :
    (∃ ok, outcome (expect expected found place) = some ok) ↔ fits expected found = true := by
  rw [outcome_expect]
  cases fits expected found <;> simp

theorem outcome_condition (c : NodeId) (τ : Ty) :
    outcome (do
      let _ ← expect .logical (T c) (a.site c)
      return τ) = if fits .logical (T c) then some τ else none := by
  rw [outcome_bind fun _ => .pure _, outcome_expect]
  cases fits .logical (T c) <;> rfl

theorem outcome_unary (op : Syntax.UnaryOp) (id e : NodeId) :
    outcome (infer a B T id (.unary op e)) =
      if fits (unaryType op) (T e) then some (if (T e).isError then .error else unaryType op)
      else none := by
  simp only [infer]
  rw [outcome_bind fun _ => .pure _, outcome_expect]
  split
  · have sound : (unaryType op).isError = false := by cases op <;> rfl
    simp only [Option.bind_some, outcome_pure, sound]
    cases (T e).isError <;> rfl
  · rfl

theorem outcome_loop (id c lo hi st b : NodeId) :
    outcome (infer a B T id (.forDo c lo hi st b)) =
      if (((context a B).boundVar? c).isSome || (T c).isError) = true ∧
          ∀ e ∈ [c, lo, hi, st], fits .integer (T e) = true then some .void
      else none := by
  have all : outcome (steps a T [c, lo, hi, st]) =
      if ∀ e ∈ [c, lo, hi, st], fits .integer (T e) = true then some .void else none := by
    cases h : outcome (steps a T [c, lo, hi, st]) with
    | none =>
      rw [if_neg]
      intro all
      have some : outcome (steps a T [c, lo, hi, st]) = some .void :=
        outcome_steps.2 ⟨rfl, fun e he => expect_isSome.2 (all e he)⟩
      rw [h] at some
      cases some
    | some τ =>
      obtain ⟨rfl, all⟩ := outcome_steps.1 h
      rw [if_pos fun e he => expect_isSome.1 (all e he)]
  simp only [infer]
  by_cases bad : (((context a B).boundVar? c).isNone && !(T c).isError) = true
  · rw [if_pos bad, outcome_bind fun _ => plain_steps _, outcome_report]
    simp only [Bool.and_eq_true, Option.isNone_iff_eq_none, Bool.not_eq_true'] at bad
    simp [bad]
  · rw [if_neg bad, all]
    have fine : (((context a B).boundVar? c).isSome || (T c).isError) = true := by
      cases hb : (context a B).boundVar? c with
      | some => rfl
      | none => simpa [hb] using bad
    simp only [fine, true_and]

theorem outcome_initial (id : NodeId) (τ : Ty) (x : String) (t init : NodeId) :
    outcome (accept a T id τ (.var x t (some init))) =
      if τ.isError || τ.isAtomic && fits τ (T init) then some () else none := by
  simp only [accept]
  cases bad : τ.isError with
  | true =>
    rw [if_neg (by simp), outcome_bind fun _ => .pure _, outcome_expect]
    simp [fits, bad]
  | false =>
    cases atomic : τ.isAtomic with
    | false => simp [outcome_report]
    | true =>
      rw [if_neg (by simp), outcome_bind fun _ => .pure _, outcome_expect]
      cases fits τ (T init) <;> rfl

theorem outcome_result (id : NodeId) (τ : Ty) (f : String) (ps : List NodeId) (r b : NodeId) :
    outcome (accept a T id τ (.function f ps r b)) =
      if (T r).isError || (T r).isAtomic && fits (T r) (T b) then some () else none := by
  have atomic_sound : {τ : Ty} → τ.isError = true → τ.isAtomic = false := fun {τ} bad => by
    by_contra atomic
    rw [Bool.not_eq_false] at atomic
    rw [Ty.isError_of_isData (Ty.isData_of_isAtomic atomic)] at bad
    cases bad
  simp only [accept, returns]
  cases bad : (T r).isError with
  | true => simp [atomic_sound bad]
  | false =>
    cases atomic : (T r).isAtomic with
    | false =>
      rw [if_pos (by simp), outcome_bind fun _ => .ite (.bind (plain_expect _ _ _) fun _ => .pure _)
        (.pure _), outcome_report]
      rfl
    | true =>
      rw [if_neg (by simp), if_pos rfl, outcome_bind fun _ => .pure _, outcome_expect]
      cases fits (T r) (T b) <;> rfl

end PinsBackend.Assignment
