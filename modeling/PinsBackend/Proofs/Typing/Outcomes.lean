import PinsBackend.Proofs.Typing.Declared

/-! What the checks on a node come to.

The checks that compare types neither read nor extend the table of types: they report, or they have
an outcome, which depends on the types alone. -/
namespace PinsBackend

def TypeError.isCycle : TypeError → Bool
  | .cyclicType _ _ => true
  | _ => false

namespace Typing

open Syntax

variable {α β : Type}

/-- A computation that reports at most, and no cycle of aliases. -/
structure Plain (x : CheckM α) : Prop where
  run : ∀ σ, x σ = ((x {}).1, { σ with errors := σ.errors ++ (x {}).2.errors })
  acyclic : ∀ e ∈ (x {}).2.errors, e.isCycle = false

/-- The result of a computation that reports nothing. -/
def outcome (x : CheckM α) : Option α :=
  if (x {}).2.errors = #[] then some (x {}).1 else none

/-! ## Sequences -/

theorem Plain.pure (a : α) : Plain (pure a : CheckM α) where
  run σ := by simp [pure_run]
  acyclic := by simp [pure_run]

theorem Plain.report {e : TypeError} (other : e.isCycle = false) : Plain (report e) where
  run σ := by
    change ((), Typing.mk σ.types (σ.errors.push e)) = ((), ⟨σ.types, σ.errors ++ #[].push e⟩)
    simp
  acyclic e' he' := by
    have mem : e' ∈ #[].push e := he'
    obtain rfl : e' = e := by simpa using mem
    exact other

variable {x : CheckM α} {f : α → CheckM β}

theorem Plain.bind (hx : Plain x) (hf : ∀ a, Plain (f a)) : Plain (x >>= f) where
  run σ := by
    rw [bind_run, bind_run, hx.run σ, (hf _).run ⟨σ.types, _⟩, (hf _).run (x {}).2]
    simp [Array.append_assoc]
  acyclic e he := by
    rw [bind_run, (hf _).run (x {}).2, Array.mem_append] at he
    exact he.elim (hx.acyclic e) ((hf _).acyclic e)

theorem Plain.ite {p : Prop} [Decidable p] {y : CheckM α} (hx : Plain x) (hy : Plain y) :
    Plain (if p then x else y) := by
  split
  · exact hx
  · exact hy

/-- Where it has an outcome it changes nothing. -/
theorem Plain.run_eq (hx : Plain x) {a : α} (h : outcome x = some a) (σ : Typing) :
    x σ = (a, σ) := by
  unfold outcome at h
  split at h
  · next none =>
    rw [hx.run σ, none, ← Option.some.inj h]
    simp
  · cases h

theorem Plain.value (hx : Plain x) {a : α} (h : outcome x = some a) : (x {}).1 = a := by
  rw [hx.run_eq h]

@[simp] theorem outcome_pure (a : α) : outcome (pure a : CheckM α) = some a := rfl

theorem outcome_report (e : TypeError) : outcome (report e) = none := by
  unfold outcome
  rw [if_neg]
  exact Array.push_ne_empty

theorem outcome_bind (hf : ∀ a, Plain (f a)) :
    outcome (x >>= f) = (outcome x).bind fun a => outcome (f a) := by
  unfold outcome
  rw [bind_run, (hf _).run (x {}).2]
  by_cases none : (x {}).2.errors = #[]
  · simp [none]
  · simp [none]

/-! ## Comparisons -/

/-- The types are compatible, or one of them could not be found. -/
def fits (expected found : Ty) : Bool :=
  expected.isError || found.isError || expected.isCompatible found

theorem plain_expect (expected found : Ty) (place : Site) : Plain (expect expected found place) :=
  .ite (.pure _) (.ite (.pure _) (.bind (.report rfl) fun _ => .pure _))

theorem outcome_expect (expected found : Ty) (place : Site) :
    outcome (expect expected found place) =
      if fits expected found then some (!expected.isError && !found.isError) else none := by
  unfold expect fits
  cases expected.isError with
  | true => rfl
  | false =>
    cases found.isError with
    | true => rfl
    | false =>
      cases expected.isCompatible found with
      | true => rfl
      | false =>
        simp only [Bool.or_self, Bool.false_eq_true, ↓reduceIte]
        rw [outcome_bind fun _ => .pure _, outcome_report]
        rfl

theorem plain_expectAll (params args : List Ty) (sites : List Site) :
    Plain (expectAll params args sites) := by
  fun_induction expectAll params args sites with
  | case1 param params arg args site sites ih =>
    exact .bind (plain_expect _ _ _) fun _ => .bind ih fun _ => .pure _
  | case2 => exact .pure _

theorem plain_indexType (left right : Ty) (l r : Site) : Plain (indexType left right l r) := by
  unfold indexType
  refine .ite (.pure _) ?_
  split
  · exact .bind (.report rfl) fun _ => .bind (plain_expect _ _ _) fun _ => .pure _
  · exact .bind (plain_expect _ _ _) fun _ => .ite (.pure _) (.pure _)

theorem plain_sameType (operand left right : Ty) (l r : Site) :
    Plain (sameType operand left right l r) :=
  .bind (plain_expect _ _ _) fun _ => .bind (plain_expect _ _ _) fun _ => .pure _

theorem plain_comparisonType (left right : Ty) (l r : Site) :
    Plain (comparisonType left right l r) :=
  .ite (.pure _) (.ite (.bind (plain_expect _ _ _) fun _ => .pure _)
    (.bind (.report rfl) fun _ => .pure _))

theorem plain_binaryType (op : BinaryOp) (left right : Ty) (l r : Site) :
    Plain (binaryType op left right l r) :=
  .ite (plain_indexType _ _ _ _) (.ite (plain_sameType _ _ _ _ _) (.ite (plain_sameType _ _ _ _ _)
    (plain_comparisonType _ _ _ _)))

theorem plain_applyType (site : Site) (name : String) (signature : Ty) (args : List Ty)
    (sites : List Site) : Plain (applyType site name signature args sites) := by
  unfold applyType
  split
  · exact .ite (.bind (.report rfl) fun _ => .pure _)
      (.bind (plain_expectAll _ _ _) fun _ => .ite (.pure _) (.pure _))
  · exact .pure _

theorem plain_assignType (ctx : Context) (site : Site) (target : Expr) (targetType valueType : Ty)
    (value : Site) : Plain (assignType ctx site target targetType valueType value) :=
  .ite (.pure _) (.ite (.bind (.report rfl) fun _ => .pure _)
    (.bind (plain_expect _ _ _) fun _ => .pure _))

/-! ## Outcomes -/

theorem outcome_indexType (left right : Ty) (l r : Site) :
    outcome (indexType left right l r) =
      if left.isError then some .error
      else left.arrayParts?.bind fun parts =>
        if fits .integer right then some (if right.isError then .error else parts.2) else none := by
  unfold indexType
  split
  · rfl
  · cases left.arrayParts? with
    | none =>
      dsimp only
      rw [outcome_bind fun _ => .bind (plain_expect _ _ _) fun _ => .pure _, outcome_report]
      rfl
    | some parts =>
      obtain ⟨n, element⟩ := parts
      dsimp only [Option.bind_some]
      rw [outcome_bind fun _ => .ite (.pure _) (.pure _), outcome_expect]
      split
      · cases h : right.isError <;> simp [Ty.isError]
      · rfl

theorem outcome_sameType (operand left right : Ty) (l r : Site) :
    outcome (sameType operand left right l r) =
      if fits operand left && fits operand right then
        some (if operand.isError || left.isError || right.isError then .error else operand)
      else none := by
  unfold sameType
  rw [outcome_bind fun _ => .bind (plain_expect _ _ _) fun _ => .pure _, outcome_expect]
  cases fits operand left with
  | false => rfl
  | true =>
    simp only [↓reduceIte, Option.bind_some, Bool.true_and]
    rw [outcome_bind fun _ => .pure _, outcome_expect]
    cases fits operand right with
    | false => rfl
    | true =>
      simp only [↓reduceIte, Option.bind_some, outcome_pure]
      cases operand.isError <;> cases left.isError <;> cases right.isError <;> rfl

theorem outcome_comparisonType (left right : Ty) (l r : Site) :
    outcome (comparisonType left right l r) =
      if left.isError || right.isError then some .error
      else if left.isAtomic && left.isCompatible right then some .logical else none := by
  unfold comparisonType
  split
  · rfl
  · next sound =>
    simp only [Bool.or_eq_true, not_or, Bool.not_eq_true] at sound
    cases left.isAtomic with
    | false =>
      simp only [Bool.false_eq_true, ↓reduceIte, Bool.false_and]
      rw [outcome_bind fun _ => .pure _, outcome_report]
      rfl
    | true =>
      simp only [↓reduceIte, Bool.true_and]
      rw [outcome_bind fun _ => .pure _, outcome_expect]
      simp only [fits, sound.1, sound.2, Bool.or_self, Bool.false_or, Bool.not_false, Bool.and_self]
      split
      · rfl
      · rfl

theorem outcome_expectAll (params args : List Ty) (sites : List Site)
    (same : params.length = args.length) (places : args.length = sites.length) :
    outcome (expectAll params args sites) =
      if (params.zip args).all fun p => fits p.1 p.2 then
        some ((params.zip args).all fun p => !p.1.isError && !p.2.isError)
      else none := by
  fun_induction expectAll params args sites with
  | case1 param params arg args site sites ih =>
    rw [outcome_bind fun _ => .bind (plain_expectAll _ _ _) fun _ => .pure _, outcome_expect]
    rw [List.zip_cons_cons, List.all_cons, List.all_cons]
    cases fits param arg with
    | false => rfl
    | true =>
      simp only [↓reduceIte, Option.bind_some, Bool.true_and]
      rw [outcome_bind fun _ => .pure _, ih (by simpa using same) (by simpa using places)]
      split
      · rfl
      · rfl
  | case2 params args sites short =>
    cases params with
    | nil => rfl
    | cons param params =>
      cases args with
      | nil => cases same
      | cons arg args =>
        cases sites with
        | nil => cases places
        | cons site sites => exact (short _ _ _ _ _ _ rfl rfl rfl).elim

theorem outcome_applyType (site : Site) (name : String) (params : List Ty) (result : Ty)
    (args : List Ty) (sites : List Site) (places : args.length = sites.length) :
    outcome (applyType site name (.function params result) args sites) =
      if params.length = args.length ∧ ((params.zip args).all fun p => fits p.1 p.2) = true then
        some (if (params.zip args).all fun p =>
          !p.1.isError && !p.2.isError then result else .error)
      else none := by
  simp only [applyType]
  by_cases same : params.length = args.length
  · simp only [same, ne_eq, not_true_eq_false, ↓reduceIte, true_and]
    rw [outcome_bind fun _ => .ite (.pure _) (.pure _), outcome_expectAll _ _ _ same places]
    split
    · rw [Option.bind_some]
      split
      · rfl
      · rfl
    · rfl
  · simp only [same, ne_eq, not_false_eq_true, ↓reduceIte, false_and]
    rw [outcome_bind fun _ => .pure _, outcome_report]
    rfl

theorem outcome_assignType (ctx : Context) (site : Site) (target : Expr) (targetType valueType : Ty)
    (value : Site) :
    outcome (assignType ctx site target targetType valueType value) =
      if targetType.isError then some .error
      else if isLocation ctx target && targetType.isAtomic && fits targetType valueType then
        some (if valueType.isError then .error else targetType)
      else none := by
  unfold assignType
  split
  · rfl
  · next sound =>
    rw [Bool.not_eq_true] at sound
    by_cases place : (!isLocation ctx target || !targetType.isAtomic) = true
    · rw [if_pos place, outcome_bind fun _ => .pure _, outcome_report]
      rcases Bool.or_eq_true_iff.1 place with not | not
      · rw [Bool.not_eq_true'] at not
        rw [not]
        rfl
      · rw [Bool.not_eq_true'] at not
        rw [not, Bool.and_false]
        rfl
    · rw [if_neg place]
      simp only [Bool.or_eq_true, Bool.not_eq_true', not_or, Bool.not_eq_false] at place
      rw [place.1, place.2, Bool.true_and, Bool.true_and, outcome_bind fun _ => .pure _,
        outcome_expect]
      split
      · simp only [Option.bind_some, outcome_pure, sound]
        cases valueType.isError <;> rfl
      · rfl

end Typing

end PinsBackend
