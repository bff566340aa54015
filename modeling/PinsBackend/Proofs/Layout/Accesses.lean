import PinsBackend.Proofs.Layout.Placement

/-! Which nodes get accesses.

Only variables, parameters and names do: what holds of all of them holds of every node that has an
access in the layout. -/
namespace PinsBackend.Layout

open Syntax

/-- Only these nodes have accesses. -/
def Plan.Only (S : NodeId → Prop) (p : Plan) : Prop :=
  ∀ id, (p.layout.accesses.get? id).isSome → S id

/-- The computation gives accesses to these nodes only. -/
def Marks {α : Type} (S : NodeId → Prop) (x : PlanM α) : Prop :=
  ∀ p r p', x p = .ok r p' → p.Only S → p'.Only S

section

variable {S : NodeId → Prop} {ctx : Context} {α β : Type} {ds : List Decl} {depth : Nat}

theorem Marks.bind {x : PlanM α} {f : α → PlanM β} (hx : Marks S x) (hf : ∀ r, Marks S (f r)) :
    Marks S (x >>= f) := by
  intro p r p' h only
  obtain ⟨r₁, p₁, first, rest⟩ := bind_eq_ok.1 h
  exact hf r₁ p₁ r p' rest (hx p r₁ p₁ first only)

theorem marks_of_same {x : PlanM α}
    (same : ∀ p r p', x p = .ok r p' → p'.layout.accesses = p.layout.accesses) : Marks S x := by
  intro p r p' h only id hid
  rw [same p r p' h] at hid
  exact only id hid

theorem marks_pure (r : α) : Marks S (pure r : PlanM α) :=
  marks_of_same fun p r p' h => by cases h; rfl

theorem marks_get : Marks S (get : PlanM Plan) :=
  marks_of_same fun p r p' h => by cases h; rfl

theorem marks_throw (e : LayoutError) : Marks S (throw e : PlanM α) :=
  marks_of_same fun p r p' h => by cases h

theorem marks_modify {f : Plan → Plan} (same : ∀ p, (f p).layout.accesses = p.layout.accesses) :
    Marks S (modify f : PlanM Unit) :=
  marks_of_same fun p r p' h => by cases h; exact same p

theorem marks_checked (x : Except Overflow α) : Marks S (checked x) :=
  marks_of_same fun p r p' h => by rw [(checked_eq_ok.1 h).2]

theorem only_insert {p : Plan} (only : p.Only S) {d : NodeId} (mem : S d) (access : Access) :
    ∀ id, ((p.layout.accesses.insert d access).get? id).isSome → S id := by
  intro id hid
  rw [NodeTable.get?_insert] at hid
  by_cases same : id = d
  · exact same ▸ mem
  · rw [if_neg same] at hid
    exact only id hid

theorem marks_place {d : NodeId} (mem : S d) (owner : Nat) (access : Access) :
    Marks S (place d owner access) := by
  intro p r p' h only
  cases h
  exact only_insert only mem access

theorem marks_nameRef {id : NodeId} (mem : S id) : Marks S (nameRef ctx id) := by
  intro p r p' h only
  obtain ⟨d, owner, access, access', -, -, -, -, rfl⟩ := nameRef_cases h
  exact only_insert only mem access'

theorem marks_wordsOf (d : NodeId) : Marks S (wordsOf ctx d) := by
  unfold wordsOf
  split
  · exact marks_checked _
  · exact marks_throw _

theorem marks_label (depth : Nat) (name : String) : Marks S (label depth name) :=
  marks_of_same fun p r p' h => by rw [(label_eq_ok h).2.2.2.2]

theorem marks_reserveLabel (l : String) : Marks S (reserveLabel l) :=
  marks_of_same fun p r p' h => by rw [(reserveLabel_eq_ok h).2.2.2.2]

theorem marks_placeGlobals (vars : ∀ d ∈ ds, d.isVar = true → S d.id) :
    Marks S (placeGlobals ctx ds) := by
  induction ds with
  | nil => exact marks_pure _
  | cons d ds ih =>
    have rest := ih fun e he => vars e (List.mem_cons_of_mem _ he)
    cases d with
    | var site x type init =>
      have own : S site.id := vars _ (List.mem_cons_self ..) rfl
      refine (marks_wordsOf _).bind fun w => (marks_checked _).bind fun size => ?_
      apply Marks.bind
      · apply marks_modify
        intro _
        rfl
      · intro _
        exact (marks_place own 0 _).bind fun _ => rest
    | absent | param | function => exact rest
    | «alias» => exact rest

theorem marks_placeLocals (vars : ∀ d ∈ ds, d.isVar = true → S d.id) :
    Marks S (placeLocals ctx depth ds) := by
  induction ds with
  | nil => exact marks_pure _
  | cons d ds ih =>
    have rest := ih fun e he => vars e (List.mem_cons_of_mem _ he)
    cases d with
    | var site x type init =>
      have own : S site.id := vars _ (List.mem_cons_self ..) rfl
      refine (marks_wordsOf _).bind fun w => marks_get.bind fun plan => ?_
      refine (marks_checked _).bind fun (offset, frame) => ?_
      apply Marks.bind
      · apply marks_modify
        intro _
        rfl
      · intro _
        exact (marks_place own depth _).bind fun _ => rest
    | absent | param | function => exact rest
    | «alias» => exact rest

theorem marks_placeParameters {index : Nat} (params : ∀ d ∈ ds, S d.id) :
    Marks S (placeParameters depth index ds) := by
  induction ds generalizing index with
  | nil => exact marks_pure _
  | cons d ds ih =>
    refine (marks_checked _).bind fun offset => ?_
    refine (marks_place (params d (List.mem_cons_self ..)) depth _).bind fun _ => ?_
    exact ih fun e he => params e (List.mem_cons_of_mem _ he)

/-- Names, variables and parameters are among these nodes. -/
def accessible (S : NodeId → Prop) : Facts where
  expr _ e :=
    match e with
    | .name site _ => S site.id
    | _ => True
  decl _ d := (d.isVar = true → S d.id) ∧ ∀ p ∈ d.params, S p.id

theorem exprs_marks {es : List Expr} (each : ∀ e ∈ es, Marks S (expr ctx e)) :
    Marks S (exprs ctx es) := by
  induction es with
  | nil => exact marks_pure _
  | cons e es ih => exact (each e (by simp)).bind fun _ => ih fun e he => each e (by simp [he])

theorem decls_marks (each : ∀ d ∈ ds, Marks S (decl ctx depth d)) :
    Marks S (decls ctx depth ds) := by
  induction ds with
  | nil => exact marks_pure _
  | cons d ds ih => exact (each d (by simp)).bind fun _ => ih fun d hd => each d (by simp [hd])

theorem all_marks : (∀ (e : Expr) Γ, e.Everywhere (accessible S) Γ → Marks S (expr ctx e)) ∧
    ∀ (d : Decl) Γ depth, d.Everywhere (accessible S) Γ → Marks S (decl ctx depth d) := by
  apply byParts
  · intro e items parts Γ h
    by_cases plain : e.isPlain = true
    · rw [expr_plain plain]
      exact exprs_marks fun c hc => parts c hc Γ ((Expr.everywhere_iff.1 h).2.2 c hc)
    cases e with
    | absent | hole => exact marks_throw _
    | name => exact marks_nameRef h
    | «scoped» _ ds b =>
      have each := Decl.everywhereList_iff.1 h.2.1
      exact marks_get.bind fun _ => (marks_placeLocals fun d hd => (each d hd).here.1).bind fun _ =>
        (decls_marks fun d hd => items d hd Γ _ (each d hd)).bind fun _ =>
          parts b (List.mem_singleton.2 rfl) Γ h.2.2
    | _ => exact absurd rfl plain
  · intro d _ body Γ depth h
    cases d with
    | var _ _ _ init =>
      cases init with
      | none => exact marks_pure _
      | some init => exact body _ rfl Γ h.2
    | function _ name =>
      refine (marks_label depth name).bind fun l => (marks_reserveLabel l).bind fun _ => ?_
      refine (marks_placeParameters h.1.2).bind fun _ => marks_get.bind fun outer => ?_
      refine (marks_checked _).bind fun frame => ?_
      apply Marks.bind
      · apply marks_modify
        intro _
        rfl
      · intro _
        refine (body _ rfl _ h.2.2).bind fun _ => ?_
        apply marks_modify
        intro _
        rfl
    | _ => exact marks_pure _

end

end PinsBackend.Layout

namespace PinsBackend.Syntax

open Layout

/-- Every node that has an access is a name, a variable or a parameter. -/
theorem Source.accessible_of_laid {source : Source} {S : NodeId → Prop}
    {bindings : NodeTable Binding} {types : NodeTable Ty} {layout : Layout}
    (everywhere : source.Everywhere (accessible S))
    (laid : source.layout bindings types = .ok layout) {id : NodeId}
    (h : (layout.accesses.get? id).isSome) : S id := by
  have marks : Marks S (Layout.program { bindings, types } source.definitions) := by
    refine (marks_placeGlobals fun d hd => (everywhere d hd).here.1).bind fun _ => ?_
    refine (decls_marks fun d hd => all_marks.2 d _ _
      (Decl.everywhereList_iff.1 everywhere.vars d hd)).bind fun _ => ?_
    apply Marks.bind
    · apply marks_modify
      intro _
      rfl
    · intro _
      exact decls_marks fun d hd => all_marks.2 d _ _
        (Decl.everywhereList_iff.1 everywhere.functions d hd)
  unfold Source.layout at laid
  split at laid
  · rename_i plan hp
    cases laid
    refine marks _ _ _ hp (fun id hid => ?_) id h
    have none : ({} : Plan).layout.accesses.get? id = none := NodeTable.get?_empty id
    simp [none] at hid
  · cases laid

end PinsBackend.Syntax
