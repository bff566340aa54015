import PinsBackend.Names.Resolution
import PinsBackend.Proofs.Syntax.Traversal

/-! What references are bound to.

In a program without name errors every reference has its binding in the table, and the declaration
it is bound to belongs to one of the functions around the reference or to the top level. -/
namespace PinsBackend.Resolution

open Syntax

variable {fs : List Finding}

/-! ## The table of bindings -/

def Finding.bound? : Finding → Option NodeId
  | .bound id _ => some id
  | .error _ => none

/-- The references that the findings bind. -/
def boundIds (findings : List Finding) : List NodeId := findings.filterMap Finding.bound?

@[simp] theorem boundIds_nil : boundIds [] = [] := rfl

@[simp] theorem boundIds_bound (id : NodeId) (b : Binding) (fs : List Finding) :
    boundIds (.bound id b :: fs) = id :: boundIds fs := rfl

@[simp] theorem boundIds_error (e : NameError) (fs : List Finding) :
    boundIds (.error e :: fs) = boundIds fs := rfl

@[simp] theorem boundIds_append (fs gs : List Finding) :
    boundIds (fs ++ gs) = boundIds fs ++ boundIds gs := by simp [boundIds]

theorem get?_record (t : NodeTable Binding) (f : Finding) (id : NodeId) :
    (f.record t).get? id = (t.get? id).or (if f.bound? = some id then
      (match f with | .bound _ b => some b | .error _ => none) else none) := by
  cases f with
  | error e => simp [Finding.record, Finding.bound?]
  | bound j b =>
    simp only [Finding.record, NodeTable.get?_insert, Finding.bound?, Option.some.injEq]
    by_cases h : id = j
    · subst h
      simp
    · simp [h, Ne.symm h]

/-- The table has the binding of each reference that is bound once. -/
theorem get?_ofFindings (nodup : (boundIds fs).Nodup) {id : NodeId} {b : Binding}
    (h : .bound id b ∈ fs) : (ofFindings fs).bindings.get? id = some b := by
  have fold : ∀ (fs : List Finding) (t : NodeTable Binding), (boundIds fs).Nodup →
      (t.get? id = some b ∨ t.get? id = none ∧ .bound id b ∈ fs) →
      (fs.foldl Finding.record t).get? id = some b := by
    intro fs
    induction fs with
    | nil =>
      rintro t - (ht | ⟨-, hf⟩)
      · exact ht
      · cases hf
    | cons f fs ih =>
      intro t nodup ht
      rw [List.foldl_cons]
      have tail : (boundIds fs).Nodup := by
        cases f with
        | error e => exact nodup
        | bound j b => exact (List.nodup_cons.1 nodup).2
      apply ih _ tail
      rw [get?_record]
      rcases ht with ht | ⟨ht, hf⟩
      · simp [ht]
      · rcases List.mem_cons.1 hf with rfl | later
        · simp [ht, Finding.bound?]
        · refine .inr ⟨?_, later⟩
          -- the entry for `id` is still to come, so this finding is about another reference
          have other : f.bound? ≠ some id := by
            intro heq
            cases f with
            | error e => cases heq
            | bound j c =>
              cases heq
              exact (List.nodup_cons.1 nodup).1 (List.mem_filterMap.2 ⟨.bound _ b, later, rfl⟩)
          simp [ht, other]
  exact fold fs .empty nodup (.inr ⟨by simp, h⟩)

/-- The table has bindings of references only that the findings bind. -/
theorem mem_boundIds_of_get? {id : NodeId} {b : Binding}
    (h : (ofFindings fs).bindings.get? id = some b) : id ∈ boundIds fs := by
  have fold : ∀ (fs : List Finding) (t : NodeTable Binding),
      (fs.foldl Finding.record t).get? id = some b → id ∈ boundIds fs ∨ t.get? id = some b := by
    intro fs
    induction fs with
    | nil => exact fun t h => .inr h
    | cons f fs ih =>
      intro t h
      rw [List.foldl_cons] at h
      cases f with
      | error e => exact ih t h
      | bound j c =>
        rcases ih _ h with later | now
        · exact .inl (List.mem_cons_of_mem _ later)
        · by_cases same : id = j
          · exact .inl (same ▸ List.mem_cons_self)
          · simp only [Finding.record, NodeTable.get?_insert, same, ↓reduceIte] at now
            exact .inr now
  exact (fold fs .empty h).resolve_right (by simp)

theorem boundIds_declare (chain : ScopeChain) (order : Nat) (ds : List Decl) :
    boundIds (declare chain order ds).2 = [] := by
  induction ds generalizing chain order with
  | nil => rfl
  | cons d ds ih =>
    unfold declare
    split
    · exact ih chain (order + 1)
    · split
      · exact ih _ (order + 1)
      · simpa using ih chain (order + 1)

/-! ## What scopes hold -/

theorem lookup_cons (scope : Scope) (outer : ScopeChain) (name : String) :
    ScopeChain.lookup (scope :: outer) name = (scope.find? name).or (outer.lookup name) := by
  simp [ScopeChain.lookup, List.findSome?_cons]
  cases scope.find? name <;> rfl

/-- The names of declarations that enter a scope without a report are distinct. -/
theorem declare_names {scope : Scope} {outer : ScopeChain} {order : Nat} {ds : List Decl}
    (clean : (declare (scope :: outer) order ds).2 = []) :
    ((ds.filterMap declared?).map Prod.snd).Nodup ∧
      ∀ name ∈ (ds.filterMap declared?).map Prod.snd, scope.entries.lookup name = none := by
  induction ds generalizing scope order with
  | nil => simp
  | cons d ds ih =>
    rw [declare] at clean
    cases hd : declared? d with
    | none =>
      simp only [hd] at clean
      rw [List.filterMap_cons_none hd]
      exact ih clean
    | some found =>
      obtain ⟨kind, name⟩ := found
      simp only [hd, ScopeChain.declare] at clean
      rw [List.filterMap_cons_some hd, List.map_cons, List.nodup_cons]
      cases hl : scope.entries.lookup name with
      | some previous => simp [hl] at clean
      | none =>
        simp only [hl] at clean
        obtain ⟨distinct, unused⟩ := ih clean
        have apart {other : String} (h : other ∈ (ds.filterMap declared?).map Prod.snd) :
            other ≠ name ∧ scope.entries.lookup other = none := by
          have free := unused other h
          rw [List.lookup_cons] at free
          by_cases same : other = name
          · simp [same] at free
          · rw [beq_eq_false_iff_ne.2 same] at free
            exact ⟨same, free⟩
        refine ⟨⟨fun hmem => (apart hmem).1 rfl, distinct⟩, fun other hmem => ?_⟩
        rcases List.mem_cons.1 hmem with rfl | hmem
        · exact hl
        · exact (apart hmem).2

end PinsBackend.Resolution

namespace PinsBackend.Syntax

/-! ## What names mean at a place -/

namespace Source

/-- A variable or parameter that code in this environment can reach. -/
def IsVariable (source : Source) (Γ : Env) (d : NodeId) : Prop :=
  (d ∈ source.globals ∨ ∃ (i : Nat) (l : Level), Γ[i]? = some l ∧ d ∈ l.variables) ∧
    ∃ Γ' decl, (Γ', decl) ∈ source.declarations ∧ decl.id = d ∧
      (decl.isVar = true ∨ decl.isParam = true)

/-- A function that stands in this environment or around it. -/
def IsFunction (source : Source) (Γ : Env) (d : NodeId) : Prop :=
  ∃ Γ' decl, Γ' <:+ Γ ∧ (Γ', decl) ∈ source.declarations ∧ decl.id = d ∧ decl.isFunction = true

def IsAlias (source : Source) (d : NodeId) : Prop :=
  ∃ Γ' site x type, (Γ', .alias site x type) ∈ source.declarations ∧ site.id = d

/-- A name of the built-ins that no declaration of the top level hides. -/
def IsBuiltin (source : Source) (b : Builtin) : Prop :=
  ∀ d ∈ source.definitions, ∀ kind, Resolution.declared? d ≠ some (kind, b.name)

end Source

/-- Every named type is bound to an alias. -/
def TypeExpr.IsBound (source : Source) (bindings : NodeTable Binding) : TypeExpr → Prop
  | .absent _ | .atom _ _ => True
  | .array _ _ element => element.IsBound source bindings
  | .named site _ => ∃ d, bindings.get? site.id = some (.decl d) ∧ source.IsAlias d

/-- Every reference is bound to something that can be reached from it. -/
def bound (source : Source) (bindings : NodeTable Binding) : Facts where
  expr Γ e :=
    match e with
    | .name site _ => ∃ d, bindings.get? site.id = some (.decl d) ∧ source.IsVariable Γ d
    | .call site _ _ =>
      (∃ b, bindings.get? site.id = some (.builtin b) ∧ source.IsBuiltin b) ∨
        ∃ d, bindings.get? site.id = some (.decl d) ∧
          (source.IsVariable Γ d ∨ source.IsFunction Γ d)
    | _ => True
  decl _ d := ∀ type, d.type? = some type → type.IsBound source bindings

open Resolution

/-- In a program without name errors the names of the top level are distinct. -/
theorem Source.names_nodup {source : Source} (clean : source.resolve.errors = []) :
    ((source.definitions.filterMap declared?).map Prod.snd).Nodup := by
  have silent : (declare (ScopeChain.push [root]) 0 source.definitions).2 = [] := by
    rw [List.eq_nil_iff_forall_not_mem]
    intro f hf
    cases f with
    | error e =>
      have none := List.filterMap_eq_nil_iff.1 clean _ (List.mem_append_left _ hf)
      cases none
    | bound id b =>
      have bound : id ∈ boundIds (declare (ScopeChain.push [root]) 0 source.definitions).2 :=
        List.mem_filterMap.2 ⟨_, hf, rfl⟩
      rw [boundIds_declare] at bound
      cases bound
  exact (declare_names silent).1

end PinsBackend.Syntax
