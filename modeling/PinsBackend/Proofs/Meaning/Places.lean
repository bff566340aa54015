import PinsBackend.Proofs.Meaning.Simulation

/-! Names and static links.

A name is looked up along the links of activations, while code follows as many links as there are
functions between the name and its declaration. Both come to the same activation, for the links of
an activation lead through the functions around its own. -/
namespace PinsBackend.Meaning

open Ir Kinds Safety
open Lowering (frameAt)
open Syntax (Env Level Source)

variable {stack : List Activation} {Γ : Env}

/-! ## Searching -/

/-- A search along links stops at the first function that is wanted. -/
theorem search_eq_follow {k : Option Nat} (linked : Linked stack k Γ) {wanted : Level → Bool}
    {hops : Nat} {l : Level} (here : Γ[hops]? = some l) (found : wanted l = true)
    (before : ∀ i < hops, ∀ m, Γ[i]? = some m → wanted m = false) {fuel : Nat}
    (enough : hops < fuel) :
    search stack wanted fuel k = follow stack hops k := by
  induction hops generalizing k Γ fuel with
  | zero =>
    obtain ⟨fuel, rfl⟩ : ∃ n, fuel = n + 1 := ⟨fuel - 1, by omega⟩
    cases Γ with
    | nil => cases here
    | cons m Γ =>
      cases k with
      | none => cases linked
      | some j =>
        obtain ⟨a, ha, rfl, -⟩ := linked
        obtain rfl : a.level = l := by simpa using here
        simp [search, follow, ha, found]
  | succ hops ih =>
    obtain ⟨fuel, rfl⟩ : ∃ n, fuel = n + 1 := ⟨fuel - 1, by omega⟩
    cases Γ with
    | nil => cases here
    | cons m Γ =>
      cases k with
      | none => cases linked
      | some j =>
        obtain ⟨a, ha, rfl, rest⟩ := linked
        have other : wanted a.level = false := before 0 (by omega) _ rfl
        have outward : follow stack 1 (some j) = a.link := by simp [follow, ha]
        have inner :=
          ih rest (by simpa using here)
          (fun i hi m hm => before (i + 1) (by omega) m (by simpa using hm))
          (show hops < fuel by omega)
        rw [follow_add, outward, ← inner]
        simp [search, ha, other]

/-- As links lead to older activations, there are no more of them than activations. -/
theorem length_le_of_linked
    (links : ∀ {k : Nat} {a : Activation}, stack[k]? = some a → ∀ j ∈ a.link, j < k) {k : Nat}
    (linked : Linked stack (some k) Γ) : Γ.length ≤ k + 1 := by
  induction Γ generalizing k with
  | nil => exact Nat.zero_le _
  | cons l Γ ih =>
    obtain ⟨a, ha, -, rest⟩ := linked
    cases hlink : a.link with
    | none =>
      rw [hlink] at rest
      cases Γ with
      | nil => simp
      | cons m Γ => cases rest
    | some j =>
      rw [hlink] at rest
      have older := links ha j hlink
      have := ih rest
      simp only [List.length_cons]
      omega

/-- A function runs in its environment, and memory holds the store. -/
structure Ready (W : World) (Γ : Env) (σ : Store) (s : Nested.State) : Prop where
  related : W.Relates σ s
  typed : Typed W.storage True σ
  linked : ∃ n, σ.stack.length = n + 1 ∧ Linked σ.stack (some n) Γ

/-- A search from the running activation. -/
theorem Ready.find {W : World} {σ : Store} {s : Nested.State} (h : Ready W Γ σ s)
    (wanted : Level → Bool) {hops : Nat} {l : Level} (here : Γ[hops]? = some l)
    (found : wanted l = true) (before : ∀ i < hops, ∀ m, Γ[i]? = some m → wanted m = false)
    {n : Nat} (running : σ.stack.length = n + 1) :
    find? σ.stack wanted = follow σ.stack hops (some n) := by
  obtain ⟨n', running', linked⟩ := h.linked
  obtain rfl : n = n' := by omega
  have short := length_le_of_linked h.typed.links linked
  have inside := (List.getElem?_eq_some_iff.1 here).1
  rw [find?, running, Nat.add_sub_cancel]
  exact search_eq_follow linked here found before (by omega)

/-! ## Variables -/

/-- The machine that runs the code of a program. -/
abbrev worldOf (source : Source) (ctx : Lowering.Context) (top : Int) (setting : Nested.Setting) :
    World where
  context := contextOf source ctx
  top := top
  label := fun l => (frameOf ctx.layout l).label
  setting := setting

/-- What gives the names and types of a program a meaning. -/
abbrev tables (source : Source) (ctx : Lowering.Context) : Context :=
  ⟨source, ctx.bindings, ctx.types⟩

/-- A place that is the same as long as the activations are, and the address that leads to it. -/
structure Found (W : World) (stack : List Activation) (x : RunM Place) (a : Expr) (p : Place) :
    Prop where
  located : ∀ {σ : Store}, σ.stack = stack → x σ = .ok p σ
  flat : a.isFlat = true
  address : ∀ {σ : Store} {m : Memory} {ts : Temps}, σ.stack = stack →
    Represents W.storage W.top σ m →
    Linear.eval m ts a = .ok (shown W.storage W.top stack (.place p))

theorem isFlat_frameAt (hops : Nat) : (frameAt hops).isFlat = true := by
  induction hops with
  | zero => rfl
  | succ hops ih => rwa [frameAt, Expr.isFlat_mem]

section

variable {d : NodeId} {s : Nested.State}

variable {source : Source} {ctx : Lowering.Context} {t : Layout.Tables}
  {sort : NodeId → Syntax.NodeSort}
  {top : Int} {setting : Nested.Setting} (h : Analysed source ctx t sort) {Γ : Env}

include h

/-- A variable belongs to one of the functions around. -/
theorem slot_unique (scope : source.Scope Γ) {i j : Nat} {l m : Level} (hl : Γ[i]? = some l)
    (hm : Γ[j]? = some m) (inner : d ∈ l.variables) (outer : d ∈ m.variables) : i = j := by
  have first := (h.slot_access scope hl inner).1
  have second := (h.slot_access scope hm outer).1
  have lt := (List.getElem?_eq_some_iff.1 hl).1
  have lt' := (List.getElem?_eq_some_iff.1 hm).1
  rw [first] at second
  have := Option.some.inj second
  omega

/-- Parameters of a level are declared as such, and its other variables are not. -/
theorem mem_params_iff {l : Level} (scope : source.Scope (l :: Γ)) (mem : d ∈ l.variables) :
    d ∈ l.params ↔ Kinds.isParameter source d = true := by
  constructor
  · intro param
    obtain ⟨Γ', decl, declared, rfl, isParam⟩ := h.param_declared scope param
    rw [h.isParameter_eq declared, isParam]
  · intro param
    refine (List.mem_append.1 mem).resolve_right fun inner => ?_
    obtain ⟨decl, declared, rfl, isVar⟩ := h.local_declared scope inner
    rw [h.isParameter_eq declared] at param
    cases decl with
    | var => cases param
    | _ => cases isVar

/-- The block of a variable is where its address leads. -/
theorem Ready.reaches (scope : source.Scope Γ) {σ : Store}
    (ready : Ready (worldOf source ctx top setting) Γ σ s) {a : Expr}
    (reached : Reached source ctx Γ d a) :
    ∃ p, Found (worldOf source ctx top setting) σ.stack (block (tables source ctx) d) a p ∧
      Block (contextOf source ctx).storage σ.stack p ∧ p.decl = d ∧ p.offset = 0 ∧
      isParameter σ.stack p = Kinds.isParameter source d := by
  cases reached with
  | global mem =>
    refine ⟨⟨none, d, 0⟩, ⟨fun _ => ?_, rfl, fun _ memory => ?_⟩, mem, rfl, rfl, ?_⟩
    · simp only [block, mem, if_true, pure_apply]
    · simp [Linear.eval, Memory.dataAddress, memory.labels d mem, shown, address]
    · obtain ⟨e, he, rfl⟩ := List.mem_map.1 mem
      obtain ⟨keep, isVar⟩ := List.mem_filter.1 he
      exact (h.global_type keep isVar).1.symm
  | @slot hops l level mem =>
    obtain ⟨n, running, linked⟩ := ready.linked
    obtain ⟨j, b, hj, hb, rfl⟩ := linked.level level
    have apart : d ∉ source.globals := fun global => by
      have access := (h.slot_access scope level mem).2
      rw [h.global_access global] at access
      cases access
    have found : find? σ.stack (fun l => decide (d ∈ l.variables)) = some j :=
      hj ▸ ready.find _ level (decide_eq_true mem) (fun i hi m hm => decide_eq_false fun other => by
        have := slot_unique h scope hm level other mem
        omega) running
    have inner : source.Scope (b.level :: Γ.drop (hops + 1)) := by
      have rest := scope.drop hops
      obtain ⟨lt, eq⟩ := List.getElem?_eq_some_iff.1 level
      rwa [List.drop_eq_getElem_cons lt, eq] at rest
    refine ⟨⟨some j, d, 0⟩, ⟨fun same => ?_, ?_, fun {σ' m ts} same memory => ?_⟩, ⟨b, hb, mem⟩,
      rfl, rfl, ?_⟩
    · simp only [block, apart, if_false, bind_apply, get_apply, same, found, pure_apply]
    · rw [Expr.isFlat_binop, isFlat_frameAt]
      rfl
    · have base : Linear.eval m ts (frameAt hops) = _ :=
        eval_frameAt memory (same ▸ ready.typed.laid) (same ▸ running) (same ▸ hj)
      simp only [Linear.eval, base, bind, Except.bind, Expr.int]
      rw [ofInt_add, same]
      simp [shown, address]
    · rw [Bool.eq_iff_iff, ← mem_params_iff h inner mem]
      simp [isParameter, hb]

/-! ## Links -/

/-- The static link of a call leads to the activation that the callee is linked to. -/
theorem Ready.links (scope : source.Scope Γ) {σ : Store}
    (ready : Ready (worldOf source ctx top setting) Γ σ s) {outer : Env} {link : Expr}
    (h' : LinkTo Γ outer link) :
    Linked σ.stack (linkFor σ.stack outer) outer ∧ link.isFlat = true ∧
      ∀ {m : Memory} {ts : Temps}, Represents (contextOf source ctx).storage top σ m →
        Linear.eval m ts link =
          .ok (linkWord (contextOf source ctx).storage top σ.stack (linkFor σ.stack outer)) := by
  obtain ⟨n, running, linked⟩ := ready.linked
  have flat : link.isFlat = true := by
    rcases h' with ⟨-, rfl⟩ | ⟨hops, -, -, rfl⟩
    · rfl
    · exact isFlat_frameAt hops
  obtain ⟨hops, target, leads, chain, eval⟩ := evaluates_link ready.typed.laid running linked h'
  have same : linkFor σ.stack outer = target := by
    rcases leads with ⟨rfl, rfl⟩ | ⟨ne, rfl, rfl⟩
    · rfl
    · obtain ⟨l, Δ, hΔ⟩ := List.exists_cons_of_ne_nil ne
      have level : Γ[hops]? = some l := by rw [← List.head?_drop, hΔ, List.head?_cons]
      rw [hΔ]
      refine ready.find _ level (decide_eq_true rfl)
        (fun i hi m hm => decide_eq_false fun other => ?_) running
      have places := (List.nodup_iff_getElem?_ne_getElem?.1 (h.functions_nodup scope)) i hops hi
        (by simpa using (List.getElem?_eq_some_iff.1 level).1)
      apply places
      rw [List.getElem?_map, List.getElem?_map, hm, level, Option.map_some, Option.map_some, other]
  exact ⟨same ▸ chain, flat, fun memory => same ▸ eval memory⟩

end

end PinsBackend.Meaning
