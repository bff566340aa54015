import PinsBackend.Proofs.Typing.Completeness

/-! The checker visits every node of a program.

Whatever the program is, in the end each of its expressions and declarations has a type. A condition
on the state of the checker holds in the end if it survives reports, the types of expressions, and
the typing of one declaration. -/
namespace PinsBackend.Assignment

open Relation
open Typing Lexical

variable {roots : List NodeId} {decl : Arena.Decl}

variable {a : Arena} {B : NodeTable Binding} {α β : Type}

/-- A condition that survives a report, unless it is on a cycle, the type of an expression, and the
typing of a declaration of the program. -/
structure Stable (a : Arena) (B : NodeTable Binding) (I : Typing → Prop) : Prop where
  report : ∀ {σ e}, e.isCycle = false → I σ → I { σ with errors := σ.errors.push e }
  expr : ∀ {σ id τ}, (a.expr? id).isSome = true → I σ → I { σ with types := σ.types.insert id τ }
  decl : ∀ {d}, a.Reached d → (a.decl? d).isSome = true → Keeps I ((context a B).declType d)

theorem stable_of_lasting {J : Typing → Prop} (h : Lasting J) : Stable a B J :=
  ⟨fun _ => h.report, fun _ => h.record, fun _ _ => h.declType _ _ _⟩

/-- The computation types what lies under these nodes, written types apart. -/
structure Visits (a : Arena) (B : NodeTable Binding) (x : CheckM α) (roots : List NodeId) :
    Prop where
  keeps : ∀ {I}, Stable a B I → Keeps I x
  records : ∀ {root id}, root ∈ roots → ReflTransGen a.Child root id → a.type? id = none →
    ∀ σ, Recorded (x σ).2 id

theorem Visits.recorded {x : CheckM α} (h : Visits a B x roots) {id : NodeId} :
    Keeps (fun σ => Recorded σ id) x :=
  h.keeps (stable_of_lasting (lasting_recorded id))

theorem Visits.plain {x : CheckM α} (hx : Plain x) : Visits a B x [] where
  keeps {I} stable σ holds := by
    have all (es : List TypeError) (other : ∀ e ∈ es, e.isCycle = false) : ∀ {σ : Typing}, I σ →
        I { σ with errors := σ.errors ++ es.toArray } := by
      induction es with
      | nil => simp
      | cons e es ih =>
        intro σ holds
        have rest :=
          ih (fun e he => other e (by simp [he])) (stable.report (other e (by simp)) holds)
        simpa using rest
    rw [hx.run σ]
    simpa using all (x {}).2.errors.toList (fun e he => hx.acyclic e (by simpa using he)) holds
  records := nofun

theorem Visits.bind {x : CheckM α} {f : α → CheckM β} {r s : List NodeId}
    (hx : Visits a B x r) (hf : ∀ v, Visits a B (f v) s) : Visits a B (x >>= f) (r ++ s) where
  keeps stable σ holds := (hf _).keeps stable _ (hx.keeps stable σ holds)
  records mem path other σ := by
    rcases List.mem_append.1 mem with mem | mem
    · exact (hf _).recorded _ (hx.records mem path other σ)
    · exact (hf _).records mem path other _

theorem Visits.map {x : CheckM α} (hx : Visits a B x roots) (f : α → β) :
    Visits a B (x >>= fun v => pure (f v)) roots := by
  simpa only [List.append_nil] using hx.bind fun v => .plain (.pure (f v))

theorem Visits.ite {p : Prop} [Decidable p] {x y : CheckM α} (hx : Visits a B x roots)
    (hy : Visits a B y roots) : Visits a B (if p then x else y) roots := by
  split
  · exact hx
  · exact hy

/-- A part whose type is compared with an expected one. -/
theorem Visits.checked {x : CheckM Ty} {y : CheckM α} {r s : List NodeId} {expected : Ty}
    {site : Syntax.Site} (hx : Visits a B x r) (hy : Visits a B y s) :
    Visits a B (do
      let found ← x
      let _ ← expect expected found site
      y) (r ++ s) :=
  hx.bind fun _ => .bind (.plain (plain_expect _ _ _)) fun _ => hy

theorem Visits.typed {x : CheckM Ty} {id : NodeId} {e : Arena.Expr} (he : a.expr? id = some e)
    (hx : Visits a B x roots) (all : ∀ p ∈ (Arena.Kind.expr e).children, p.2 ∈ roots) :
    Visits a B (typed (a.site id) x) [id] where
  keeps stable σ holds := stable.expr (by simp [Arena.site, he]) (hx.keeps stable σ holds)
  records {root j} mem path other σ := by
    obtain rfl := List.mem_singleton.1 mem
    rcases ReflTransGen.cases_head path with rfl | ⟨c, ⟨node, hnode, child⟩, rest⟩
    · exact recorded_insert.2 (.inl rfl)
    · obtain ⟨position, hnode'⟩ := Arena.node?_of_expr? he
      rw [hnode] at hnode'
      cases hnode'
      obtain ⟨p, hp, rfl⟩ := List.mem_map.1 child
      exact recorded_insert.2 (.inr (hx.records (all p hp) rest other σ))

/-! ## Declarations -/

theorem visits_declType {d : NodeId} (hd : a.decl? d = some decl) (reached : a.Reached d) :
    Visits a B ((context a B).declType d) [] :=
  ⟨fun stable => stable.decl reached (by simp [hd]), nofun⟩

theorem Visits.declared (tree : a.IsTreeShaped) {d : NodeId} (hd : a.decl? d = some decl)
    (reached : a.Reached d) {f : Ty → CheckM α} (hf : ∀ τ, Visits a B (f τ) roots)
    (all : ∀ p ∈ (Arena.Kind.decl decl).children, p.1 ≠ .type → p.2 ∈ roots) :
    Visits a B ((context a B).declType d >>= f) [d] where
  keeps := ((visits_declType hd reached).bind hf).keeps
  records {root id} mem path other σ := by
    obtain rfl := List.mem_singleton.1 mem
    rcases ReflTransGen.cases_head path with rfl | ⟨c, ⟨node, hnode, child⟩, rest⟩
    · obtain ⟨s, hs⟩ : ∃ s, (context a B).signatures.get? root = some s := by
        have signature := Arena.get?_signatures (a := a) root
        simp only [Arena.signature?, hd] at signature
        cases decl with
        | «alias» | function | param | var => exact ⟨_, signature⟩
      exact (hf _).recorded _ (recorded_declType hs σ)
    · obtain ⟨position, hnode'⟩ := Arena.node?_of_decl? hd
      rw [hnode] at hnode'
      cases hnode'
      obtain ⟨⟨role, c⟩, hp, rfl⟩ := List.mem_map.1 child
      by_cases isType : role = .type
      · subst isType
        obtain ⟨type, htype⟩ := type_under tree (tree.type hnode hp) rest
        simp [other] at htype
      · exact (hf _).records (all _ hp isType) rest other _

/-! ## Trees -/

/-- The trees of so many levels are visited. -/
structure Visited (a : Arena) (B : NodeTable Binding) (n : Nat) : Prop where
  expr : ∀ {id}, Sited a n .expr id → Visits a B (Typing.expr (context a B) (a.exprTree n id)) [id]
  decl : ∀ {role id}, role = .item ∨ role = .param → Sited a n role id →
    Visits a B (Typing.decl (context a B) (a.declTree n id)) [id]

theorem Visited.exprs {n : Nat} (h : Visited a B n) {es : List NodeId}
    (sited : ∀ e ∈ es, Sited a n .expr e) :
    Visits a B (Typing.exprs (context a B) (es.map (a.exprTree n))) es := by
  induction es with
  | nil => exact .plain (.pure _)
  | cons e es ih =>
    have rest := ih fun e he => sited e (by simp [he])
    exact (h.expr (sited e (by simp))).bind fun first => rest.map (first :: ·)

theorem Visited.decls {n : Nat} (h : Visited a B n) {role : Arena.Role}
    (hrole : role = .item ∨ role = .param) {ds : List NodeId} (sited : ∀ d ∈ ds, Sited a n role d) :
    Visits a B (Typing.decls (context a B) (ds.map (a.declTree n))) ds := by
  induction ds with
  | nil => exact .plain (.pure _)
  | cons d ds ih =>
    exact (h.decl hrole (sited d (by simp))).bind fun _ => ih fun d hd => sited d (by simp [hd])

/-- What the nodes of the program are bound to stands in it. -/
def Closed (a : Arena) (B : NodeTable Binding) : Prop :=
  ∀ {id d}, a.Reached id → B.get? id = some (.decl d) → a.Reached d

theorem closed_of_bound (bound : Bound a B) : Closed a B := by
  intro id d reached hb
  have same {d' : NodeId} (hb' : B.get? id = some (.decl d')) (reached' : a.Reached d') :
      a.Reached d := by
    rw [hb] at hb'
    cases hb'
    exact reached'
  obtain ⟨⟨position, kind⟩, r, hnode, hr⟩ := bound.only reached hb
  cases kind with
  | decl => cases hr
  | type t =>
    cases t with
    | atom | array => cases hr
    | named x =>
      have ht : a.type? id = some (.named x) := by simp [Arena.type?, hnode]
      obtain ⟨d', _, _, hb', _, reached'⟩ := bound.type reached ht
      exact same hb' reached'
  | expr e =>
    have he : a.expr? id = some e := by simp [Arena.expr?, hnode]
    cases e with
    | name x =>
      obtain ⟨d', _, hb', _, _, reached'⟩ := bound.value reached he
      exact same hb' reached'
    | call f args =>
      rcases bound.callee reached he with ⟨b, hb'⟩ | ⟨d', _, hb', _, _, reached'⟩
      · simp [hb] at hb'
      · exact same hb' reached'
    | _ => cases hr

section

variable {id : NodeId}

variable (tree : a.IsTreeShaped) (closed : Closed a B) {n : Nat}

include closed

theorem visits_callType {site : Syntax.Site} (reached : a.Reached site.id) (name : String)
    (args : List Ty) (sites : List Syntax.Site) :
    Visits a B (callType (context a B) site name args sites) [] := by
  unfold callType
  split
  · exact .plain (.pure _)
  · exact .plain (plain_applyType _ _ _ _ _)
  · next d hb =>
    split
    · next hs =>
      simp only [context, Arena.get?_signatures, Arena.signature?] at hs
      cases hd : a.decl? d with
      | none => simp [hd] at hs
      | some decl =>
        exact (visits_declType hd (closed reached hb)).bind fun _ =>
          .plain (plain_applyType _ _ _ _ _)
    · exact .plain (.bind (.report rfl) fun _ => .pure _)

theorem visits_name (reached : a.Reached id) : Visits a B (match (context a B).boundVar? id with
    | some d => (context a B).declType d
    | none => return .error) [] := by
  split
  · next d hb =>
    simp only [Context.boundVar?, context, Option.bind_eq_bind, Option.bind_eq_some_iff,
      Arena.get?_signatures] at hb
    obtain ⟨b, hb, d', bound, hs⟩ := hb
    obtain rfl : d' = d := by
      split at hs
      · exact Option.some.inj hs
      · exact Option.some.inj hs
      · cases hs
    cases b with
    | builtin => cases bound
    | decl =>
      cases bound
      cases hd : a.decl? d' with
      | none => simp [Arena.signature?, hd] at hs
      | some decl => exact visits_declType hd (closed reached hb)
  · exact .plain (.pure _)

include tree

theorem Visited.expr_succ (h : Visited a B n) (sited : Sited a (n + 1) .expr id) :
    Visits a B (Typing.expr (context a B) (a.exprTree (n + 1) id)) [id] := by
  obtain ⟨⟨position, kind⟩, hnode, accepts⟩ := sited.accepts
  have child {p : Arena.Role × NodeId} (hp : p ∈ kind.children) : Sited a n p.1 p.2 :=
    sited.child tree hnode hp
  have sub {c : NodeId} (hc : (.expr, c) ∈ kind.children) :
      Visits a B (Typing.expr (context a B) (a.exprTree n c)) [c] := h.expr (child hc)
  cases kind with
  | decl | type => cases accepts
  | expr e =>
    have he : a.expr? id = some e := by simp [Arena.expr?, hnode]
    rw [Arena.exprTree, he]
    cases e with
    | hole | literal => exact .typed he (.plain (.pure _)) (by simp)
    | name x => exact .typed he (visits_name closed sited.deep.reached) (by simp)
    | unary op e =>
      refine .typed he ((sub (c := e) (by simp)).bind fun _ => .plain ?_)
        (by simp)
      exact .bind (plain_expect _ _ _) fun _ => .pure _
    | binary op l r =>
      exact .typed he ((sub (c := l) (by simp)).bind fun _ =>
        (sub (c := r) (by simp)).bind fun _ => .plain (plain_binaryType _ _ _ _ _))
        (by simp)
    | call f args =>
      refine .typed he ((h.exprs fun e he => child (p := (.expr, e)) ?_).bind fun _ =>
        visits_callType closed sited.deep.reached _ _ _) (by simp)
      simpa using he
    | block items =>
      refine .typed he ((h.exprs fun e he => child (p := (.expr, e)) ?_).bind fun _ =>
        .plain (.pure _))
        (by simp)
      simpa using he
    | ifThen c t e =>
      cases e with
      | none =>
        exact .typed he ((sub (c := c) (by simp)).checked
          ((sub (c := t) (by simp)).bind fun _ => .plain (.pure _)))
          (by simp)
      | some e =>
        exact .typed he ((sub (c := c) (by simp)).checked
          ((sub (c := t) (by simp)).bind fun _ =>
            (sub (c := e) (by simp)).bind fun _ => .plain (.pure _)))
          (by simp)
    | whileDo c b =>
      exact .typed he ((sub (c := c) (by simp)).checked
        ((sub (c := b) (by simp)).bind fun _ => .plain (.pure _)))
        (by simp)
    | forDo c lo hi st b =>
      have low := sub (c := lo) (by simp)
      have high := sub (c := hi) (by simp)
      have step := sub (c := st) (by simp)
      have body := (sub (c := b) (by simp)).map fun _ => Ty.void
      refine .typed he ((sub (c := c) (by simp)).bind (s := [lo, hi, st, b])
        fun τ => ?_) (by simp)
      exact .ite (.bind (.plain (.report rfl)) fun _ => .bind (.plain (plain_expect _ _ _)) fun _ =>
          low.checked (high.checked (step.checked body)))
        (.bind (.plain (plain_expect _ _ _)) fun _ =>
          low.checked (high.checked (step.checked body)))
    | «scoped» ds b =>
      refine .typed he ((h.decls (.inl rfl) fun d hd => child (p := (.item, d)) ?_).bind fun _ =>
        sub (c := b) (by simp)) ?_
      · simpa using hd
      · simp +contextual [or_imp]
    | assign t v =>
      exact .typed he ((sub (c := t) (by simp)).bind fun _ =>
        (sub (c := v) (by simp)).bind fun _ => .plain (plain_assignType _ _ _ _ _ _))
        (by simp)

omit closed in
theorem Visited.decl_succ (h : Visited a B n) {role : Arena.Role}
    (hrole : role = .item ∨ role = .param) (sited : Sited a (n + 1) role id) :
    Visits a B (Typing.decl (context a B) (a.declTree (n + 1) id)) [id] := by
  obtain ⟨⟨position, kind⟩, hnode, accepts⟩ := sited.accepts
  have child {p : Arena.Role × NodeId} (hp : p ∈ kind.children) : Sited a n p.1 p.2 :=
    sited.child tree hnode hp
  have reached := sited.deep.reached
  cases kind with
  | expr | type => rcases hrole with rfl | rfl <;> cases accepts
  | decl d =>
    have hd : a.decl? id = some d := by simp [Arena.decl?, hnode]
    rw [Arena.declTree, hd]
    cases d with
    | «alias» | param =>
      exact .declared tree hd reached (fun _ => .plain (.pure _)) (by simp)
    | var x t init =>
      cases init with
      | none => exact .declared tree hd reached (fun _ => .plain (.pure _)) (by simp)
      | some init =>
        have value := h.expr (child (p := (.expr, init)) (by simp))
        refine .declared tree hd reached (fun _ => value.bind fun _ => .plain ?_)
          (by simp)
        exact .ite (.report rfl) (.bind (plain_expect _ _ _) fun _ => .pure _)
    | function f params result body =>
      have params' := h.decls (.inr rfl) fun p hp =>
        child (p := (.param, p)) (by simpa using hp)
      have body' := h.expr (child (p := (.expr, body)) (by simp))
      have rest (τ : Ty) := body'.bind fun found => .plain (x := if τ.isAtomic then do
          let _ ← expect τ found (a.exprTree n body).site
        else return ()) (.ite (.bind (plain_expect _ _ _) fun _ => .pure _) (.pure _))
      refine .declared tree hd reached (fun _ => params'.bind (s := [body]) fun _ => ?_)
        (by simp +contextual [or_imp])
      exact .ite (.bind (.plain (.report rfl)) fun _ => rest _) (rest _)

theorem visited (n : Nat) : Visited a B n := by
  induction n with
  | zero =>
    exact ⟨fun sited => (not_sited_zero tree sited).elim, fun _ sited =>
      (not_sited_zero tree sited).elim⟩
  | succ n ih => exact ⟨ih.expr_succ tree closed, fun hrole => ih.decl_succ tree hrole⟩

/-- Checking a program types all its expressions and declarations. -/
theorem visits_check :
    Visits a B (Typing.decls (context a B) a.source.definitions) a.definitions :=
  (visited tree closed a.nodes.size).decls (.inl rfl) fun _ => sited_definition tree

theorem check_recorded (reached : a.Reached id) (other : a.type? id = none) :
    Recorded (a.source.check B) id := by
  obtain ⟨root, hroot, path⟩ := reached
  exact (visits_check tree closed).records hroot path other {}

end

end PinsBackend.Assignment
