import Mathlib.Data.Set.Card
import PinsBackend.Proofs.Typing.Decision

/-! Cycles of aliases.

The chain of an alias leads through its written type to the alias that this type ends in, and on
from there. Chains may join and close, but never part. The checker reports each cycle at the first
of its aliases that it comes back to; every node of the cycle is typed by then or on the way back,
so no cycle is reported again. -/
namespace PinsBackend.Assignment

open Relation
open Typing Lexical

variable {r : Ty × Typing}

variable {a : Arena} {B : NodeTable Binding} {id c d e : NodeId} {σ : Typing} {τ : Ty}
  {resolving resolving' ds : List NodeId}

/-! ## Chains -/

section

variable {α : Type} {r : α → α → Prop} {x y : α} (unique : Relator.RightUnique r)

include unique

/-- Where no two ways part, every way from a cycle leads back. -/
theorem leads_back (cycle : TransGen r x x) (path : ReflTransGen r x y) : ReflTransGen r y x := by
  induction path with
  | refl => exact .refl
  | tail _ step ih =>
    rcases ReflTransGen.cases_head ih with rfl | ⟨z, step', rest⟩
    · obtain ⟨z, step', rest⟩ := TransGen.head'_iff.1 cycle
      rwa [unique step step']
    · rwa [unique step step']

theorem stays_on_cycle (cycle : TransGen r x x) (path : ReflTransGen r x y) : TransGen r y y :=
  .trans_right (leads_back unique cycle path) (cycle.trans_left path)

end

/-- The node that comes next in a chain: the written type of a declaration, that of the elements of
an array, the alias that a name is bound to. -/
def Next (a : Arena) (B : NodeTable Binding) (id c : NodeId) : Prop :=
  (∃ f, Makes a B id c f) ∨ ∃ n, n ≤ 0 ∧ a.type? id = some (.array n c)

theorem Next.written (h : Next a B id c) :
    ∃ node, a.node? id = some node ∧ written B id node.kind = [c] := by
  rcases h with ⟨f, h⟩ | ⟨n, -, ht⟩
  · cases h with
    | «alias» hd | param hd | var hd =>
      obtain ⟨position, hnode⟩ := Arena.node?_of_decl? hd
      exact ⟨_, hnode, rfl⟩
    | array ht =>
      obtain ⟨position, hnode⟩ := Arena.node?_of_type? ht
      exact ⟨_, hnode, rfl⟩
    | named ht hb =>
      obtain ⟨position, hnode⟩ := Arena.node?_of_type? ht
      exact ⟨_, hnode, by simp [Assignment.written, hb, Binding.decl?]⟩
  · obtain ⟨position, hnode⟩ := Arena.node?_of_type? ht
    exact ⟨_, hnode, rfl⟩

theorem next_unique : Relator.RightUnique (Next a B) := by
  intro id c c' h h'
  obtain ⟨node, hnode, eq⟩ := h.written
  obtain ⟨node', hnode', eq'⟩ := h'.written
  rw [hnode] at hnode'
  cases hnode'
  rw [eq] at eq'
  exact List.singleton_inj.1 eq'

theorem Next.reached (suited : Suited a B) (reached : a.Reached id)
    (path : ReflTransGen (Next a B) id c) :
    a.Reached c := by
  induction path with
  | refl => exact reached
  | tail _ step ih =>
    rcases step with ⟨f, makes⟩ | ⟨n, -, ht⟩
    · exact makes.reached suited ih
    · obtain ⟨position, hnode⟩ := Arena.node?_of_type? ht
      exact ih.child ⟨_, hnode, by simp⟩

theorem Next.not_function (h : Next a B id c) {f : String} {params : List NodeId}
    {result body : NodeId} :
    a.decl? id ≠ some (.function f params result body) := by
  intro hd
  obtain ⟨position, hnode⟩ := Arena.node?_of_decl? hd
  rcases h with ⟨g, h⟩ | ⟨n, -, ht⟩
  · cases h <;> simp_all [Arena.type?]
  · simp [Arena.type?, hnode] at ht

/-- The node lies on a cycle of chains. -/
def Closes (a : Arena) (B : NodeTable Binding) (id : NodeId) : Prop := TransGen (Next a B) id id

theorem Closes.next (h : Closes a B id) : ∃ c, Next a B id c := by
  obtain ⟨c, step, -⟩ := TransGen.head'_iff.1 h
  exact ⟨c, step⟩

theorem Closes.of_next (h : Closes a B id) (step : Next a B id c) : Closes a B c :=
  stays_on_cycle next_unique h (.single step)

theorem not_closes {node : Arena.Node} (hnode : a.node? id = some node)
    (ends : written B id node.kind = []) :
    ¬ Closes a B id := by
  intro h
  obtain ⟨c, step⟩ := h.next
  obtain ⟨node', hnode', eq⟩ := step.written
  rw [hnode] at hnode'
  cases hnode'
  rw [ends] at eq
  cases eq

/-! ## Reports -/

/-- The report on a cycle at this alias. -/
def cyclic (a : Arena) (d : NodeId) : TypeError :=
  .cyclicType ((a.decl? d).elim "" Arena.Decl.name) (a.position d)

/-- The reports on cycles, by the aliases at which they were made: no two lie on one cycle. Of a
cycle all nodes have their types or none, apart from those on the way to an alias that is being
resolved, and a cycle whose nodes have types has been reported. -/
structure Account (a : Arena) (B : NodeTable Binding) (resolving : List NodeId) (σ : Typing)
    (ds : List NodeId) : Prop where
  reports : σ.errors.toList.filter TypeError.isCycle = ds.map (cyclic a)
  apart : ds.Pairwise fun d e => ¬ ReflTransGen (Next a B) d e
  closes : ∀ d ∈ ds, Closes a B d ∧ a.Reached d ∧ ∃ x t, a.decl? d = some (.alias x t)
  typed : ∀ d ∈ ds, Recorded σ d ∨ d ∈ resolving
  next : ∀ {id c}, Recorded σ id → Closes a B id → Next a B id c → Recorded σ c ∨ c ∈ resolving
  counted : ∀ {id}, Recorded σ id → Closes a B id → ∃ d ∈ ds, ReflTransGen (Next a B) d id

theorem Account.init : Account a B [] {} [] where
  reports := rfl
  apart := .nil
  closes := by simp
  typed := by simp
  next known := absurd known (by simp [not_recorded])
  counted known := absurd known (by simp [not_recorded])

theorem Account.weaken (h : Account a B [] σ ds) : Account a B resolving σ ds :=
  { h with
    typed := fun d hd => .inl ((h.typed d hd).resolve_right (by simp))
    next := fun known closes step => .inl ((h.next known closes step).resolve_right (by simp)) }

/-- Once a node of a cycle has its type, all have. -/
theorem Account.along (h : Account a B [] σ ds) (known : Recorded σ d) (closes : Closes a B d)
    (path : ReflTransGen (Next a B) d e) : Recorded σ e := by
  induction path with
  | refl => exact known
  | tail path step ih =>
    exact (h.next ih (stays_on_cycle next_unique closes path) step).resolve_right (by simp)

theorem Account.cycle (h : Account a B [] σ ds) {x : String} {t : NodeId}
    (hd : a.decl? d = some (.alias x t)) (reached : a.Reached d) (new : σ.types.get? d = none)
    (met : d ∈ resolving) (closes : Closes a B d) :
    Account a B resolving { σ with errors := σ.errors.push (.cyclicType x (a.position d)) }
      (ds ++ [d]) where
  reports := by simp [h.reports, TypeError.isCycle, cyclic, hd, Arena.Decl.name]
  apart := by
    refine List.pairwise_append.2 ⟨h.apart, by simp, fun e he d' hd' path => ?_⟩
    obtain rfl := List.mem_singleton.1 hd'
    have known := (h.typed e he).resolve_right (by simp)
    have := h.along known (h.closes e he).1 path
    simp [Recorded, new] at this
  closes := by
    intro e he
    rcases List.mem_append.1 he with he | he
    · exact h.closes e he
    · obtain rfl := List.mem_singleton.1 he
      exact ⟨closes, reached, x, t, hd⟩
  typed := by
    intro e he
    rcases List.mem_append.1 he with he | he
    · exact h.weaken.typed e he
    · exact .inr (List.mem_singleton.1 he ▸ met)
  next := h.weaken.next
  counted known closes := by
    obtain ⟨e, he, path⟩ := h.counted known closes
    exact ⟨e, by simp [he], path⟩

theorem Account.report (h : Account a B resolving σ ds) {e : TypeError}
    (other : e.isCycle = false) :
    Account a B resolving { σ with errors := σ.errors.push e } ds :=
  { h with reports := by simp [h.reports, other] }

theorem Account.record (h : Account a B resolving' σ ds)
    (fewer : ∀ j ∈ resolving', j = id ∨ j ∈ resolving)
    (next : ∀ {c}, Closes a B id → Next a B id c → Recorded σ c ∨ c ∈ resolving')
    (counted : Closes a B id → ∃ d ∈ ds, ReflTransGen (Next a B) d id) :
    Account a B resolving { σ with types := σ.types.insert id τ } ds := by
  have kept {j : NodeId} (hj : Recorded σ j ∨ j ∈ resolving') :
      Recorded { σ with types := σ.types.insert id τ } j ∨ j ∈ resolving := by
    rw [recorded_insert]
    rcases hj with hj | hj
    · exact .inl (.inr hj)
    · exact (fewer j hj).imp_left .inl
  refine ⟨h.reports, h.apart, h.closes, fun d hd => kept (h.typed d hd), ?_, ?_⟩
  · intro j c known closes step
    rcases recorded_insert.1 known with rfl | known
    · exact kept (next closes step)
    · exact kept (h.next known closes step)
  · intro j known closes
    rcases recorded_insert.1 known with rfl | known
    · exact counted closes
    · exact h.counted known closes

theorem Account.skip (h : Account a B resolving σ ds) (off : ¬ Closes a B id) :
    Account a B resolving { σ with types := σ.types.insert id τ } ds :=
  h.record (fun _ => .inr) (fun closes => absurd closes off) fun closes => absurd closes off

/-- The cycles are accounted for, that of the node too. -/
def Accounted (a : Arena) (B : NodeTable Binding) (resolving : List NodeId) (id : NodeId)
    (σ : Typing) : Prop :=
  ∃ ds, Account a B resolving σ ds ∧ (Recorded σ id ∨ id ∈ resolving) ∧
    (Closes a B id → ∃ d ∈ ds, ReflTransGen (Next a B) d id)

/-- At the end of a chain. -/
theorem Account.leaf (h : Account a B [] σ ds) (off : ¬ Closes a B id) :
    Accounted a B resolving id { σ with types := σ.types.insert id τ } :=
  ⟨ds, h.weaken.skip off, .inl (recorded_insert.2 (.inl rfl)), fun closes => absurd closes off⟩

/-- On the way back from the next node. -/
theorem Accounted.back (h : Accounted a B resolving' c σ) (step : Next a B id c)
    (fewer : ∀ j ∈ resolving', j = id ∨ j ∈ resolving) :
    Accounted a B resolving id { σ with types := σ.types.insert id τ } := by
  obtain ⟨ds, account, known, counted⟩ := h
  have own (closes : Closes a B id) : ∃ d ∈ ds, ReflTransGen (Next a B) d id := by
    obtain ⟨d, hd, path⟩ := counted (closes.of_next step)
    exact ⟨d, hd, path.trans (leads_back next_unique closes (.single step))⟩
  refine ⟨ds, account.record fewer (fun _ step' => ?_) own,
    .inl (recorded_insert.2 (.inl rfl)), own⟩
  rw [next_unique step' step]
  exact known

theorem Resolves.accounted (suited : Suited a B) (h : Resolves a B resolving id σ r)
    (reached : a.Reached id) (account : Account a B [] σ ds)
    (behind : ∀ j ∈ resolving, TransGen (Next a B) j id) : Accounted a B resolving id r.2 := by
  induction h with
  | @known _ id σ _ _ old =>
    have known : Recorded σ id := by rw [Recorded, old]; rfl
    exact ⟨ds, account.weaken, .inl known, account.counted known⟩
  | cycle hd new met =>
    have closes := behind _ met
    exact ⟨_, account.cycle hd reached new met closes, .inr met, fun _ => ⟨_, by simp, .refl⟩⟩
  | atom ht =>
    obtain ⟨position, hnode⟩ := Arena.node?_of_type? ht
    exact account.leaf (not_closes hnode rfl)
  | @unbound _ t _ _ ht _ free =>
    obtain ⟨position, hnode⟩ := Arena.node?_of_type? ht
    refine account.leaf (not_closes hnode ?_)
    rcases hb : B.get? t with _ | ⟨d⟩ | b
    · simp [written, hb]
    · exact absurd hb (free d)
    · simp [written, hb, Binding.decl?]
  | @empty _ t element n σ r ht _ neg _ ih =>
    have step : Next a B t element := .inr ⟨n, neg, ht⟩
    have inner := ih (Next.reached suited reached (.single step)) account fun j hj =>
      (behind j hj).tail step
    obtain ⟨ds, account, known, counted⟩ := inner.back (τ := .error) step fun j => .inr
    exact ⟨ds, account.report rfl, known, counted⟩
  | made makes _ below _ ih =>
    have step : Next a B _ _ := .inl ⟨_, makes⟩
    refine (ih (makes.reached suited reached) account fun j hj => ?_).back step fun j =>
      below?_subset below
    rcases below?_subset below hj with rfl | hj
    · exact .single step
    · exact (behind j hj).tail step

/-! ## Poison -/

/-- An array without elements, or a name that is bound to no declaration. -/
def Flawed (a : Arena) (B : NodeTable Binding) (t : NodeId) : Prop :=
  (∃ n element, n ≤ 0 ∧ a.type? t = some (.array n element)) ∨
    ∃ x, a.type? t = some (.named x) ∧ ∀ d, B.get? t ≠ some (.decl d)

/-- The chain comes to an alias on a cycle or to a flaw. -/
def Fails (a : Arena) (B : NodeTable Binding) (id : NodeId) : Prop :=
  ∃ e, ReflTransGen (Next a B) id e ∧
    ((Closes a B e ∧ ∃ x t, a.decl? e = some (.alias x t)) ∨ Flawed a B e)

/-- What a node denotes is sound, and its chain does not fail. -/
theorem Denotes.sound (h : Denotes a B id τ) : τ.isError = false ∧ ¬ Fails a B id := by
  induction h with
  | @node id node T τ hnode parts rule ih =>
    have onward {c : NodeId} (step : Next a B id c) : ¬ Fails a B c := by
      obtain ⟨node', hnode', eq⟩ := step.written
      rw [hnode] at hnode'
      cases hnode'
      exact (ih c (by simp [eq])).2
    obtain ⟨position, kind⟩ := node
    constructor
    · rcases kind with d | e | t
      · cases d with
        | function =>
          cases rule
          rfl
        | «alias» x t | param x t | var x t =>
          cases rule
          exact (ih t (by simp [written])).1
      · exact rule.elim
      · cases t with
        | atom t =>
          cases rule
          cases t <;> rfl
        | array n element =>
          cases rule.2
          exact (ih element (by simp [written])).1
        | named x =>
          obtain ⟨d, hb, rfl⟩ := rule
          exact (ih d (by simp [written, hb, Binding.decl?])).1
    · rintro ⟨e, path, fails⟩
      rcases ReflTransGen.cases_head path with rfl | ⟨c, step, rest⟩
      · rcases fails with ⟨closes, named⟩ | ⟨n, element, neg, ht⟩ | ⟨x, ht, free⟩
        · obtain ⟨c, step, rest⟩ := TransGen.head'_iff.1 closes
          exact onward step ⟨id, rest, .inl ⟨closes, named⟩⟩
        · cases kind <;> simp [Arena.type?, hnode] at ht
          subst ht
          have := rule.1
          omega
        · cases kind <;> simp [Arena.type?, hnode] at ht
          subst ht
          obtain ⟨d, hb, -⟩ := rule
          exact free d hb
      · exact onward step ⟨e, rest, fails⟩

/-- Chains consist of written types and aliases, their starts apart. -/
def Linked (a : Arena) (id : NodeId) : Prop :=
  (∃ type, a.type? id = some type) ∨ ∃ x t, a.decl? id = some (.alias x t)

theorem Makes.linked (tree : a.IsTreeShaped) {f : Ty → Ty} (h : Makes a B id c f) : Linked a c := by
  cases h with
  | «alias» hd | param hd | var hd =>
    obtain ⟨position, hnode⟩ := Arena.node?_of_decl? hd
    exact .inl (tree.type hnode (by simp))
  | array ht =>
    obtain ⟨position, hnode⟩ := Arena.node?_of_type? ht
    exact .inl (tree.type hnode (by simp))
  | named _ _ hd => exact .inr ⟨_, _, hd⟩

theorem Makes.isError {f : Ty → Ty} (h : Makes a B id c f) (bad : τ.isError = true) :
    (f τ).isError = true := by
  cases h with
  | «alias» | param | var | array | named => exact bad

/-- The type is what the node denotes, or it is poison and the chain fails. -/
def Fits (a : Arena) (B : NodeTable Binding) (id : NodeId) (τ : Ty) : Prop :=
  Denotes a B id τ ∨ τ.isError = true ∧ Fails a B id

def Fitting (a : Arena) (B : NodeTable Binding) (σ : Typing) : Prop :=
  ∀ id τ, σ.types.get? id = some τ → Linked a id → Fits a B id τ

theorem Fitting.insert (h : Fitting a B σ) (own : Linked a id → Fits a B id τ) :
    Fitting a B { σ with types := σ.types.insert id τ } := by
  intro j τ' hj linked
  rcases get?_insert_cases hj with hj | ⟨rfl, rfl⟩
  · exact h j τ' hj linked
  · exact own linked

theorem Fitting.init : Fitting a B {} := fun id _ known =>
  absurd (Option.isSome_iff_exists.2 ⟨_, known⟩) (not_recorded id)

theorem Resolves.fits (tree : a.IsTreeShaped) (h : Resolves a B resolving id σ r)
    (fitting : Fitting a B σ) (behind : ∀ j ∈ resolving, TransGen (Next a B) j id) :
    Fitting a B r.2 ∧ (Linked a id → Fits a B id r.1) := by
  have both {σ : Typing} {id : NodeId} {τ : Ty} (fitting : Fitting a B σ) (own : Linked a id →
    Fits a B id τ) :
      Fitting a B { σ with types := σ.types.insert id τ } ∧ (Linked a id → Fits a B id τ) :=
    ⟨fitting.insert own, own⟩
  induction h with
  | known _ old => exact ⟨fitting, fitting _ _ old⟩
  | cycle hd _ met => exact ⟨fitting, fun _ => .inr ⟨rfl, _, .refl, .inl ⟨behind _ met, _, _, hd⟩⟩⟩
  | atom ht => exact both fitting fun _ => .inl (.atom ht)
  | unbound ht _ free => exact both fitting fun _ => .inr ⟨rfl, _, .refl, .inr (.inr ⟨_, ht, free⟩)⟩
  | @empty _ t element n _ _ ht _ neg _ ih =>
    have step : Next a B t element := .inr ⟨n, neg, ht⟩
    exact both (ih fitting fun j hj => (behind j hj).tail step).1 fun _ =>
      .inr ⟨rfl, t, .refl, .inr (.inl ⟨n, element, neg, ht⟩)⟩
  | made makes _ below _ ih =>
    have step : Next a B _ _ := .inl ⟨_, makes⟩
    obtain ⟨fitting', fits⟩ := ih fitting fun j hj => (below?_subset below hj).elim
      (fun eq => eq ▸ .single step) fun hj => (behind j hj).tail step
    refine both fitting' fun _ => ?_
    rcases fits (makes.linked tree) with denotes | ⟨bad, e, path, fails⟩
    · exact .inl (makes.denotes denotes)
    · exact .inr ⟨makes.isError bad, e, path.head step, fails⟩

/-! ## Runs -/

theorem ResolvesAll.keeps {I : Typing → Prop} {ids : List NodeId} {rs : List Ty × Typing}
    (h : ResolvesAll a B ids σ rs)
    (each : ∀ id ∈ ids, ∀ {σ r}, Resolves a B [] id σ r → I σ → I r.2) (holds : I σ) : I rs.2 := by
  induction h with
  | nil => exact holds
  | cons first _ ih =>
    exact ih (fun id hid => each id (by simp [hid])) (each _ (by simp) first holds)

/-- What the checker keeps: an account of the cycles, and types that fit. -/
theorem stable_cycles (tree : a.IsTreeShaped) (suited : Suited a B) :
    Stable a B fun σ => (∃ ds, Account a B [] σ ds) ∧ Fitting a B σ where
  report other h := ⟨h.1.imp fun _ account => account.report other, h.2⟩
  expr {σ id τ} he h := by
    obtain ⟨e, he⟩ := Option.isSome_iff_exists.1 he
    obtain ⟨position, hnode⟩ := Arena.node?_of_expr? he
    refine ⟨h.1.imp fun _ account => account.skip (not_closes hnode rfl),
      h.2.insert fun linked => ?_⟩
    rcases linked with ⟨type, ht⟩ | ⟨x, t, hd⟩
    · simp [Arena.type?, hnode] at ht
    · simp [Arena.decl?, hnode] at hd
  decl {d} reached hd σ h := by
    obtain ⟨decl, hd⟩ := Option.isSome_iff_exists.1 hd
    have chain {id : NodeId} {σ : Typing} {r : Ty × Typing} (reached : a.Reached id)
        (resolves : Resolves a B [] id σ r) (h : (∃ ds, Account a B [] σ ds) ∧ Fitting a B σ) :
        (∃ ds, Account a B [] r.2 ds) ∧ Fitting a B r.2 := by
      obtain ⟨⟨ds, account⟩, fitting⟩ := h
      obtain ⟨ds', account', -⟩ := resolves.accounted suited reached account (by simp)
      exact ⟨⟨ds', account'⟩, (resolves.fits tree fitting (by simp)).1⟩
    have resolves := declType_resolves tree suited hd reached σ
    generalize (context a B).declType d σ = r at resolves
    cases resolves with
    | chain resolves => exact chain reached resolves h
    | function hd _ first last =>
      obtain ⟨position, hnode⟩ := Arena.node?_of_decl? hd
      have part {p : Arena.Role × NodeId} (hp : p ∈ _) : a.Reached p.2 :=
        reached.child ⟨_, hnode, List.mem_map_of_mem hp⟩
      have params := first.keeps (fun id hid _ _ =>
        chain (part (p := (.param, id)) (by simp [hid]))) h
      obtain ⟨accounts, fitting⟩ := chain (part (p := (.type, _)) (by simp)) last params
      have off : ¬ Closes a B d := by
        intro closes
        obtain ⟨c, step⟩ := closes.next
        exact step.not_function hd
      refine ⟨accounts.imp fun _ account => account.skip off, fitting.insert ?_⟩
      rintro (⟨type, ht⟩ | ⟨x, t, hd'⟩)
      · simp [Arena.type?, hnode] at ht
      · simp [hd] at hd'

/-! ## Aliases -/

section

variable {t u : NodeId} {x : String}

variable (tree : a.IsTreeShaped)
  (aliases : ∀ {t x d}, a.type? t = some (.named x) → B.get? t = some (.decl d) →
    a.Reached d ∧ ∃ y u, a.decl? d = some (.alias y u))

include tree

theorem next_under (ht : ∃ type, a.type? t = some type) (path : ReflTransGen a.Child t u) :
    ReflTransGen (Next a B) t u := by
  induction path with
  | refl => exact .refl
  | @tail v u path child ih =>
    refine ih.tail ?_
    obtain ⟨type, hv⟩ := type_under tree ht path
    obtain ⟨position, hnode⟩ := Arena.node?_of_type? hv
    obtain ⟨node, hnode', mem⟩ := child
    rw [hnode] at hnode'
    cases hnode'
    cases type with
    | atom | named => simp at mem
    | array n element =>
      obtain rfl : u = element := by simpa using mem
      by_cases neg : n ≤ 0
      · exact .inr ⟨n, neg, hv⟩
      · exact .inl ⟨_, .array hv (by omega)⟩

theorem next_into (hd : a.decl? d = some (.alias x t)) (path : ReflTransGen a.Child t u) :
    ReflTransGen (Next a B) d u := by
  obtain ⟨position, hnode⟩ := Arena.node?_of_decl? hd
  exact .head (.inl ⟨_, .alias hd⟩) (next_under tree (tree.type hnode (by simp)) path)

theorem not_decl_under (hd : a.decl? d = some (.alias x t)) (path : ReflTransGen a.Child t u)
    {decl : Arena.Decl} : a.decl? u ≠ some decl := by
  obtain ⟨position, hnode⟩ := Arena.node?_of_decl? hd
  obtain ⟨type, ht⟩ := type_under tree (tree.type hnode (by simp)) path
  obtain ⟨position', hnode'⟩ := Arena.node?_of_type? ht
  simp [Arena.decl?, hnode']

include aliases in
theorem Mentions.chain (h : Mentions a B d e) : TransGen (Next a B) d e := by
  obtain ⟨x, t, ref, y, hd, path, href, hb⟩ := h
  obtain ⟨-, z, u, he⟩ := aliases href hb
  exact .tail' (next_into tree hd path) (.inl ⟨_, .named href hb he⟩)

/-- What a chain passes are aliases, each mentioned by the one before, and parts of their types. -/
theorem mentions_along (hd : a.decl? d = some (.alias x t)) (path : TransGen (Next a B) d id) :
    TransGen (Mentions a B) d id ∧ (∃ y u, a.decl? id = some (.alias y u)) ∨
      ∃ e y u, ReflTransGen (Mentions a B) d e ∧ a.decl? e = some (.alias y u) ∧
      ReflTransGen a.Child u id := by
  induction path with
  | single step =>
    rw [next_unique step (.inl ⟨_, .alias hd⟩)]
    exact .inr ⟨d, x, t, .refl, hd, .refl⟩
  | @tail v w _ step ih =>
    rcases ih with ⟨before, y, u, hv⟩ | ⟨e, y, u, before, he, under⟩
    · rw [next_unique step (.inl ⟨_, .alias hv⟩)]
      exact .inr ⟨v, y, u, before.to_reflTransGen, hv, .refl⟩
    · have array {n : Int} (ht : a.type? v = some (.array n w)) : ReflTransGen a.Child u w := by
        obtain ⟨position, hnode⟩ := Arena.node?_of_type? ht
        exact under.tail ⟨_, hnode, by simp⟩
      rcases step with ⟨f, makes⟩ | ⟨n, -, ht⟩
      · cases makes with
        | «alias» hv | param hv | var hv => exact absurd hv (not_decl_under tree he under)
        | array ht => exact .inr ⟨e, y, u, before, he, array ht⟩
        | named ht hb hw => exact .inl ⟨.tail' before ⟨y, u, v, _, he, under, ht, hb⟩, _, _, hw⟩
      · exact .inr ⟨e, y, u, before, he, array ht⟩

/-- The aliases that a chain passes. -/
theorem mentions_of_next {y : String} (hd : a.decl? d = some (.alias x t))
    (he : a.decl? e = some (.alias y u)) (path : TransGen (Next a B) d e) :
    TransGen (Mentions a B) d e := by
  rcases mentions_along tree hd path with ⟨before, -⟩ | ⟨e', _, _, -, he', under⟩
  · exact before
  · exact absurd he (not_decl_under tree he' under)

theorem mentions_between {y : String} (hd : a.decl? d = some (.alias x t))
    (he : a.decl? e = some (.alias y u)) (path : ReflTransGen (Next a B) d e) :
    ReflTransGen (Mentions a B) d e := by
  rcases reflTransGen_iff_eq_or_transGen.1 path with rfl | path
  · exact .refl
  · exact (mentions_of_next tree hd he path).to_reflTransGen

include aliases in
/-- An alias lies on a cycle of chains if it stands for itself. -/
theorem closes_iff (hd : a.decl? d = some (.alias x t)) :
    Closes a B d ↔ TransGen (Mentions a B) d d :=
  ⟨mentions_of_next tree hd hd, TransGen.closed (fun _ _ => Mentions.chain tree aliases) d d⟩

end

/-- A cycle of aliases: all that one of them stands for, itself among them. -/
def IsCycle (a : Arena) (B : NodeTable Binding) (C : Set NodeId) : Prop :=
  ∃ d, a.Reached d ∧ TransGen (Mentions a B) d d ∧ C = {e | ReflTransGen (Mentions a B) d e}

/-- The chain of the alias enters a cycle, passes an array without elements or ends in a name that
means no type where it stands. -/
def Tainted (a : Arena) (B : NodeTable Binding) (d : NodeId) : Prop :=
  ∃ e, ReflTransGen (Mentions a B) d e ∧ (TransGen (Mentions a B) e e ∨
    ∃ x t u, a.decl? e = some (.alias x t) ∧ ReflTransGen a.Child t u ∧
      ((∃ n element, n ≤ 0 ∧ a.type? u = some (.array n element)) ∨
        ∃ Γ y, Stands a Γ u ∧ a.type? u = some (.named y) ∧
        ∀ d, choice? a Γ .type y ≠ some (.decl d)))

/-- The reported aliases stand for the cycles, once all aliases are typed. -/
theorem Account.cycles (h : Account a B [] σ ds) (tree : a.IsTreeShaped)
    (aliases : ∀ {t x d}, a.type? t = some (.named x) → B.get? t = some (.decl d) →
      a.Reached d ∧ ∃ y u, a.decl? d = some (.alias y u))
    (all : ∀ {d x t}, a.Reached d → a.decl? d = some (.alias x t) → Recorded σ d) :
    (ds.map fun d => {e | ReflTransGen (Mentions a B) d e}).Nodup ∧
      ∀ C, C ∈ ds.map (fun d => {e | ReflTransGen (Mentions a B) d e}) ↔ IsCycle a B C := by
  constructor
  · refine List.pairwise_map.2 (h.apart.imp fun {d e} apart same => apart ?_)
    have path : e ∈ {e | ReflTransGen (Mentions a B) d e} := by
      rw [same]
      exact .refl
    exact reflTransGen_closed (fun _ _ h => (Mentions.chain tree aliases h).to_reflTransGen)
      _ _ path
  · intro C
    rw [List.mem_map]
    constructor
    · rintro ⟨d, hd, rfl⟩
      obtain ⟨closes, reached, x, t, hd⟩ := h.closes d hd
      exact ⟨d, reached, (closes_iff tree aliases hd).1 closes, rfl⟩
    · rintro ⟨d, reached, cycle, rfl⟩
      obtain ⟨_, ⟨x, t, -, -, hd, -⟩, -⟩ := TransGen.head'_iff.1 cycle
      obtain ⟨e, he, path⟩ := h.counted (all reached hd) ((closes_iff tree aliases hd).2 cycle)
      obtain ⟨closes, -, y, u, he'⟩ := h.closes e he
      refine ⟨e, he, Set.ext fun j => ⟨?_, ?_⟩⟩
      · exact (mentions_between tree hd he' (leads_back next_unique closes path)).trans
      · exact (mentions_between tree he' hd path).trans

section

variable {t : NodeId} {x : String}

variable (tree : a.IsTreeShaped)

include tree

theorem aliases_bound (ht : a.type? t = some (.named x))
    (hb : a.source.resolve.bindings.get? t = some (.decl d)) :
    a.Reached d ∧ ∃ y u, a.decl? d = some (.alias y u) := by
  obtain ⟨reached, decl, node, r, hd, hnode, href, suits⟩ := bound_suits tree hb
  obtain ⟨position, hnode'⟩ := Arena.node?_of_type? ht
  rw [hnode] at hnode'
  cases hnode'
  cases href
  cases decl with
  | «alias» y u => exact ⟨reached, y, u, hd⟩
  | function | param | var => cases suits

theorem type_binding {Γ : List Region} (stands : Stands a Γ t) (ht : a.type? t = some (.named x)) :
    a.source.resolve.bindings.get? t = choice? a Γ .type x := by
  obtain ⟨position, hnode⟩ := Arena.node?_of_type? ht
  simp [get?_bindings tree stands, binding?, hnode, reference?]

theorem fails_iff (hd : a.decl? d = some (.alias x t)) (reached : a.Reached d) :
    Fails a a.source.resolve.bindings d ↔ Tainted a a.source.resolve.bindings d := by
  have aliases {t x d} := aliases_bound (a := a) (t := t) (x := x) (d := d) tree
  constructor
  · rintro ⟨n, path, ⟨closes, y, u, hn⟩ | flawed⟩
    · exact ⟨n, mentions_between tree hd hn path, .inl ((closes_iff tree aliases hn).1 closes)⟩
    · have alias_sound {y : String} {u : NodeId} (hn : a.decl? n = some (.alias y u)) : False := by
        obtain ⟨position, hnode⟩ := Arena.node?_of_decl? hn
        rcases flawed with ⟨_, _, -, ht⟩ | ⟨_, ht, -⟩ <;> simp [Arena.type?, hnode] at ht
      rcases reflTransGen_iff_eq_or_transGen.1 path with rfl | path
      · exact (alias_sound hd).elim
      · rcases mentions_along tree hd path with ⟨-, y, u, hn⟩ | ⟨e, y, u, before, he, under⟩
        · exact (alias_sound hn).elim
        · refine ⟨e, before, .inr ⟨y, u, n, he, under, flawed.imp_right ?_⟩⟩
          rintro ⟨z, ht, free⟩
          obtain ⟨Γ, stands⟩ :=
            reached_iff.1 (Next.reached (fun _ => aliases) reached path.to_reflTransGen)
          rw [type_binding tree stands ht] at free
          exact ⟨Γ, z, stands, ht, free⟩
  · rintro ⟨e, path, fails⟩
    have chain :=
      reflTransGen_closed (fun _ _ h => (Mentions.chain tree aliases h).to_reflTransGen) _ _ path
    rcases fails with cycle | ⟨y, u, n, he, under, flaw⟩
    · obtain ⟨_, ⟨y, u, -, -, he, -⟩, -⟩ := TransGen.head'_iff.1 cycle
      exact ⟨e, chain, .inl ⟨(closes_iff tree aliases he).2 cycle, y, u, he⟩⟩
    · refine ⟨n, chain.trans (next_into tree he under), .inr (flaw.imp_right ?_)⟩
      rintro ⟨Γ, z, stands, ht, free⟩
      rw [← type_binding tree stands ht] at free
      exact ⟨z, ht, free⟩

/-- Aliases that stand for themselves are reported. Every type comes about by the rules, which know
no bound on the length of chains; each cycle of aliases has one report, which names one of its
aliases; and the type of an alias is poison exactly if its chain enters a cycle or is flawed. -/
theorem cycles_are_reported_once :
    (∀ d decl σ, a.Reached d → a.decl? d = some decl → DeclResolves a a.source.resolve.bindings d σ
      ((context a a.source.resolve.bindings).declType d σ)) ∧
    (∃ cycles : List (Set NodeId), cycles.Nodup ∧
      (∀ C, C ∈ cycles ↔ IsCycle a a.source.resolve.bindings C) ∧
      List.Forall₂ (fun e C => ∃ d x t, d ∈ C ∧ a.decl? d = some (.alias x t) ∧
        e = .cyclicType x (a.position d))
        ((a.source.check a.source.resolve.bindings).errors.toList.filter TypeError.isCycle)
          cycles) ∧
    ((a.source.check a.source.resolve.bindings).errors.toList.filter TypeError.isCycle).length =
      {C | IsCycle a a.source.resolve.bindings C}.ncard ∧
    ∀ d x t, a.Reached d → a.decl? d = some (.alias x t) →
      ∃ τ, (a.source.check a.source.resolve.bindings).types.get? d = some τ ∧
        (τ.isError = true ↔ Tainted a a.source.resolve.bindings d) := by
  have aliases {t x d} := aliases_bound (a := a) (t := t) (x := x) (d := d) tree
  have closed : Closed a a.source.resolve.bindings := fun _ h => (bound_suits tree h).1
  have all {d : NodeId} {x : String} {t : NodeId} (reached : a.Reached d)
    (hd : a.decl? d = some (.alias x t)) :
      Recorded (a.source.check a.source.resolve.bindings) d := by
    obtain ⟨position, hnode⟩ := Arena.node?_of_decl? hd
    exact check_recorded tree closed reached (by simp [Arena.type?, hnode])
  obtain ⟨⟨ds, account⟩, fitting⟩ :
    (∃ ds, Account a a.source.resolve.bindings [] (a.source.check _) ds) ∧
      Fitting a a.source.resolve.bindings (a.source.check _) :=
    (visits_check tree closed).keeps (stable_cycles tree fun _ => aliases) {} ⟨⟨[], .init⟩, .init⟩
  obtain ⟨nodup, cycles⟩ := account.cycles tree aliases all
  refine ⟨fun d decl σ reached hd => declType_resolves tree (fun _ => aliases) hd reached σ,
    ⟨_, nodup, cycles, ?_⟩, ?_, fun d x t reached hd => ?_⟩
  · rw [account.reports, List.forall₂_map_left_iff, List.forall₂_map_right_iff, List.forall₂_same]
    intro d hd
    obtain ⟨-, -, x, t, hd⟩ := account.closes d hd
    exact ⟨d, x, t, .refl, hd, by simp [cyclic, hd, Arena.Decl.name]⟩
  · classical
    have same : {C | IsCycle a a.source.resolve.bindings C} =
        (ds.map fun d =>
          {e | ReflTransGen (Mentions a a.source.resolve.bindings) d e}).toFinset := by
      ext C
      simp only [List.coe_toFinset, Set.mem_ofPred_eq, cycles]
    rw [same, Set.ncard_coe_finset, List.toFinset_card_of_nodup nodup, account.reports,
      List.length_map, List.length_map]
  · obtain ⟨τ, known⟩ := Option.isSome_iff_exists.1 (all reached hd)
    refine ⟨τ, known, ?_⟩
    rw [← fails_iff tree hd reached]
    rcases fitting d τ known (.inr ⟨x, t, hd⟩) with denotes | ⟨bad, fails⟩
    · simp [denotes.sound]
    · simp [bad, fails]

end

/-- `typ a : b; typ b : arr[2] a; typ c : a; typ d : d` -/
def twoCycles : Arena where
  nodes := #[
    ⟨.point 1 9, .type (.named "b")⟩,
    ⟨.point 1 1, .decl (.alias "a" 0)⟩,
    ⟨.point 2 16, .type (.named "a")⟩,
    ⟨.point 2 9, .type (.array 2 2)⟩,
    ⟨.point 2 1, .decl (.alias "b" 3)⟩,
    ⟨.point 3 9, .type (.named "a")⟩,
    ⟨.point 3 1, .decl (.alias "c" 5)⟩,
    ⟨.point 4 9, .type (.named "d")⟩,
    ⟨.point 4 1, .decl (.alias "d" 7)⟩]
  definitions := [1, 4, 6, 8]

theorem cycles_are_reported_once_twoCycles :
    twoCycles.IsTreeShaped ∧
      {C | IsCycle twoCycles twoCycles.source.resolve.bindings C}.ncard = 2 ∧
      Tainted twoCycles twoCycles.source.resolve.bindings 6 := by
  have tree : twoCycles.IsTreeShaped := by decide +kernel
  obtain ⟨-, -, count, poison⟩ := cycles_are_reported_once tree
  refine ⟨tree, ?_, ?_⟩
  · rw [← count]
    decide +kernel
  · obtain ⟨τ, known, bad⟩ := poison 6 "c" 5 ⟨6, by decide, .refl⟩ rfl
    apply bad.1
    have recorded : ((twoCycles.source.check twoCycles.source.resolve.bindings).types.get? 6).any
      Ty.isError =
        true := by decide +kernel
    rwa [known, Option.any_some] at recorded

end PinsBackend.Assignment
