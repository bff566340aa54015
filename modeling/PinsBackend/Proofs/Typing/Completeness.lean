import PinsBackend.Proofs.Typing.Resolving

/-! What the checker gives and when it reports.

Let every node have the type that comes out from those of its parts. As long as the table agrees
with these types, every computation of the checker gives what they say, and it reports nothing
exactly if all checks are passed on the way. So a program that has an assignment is typed without a
report. No alias is met while it is being resolved: the type behind a reference is a part of the
type of the alias. -/
namespace PinsBackend.Assignment

open Relation
open Typing Lexical

variable {id : NodeId} {P : Prop} {site : Syntax.Site} {node : Arena.Node} {ctx : Context}

variable {a : Arena} {B : NodeTable Binding} {T : NodeId → Ty} {α β : Type}

/-! ## Answers -/

/-- The table says what the types say. -/
def Agrees (T : NodeId → Ty) (σ : Typing) : Prop := ∀ id τ, σ.types.get? id = some τ → τ = T id

/-- Where the table agrees with the types the computation gives this value, and it reports nothing
exactly on this condition. -/
def Answers (T : NodeId → Ty) (x : CheckM α) (v : α) (P : Prop) : Prop :=
  ∀ σ, Agrees T σ → (x σ).1 = v ∧ Agrees T (x σ).2 ∧ (P → (x σ).2.errors = σ.errors) ∧
    (¬ P → σ.errors.size < (x σ).2.errors.size)

theorem agrees_init : Agrees T {} := fun id τ h =>
  absurd (Option.isSome_iff_exists.2 ⟨τ, h⟩) (not_recorded id)

theorem Agrees.insert {σ : Typing} (h : Agrees T σ) (id : NodeId) :
    Agrees T { σ with types := σ.types.insert id (T id) } := by
  intro j τ hj
  rcases get?_insert_cases hj with hj | ⟨rfl, rfl⟩
  · exact h j τ hj
  · rfl

theorem Answers.congr {x : CheckM α} {v : α} {Q : Prop} (h : Answers T x v P) (iff : P ↔ Q) :
    Answers T x v Q := propext iff ▸ h

theorem Answers.clean_iff {x : CheckM α} {v : α} (h : Answers T x v P) :
    (x {}).2.errors = #[] ↔ P := by
  obtain ⟨-, -, silent, reports⟩ := h {} agrees_init
  constructor
  · intro clean
    by_contra fails
    have := reports fails
    simp [clean] at this
  · exact silent

theorem Answers.plain {x : CheckM α} (hx : Plain x) :
    Answers T x (x {}).1 ((outcome x).isSome = true) := by
  intro σ agrees
  rw [hx.run σ]
  refine ⟨rfl, agrees, fun silent => ?_, fun reports => ?_⟩
  · obtain ⟨v, hv⟩ := Option.isSome_iff_exists.1 silent
    have := hx.run_eq hv σ
    rw [hx.run σ] at this
    exact congrArg (·.2.errors) this
  · have : (x {}).2.errors ≠ #[] := fun none => reports (by simp [outcome, none])
    simpa [Array.size_pos_iff] using this

theorem Answers.pure (v : α) : Answers T (pure v : CheckM α) v True :=
  (Answers.plain (.pure v)).congr (by simp)

theorem Answers.bind {x : CheckM α} {f : α → CheckM β} {v : α} {w : β} {Q : Prop}
    (hx : Answers T x v P) (hf : Answers T (f v) w Q) : Answers T (x >>= f) w (P ∧ Q) := by
  intro σ agrees
  obtain ⟨rfl, agrees₁, silent₁, reports₁⟩ := hx σ agrees
  obtain ⟨value, agrees₂, silent₂, reports₂⟩ := hf _ agrees₁
  refine ⟨value, agrees₂, fun h => (silent₂ h.2).trans (silent₁ h.1), fun h => ?_⟩
  rw [bind_run]
  by_cases hP : P
  · rw [← silent₁ hP]
    exact reports₂ fun hQ => h ⟨hP, hQ⟩
  · by_cases hQ : Q
    · rw [silent₂ hQ]
      exact reports₁ hP
    · exact (reports₁ hP).trans (reports₂ hQ)

theorem Answers.expect (expected found : Ty) (site : Syntax.Site) :
    Answers T (expect expected found site) (expect expected found site {}).1
      (fits expected found = true) :=
  (Answers.plain (plain_expect _ _ _)).congr (by rw [← expect_isSome, Option.isSome_iff_exists])

/-- A part whose type is compared with an expected one. -/
theorem Answers.checked {x : CheckM Ty} {τ expected : Ty} {y : CheckM α} {w : α} {Q : Prop}
    (hx : Answers T x τ P) (hy : Answers T y w Q) :
    Answers T (do
      let found ← x
      let _ ← Typing.expect expected found site
      y) w (P ∧ fits expected τ = true ∧ Q) :=
  hx.bind ((Answers.expect _ _ _).bind hy)

/-- A report on a condition that is made before the rest. -/
theorem Answers.unless {p : Prop} [Decidable p] {e : TypeError} (other : e.isCycle = false)
    {x : CheckM α} {v : α} (hx : Answers T x v P) :
    Answers T (if p then (do
      report e
      x) else x) v (¬ p ∧ P) := by
  by_cases h : p
  · rw [if_pos h]
    exact .congr ((Answers.plain (.report other)).bind hx) (by simp [outcome_report, h])
  · rw [if_neg h]
    exact hx.congr (by simp [h])

theorem Answers.typed {x : CheckM Ty} {τ : Ty} (own : τ = T site.id) (hx : Answers T x τ P) :
    Answers T (typed site x) τ P := by
  subst own
  intro σ agrees
  obtain ⟨value, agrees', reports⟩ := hx σ agrees
  have inserted := agrees'.insert site.id
  rw [← value] at inserted
  exact ⟨value, inserted, reports⟩

theorem boundVar?_of_name (bound : Bound a B) {x : String} (reached : a.Reached id)
    (he : a.expr? id = some (.name x)) :
    ∃ d decl, (context a B).boundVar? id = some d ∧ a.decl? d = some decl ∧ a.Reached d := by
  obtain ⟨d, decl, hb, hd, value, hr⟩ := bound.value reached he
  refine ⟨d, decl, ?_, hd, hr⟩
  have signature := Arena.get?_signatures (a := a) d
  simp only [Arena.signature?, hd] at signature
  cases decl with
  | «alias» | function => cases value
  | param | var => simp [Context.boundVar?, context, hb, Binding.decl?, signature]

/-- Every node has the type that comes out from those of its parts, whether or not its checks are
passed. -/
structure Values (a : Arena) (B : NodeTable Binding) (T : NodeId → Ty) : Prop where
  declared : ∀ {id node}, a.Reached id → a.node? id = some node → a.expr? id = none →
    Declares B T id (T id) node.kind
  inferred : ∀ {id e}, a.Reached id → a.expr? id = some e → (infer a B T id e {}).1 = T id

/-! ## Declarations -/

section

variable {id : NodeId} {f : Ty → Ty} {resolving : List NodeId}

variable (tree : a.IsTreeShaped) (bound : Bound a B) (values : Values a B T)

include tree bound values

omit tree bound in
theorem Makes.assigned {c : NodeId} (h : Makes a B id c f) (reached : a.Reached id) :
    T id = f (T c) := by
  cases h with
  | «alias» hd | param hd | var hd =>
    obtain ⟨position, hnode⟩ := Arena.node?_of_decl? hd
    exact values.declared reached hnode (by simp [Arena.expr?, hnode])
  | array ht =>
    obtain ⟨position, hnode⟩ := Arena.node?_of_type? ht
    exact (values.declared reached hnode (by simp [Arena.expr?, hnode])).2
  | named ht hb =>
    obtain ⟨position, hnode⟩ := Arena.node?_of_type? ht
    obtain ⟨d, hb', eq⟩ := values.declared reached hnode (by simp [Arena.expr?, hnode])
    rw [hb] at hb'
    cases hb'
    exact eq

omit tree bound values in
/-- The aliases that are being resolved have larger types. -/
theorem Makes.larger {c : NodeId} {resolving' : List NodeId} (h : Makes a B id c f)
    (eq : T id = f (T c)) (below : below? a id resolving = some resolving')
    (larger : ∀ r ∈ resolving, sizeOf (T id) < sizeOf (T r)) :
    ∀ r ∈ resolving', sizeOf (T c) < sizeOf (T r) := by
  rw [eq] at larger
  cases h with
  | «alias» hd =>
    have less (τ : Ty) (x : String) : sizeOf τ < sizeOf (Ty.alias x τ) := by
      rw [Ty.alias.sizeOf_spec]
      omega
    intro r hr
    rcases below?_subset below hr with rfl | hr
    · rw [eq]
      exact less _ _
    · exact (less _ _).trans (larger r hr)
  | param hd | var hd =>
    simp only [below?, hd] at below
    cases below
    exact larger
  | named ht =>
    rw [below?_type ht] at below
    cases below
    exact larger
  | array ht =>
    rw [below?_type ht] at below
    cases below
    intro r hr
    have := larger r hr
    rw [Ty.array.sizeOf_spec] at this
    omega

omit tree in
theorem Resolves.answers {σ : Typing} {r : Ty × Typing} (h : Resolves a B resolving id σ r)
    (reached : a.Reached id) (larger : ∀ r ∈ resolving, sizeOf (T id) < sizeOf (T r))
    (agrees : Agrees T σ) :
    r.1 = T id ∧ Agrees T r.2 ∧ r.2.errors = σ.errors := by
  induction h with
  | known _ old => exact ⟨agrees _ _ old, agrees, rfl⟩
  | cycle _ _ met => exact absurd (larger _ met) (Nat.lt_irrefl _)
  | @atom _ t atom _ ht _ =>
    obtain ⟨position, hnode⟩ := Arena.node?_of_type? ht
    have eq : T t = atomType atom := values.declared reached hnode (by simp [Arena.expr?, hnode])
    rw [← eq]
    exact ⟨rfl, agrees.insert _, rfl⟩
  | unbound ht _ free =>
    obtain ⟨d, -, -, hb, -⟩ := bound.type reached ht
    exact absurd hb (free d)
  | empty ht _ neg =>
    obtain ⟨position, hnode⟩ := Arena.node?_of_type? ht
    have pos := (values.declared reached hnode (by simp [Arena.expr?, hnode])).1
    omega
  | made makes _ below _ ih =>
    have eq := makes.assigned values reached
    obtain ⟨value, agrees', errors⟩ :=
      ih (makes.reached (suited_of_bound bound) reached) (makes.larger eq below larger) agrees
    rw [value, ← eq]
    exact ⟨rfl, agrees'.insert _, errors⟩

omit tree in
theorem ResolvesAll.answers {ids : List NodeId} {σ : Typing} {rs : List Ty × Typing}
    (h : ResolvesAll a B ids σ rs) (reached : ∀ id ∈ ids, a.Reached id) (agrees : Agrees T σ) :
    rs.1 = ids.map T ∧ Agrees T rs.2 ∧ rs.2.errors = σ.errors := by
  induction h with
  | nil => exact ⟨rfl, agrees, rfl⟩
  | cons first _ ih =>
    obtain ⟨value, agrees₁, errors₁⟩ :=
      first.answers bound values (reached _ (by simp)) (by simp) agrees
    obtain ⟨values, agrees₂, errors₂⟩ := ih (fun id hid => reached id (by simp [hid])) agrees₁
    exact ⟨by rw [value, values, List.map_cons], agrees₂, errors₂.trans errors₁⟩

/-- Every declaration of the program gets its type when it is needed. -/
theorem declType_answers {d : NodeId} {decl : Arena.Decl} (hd : a.decl? d = some decl)
    (reached : a.Reached d) : Answers T ((context a B).declType d) (T d) True := by
  intro σ agrees
  suffices ((context a B).declType d σ).1 = T d ∧ Agrees T ((context a B).declType d σ).2 ∧
      ((context a B).declType d σ).2.errors = σ.errors from
    ⟨this.1, this.2.1, fun _ => this.2.2, fun h => absurd trivial h⟩
  have resolves := declType_resolves tree (suited_of_bound bound) hd reached σ
  generalize (context a B).declType d σ = r at resolves
  cases resolves with
  | chain h => exact h.answers bound values reached (by simp) agrees
  | function hd _ first last =>
    obtain ⟨position, hnode⟩ := Arena.node?_of_decl? hd
    have part {p : Arena.Role × NodeId} (hp : p ∈ _) : a.Reached p.2 :=
      reached.child ⟨_, hnode, List.mem_map_of_mem hp⟩
    obtain ⟨params, agrees₁, errors₁⟩ := first.answers bound values
      (fun id hid => part (p := (.param, id)) (by simp [hid])) agrees
    obtain ⟨result, agrees₂, errors₂⟩ := last.answers bound values
      (part (p := (.type, _)) (by simp)) (by simp) agrees₁
    have eq := values.declared reached hnode (by simp [Arena.expr?, hnode])
    rw [params, result, ← show T d = .function _ _ from eq]
    exact ⟨rfl, agrees₂.insert d, errors₂.trans errors₁⟩

end

/-! ## Checks -/

section

variable (a : Arena) (B : NodeTable Binding) (T : NodeId → Ty)

/-- The checks of a node are passed. -/
def Silent (id : NodeId) : Arena.Kind → Prop
  | .type _ => True
  | .decl d => (outcome (accept a T id (T id) d)).isSome = true
  | .expr e => (outcome (infer a B T id e)).isSome = true

/-- All checks at the nodes under this one are passed. -/
def Fine (id : NodeId) : Prop :=
  ∀ {j node}, ReflTransGen a.Child id j → a.node? j = some node → Silent a B T j node.kind

end

theorem fine_iff (hnode : a.node? id = some node) :
    Fine a B T id ↔ Silent a B T id node.kind ∧ ∀ p ∈ node.kind.children, Fine a B T p.2 := by
  constructor
  · intro fine
    exact ⟨fine .refl hnode, fun p hp _ _ path =>
      fine (.head ⟨node, hnode, List.mem_map_of_mem hp⟩ path)⟩
  · rintro ⟨own, parts⟩ j node' path hnode'
    rcases ReflTransGen.cases_head path with rfl | ⟨c, ⟨_, known, child⟩, rest⟩
    · rw [hnode] at hnode'
      cases hnode'
      exact own
    · rw [hnode] at known
      cases known
      obtain ⟨p, hp, rfl⟩ := List.mem_map.1 child
      exact parts p hp rest hnode'

/-- Under a written type stand written types only. -/
theorem type_under (tree : a.IsTreeShaped) {t : NodeId} (ht : ∃ type, a.type? t = some type)
    (path : ReflTransGen a.Child t id) : ∃ type, a.type? id = some type := by
  induction path with
  | refl => exact ht
  | tail _ child ih =>
    obtain ⟨type, htype⟩ := ih
    obtain ⟨position, hnode⟩ := Arena.node?_of_type? htype
    obtain ⟨node, hnode', mem⟩ := child
    rw [hnode] at hnode'
    cases hnode'
    obtain ⟨⟨role, c⟩, hp, rfl⟩ := List.mem_map.1 mem
    obtain rfl : role = .type := by cases type <;> simp_all
    exact tree.type hnode hp

theorem fine_type (tree : a.IsTreeShaped) {t : NodeId} (hnode : a.node? id = some node)
    (place : (.type, t) ∈ node.kind.children) : Fine a B T t := by
  intro j node' path hnode'
  obtain ⟨type, ht⟩ := type_under tree (tree.type hnode place) path
  obtain ⟨position, known⟩ := Arena.node?_of_type? ht
  rw [known] at hnode'
  cases hnode'
  trivial

/-- The trees of so many levels are typed as the types say, without a report if all checks are
passed. -/
structure Mirrors (a : Arena) (B : NodeTable Binding) (T : NodeId → Ty) (n : Nat) : Prop where
  expr : ∀ {id}, Sited a n .expr id →
    Answers T (Typing.expr (context a B) (a.exprTree n id)) (T id) (Fine a B T id)
  decl : ∀ {role id}, role = .item ∨ role = .param → Sited a n role id →
    Answers T (Typing.decl (context a B) (a.declTree n id)) () (Fine a B T id)

theorem Mirrors.exprs {n : Nat} (h : Mirrors a B T n) {es : List NodeId}
    (sited : ∀ e ∈ es, Sited a n .expr e) :
    Answers T (Typing.exprs (context a B) (es.map (a.exprTree n)))
      (es.map T) (∀ e ∈ es, Fine a B T e) := by
  induction es with
  | nil => exact (Answers.pure _).congr (by simp)
  | cons e es ih =>
    have rest := ih fun e he => sited e (by simp [he])
    refine .congr ((h.expr (sited e (by simp))).bind (rest.bind (.pure _))) ?_
    simp

theorem Mirrors.decls {n : Nat} (h : Mirrors a B T n) {role : Arena.Role}
    (hrole : role = .item ∨ role = .param) {ds : List NodeId} (sited : ∀ d ∈ ds, Sited a n role d) :
    Answers T (Typing.decls (context a B) (ds.map (a.declTree n))) () (∀ d ∈ ds, Fine a B T d) := by
  induction ds with
  | nil => exact (Answers.pure _).congr (by simp)
  | cons d ds ih =>
    have rest := ih fun d hd => sited d (by simp [hd])
    refine .congr ((h.decl hrole (sited d (by simp))).bind rest) ?_
    simp

theorem exprTree_site (n : Nat) (id : NodeId) : (a.exprTree n id).site = a.site id := by
  cases n with
  | zero => rfl
  | succ n =>
    unfold Arena.exprTree
    split <;> rfl

theorem isLocation_exprTree (n : Nat) (id : NodeId) :
    isLocation ctx (a.exprTree (n + 1) id) = isLocation ctx (a.exprTree 1 id) := by
  unfold Arena.exprTree
  cases a.expr? id with
  | none => rfl
  | some e =>
    cases e with
    | binary op l r => cases op <;> rfl
    | ifThen c t e => cases e <;> rfl
    | _ => rfl

theorem assignType_exprTree {value : Syntax.Site} {t v : Ty} (n : Nat) (target : NodeId) :
    assignType ctx site (a.exprTree (n + 1) target) t v value =
      assignType ctx site (a.exprTree 1 target) t v value := by
  simp only [assignType, isLocation_exprTree]

section

variable {id : NodeId}

variable (tree : a.IsTreeShaped) (bound : Bound a B) (values : Values a B T) {n : Nat}

include tree bound values

theorem callType_answers {f : String} {args : List NodeId} (reached : a.Reached id)
    (he : a.expr? id = some (.call f args)) :
    Answers T (callType (context a B) (a.site id) f (args.map T) (args.map a.site)) (T id)
      (Silent a B T id (.expr (.call f args))) := by
  have value := values.inferred reached he
  have whole := plain_infer (a := a) (B := B) (T := T) id (.call f args)
  simp only [Silent, infer] at value whole ⊢
  unfold callType
  simp only [context, Arena.site]
  rcases bound.callee reached he with ⟨b, hb⟩ | ⟨d, decl, hb, hd, -, hr⟩
  · simp only [hb] at value ⊢
    exact value ▸ .plain (plain_applyType _ _ _ _ _)
  · have signature := Arena.get?_signatures (a := a) d
    simp only [Arena.signature?, hd] at signature
    simp only [hb, hd] at value whole ⊢
    cases decl with
    | function g ps r b =>
      simp only [signature]
      have applied :=
        Answers.plain (T := T) (plain_applyType (a.site id) f (T d) (args.map T) (args.map a.site))
      rw [value] at applied
      exact .congr ((declType_answers tree bound values hd hr).bind applied)
        ⟨And.right, fun h => ⟨trivial, h⟩⟩
    | «alias» | param | var =>
      simp only [signature]
      exact value ▸ .plain whole

theorem Mirrors.expr_succ (h : Mirrors a B T n) (sited : Sited a (n + 1) .expr id) :
    Answers T (Typing.expr (context a B) (a.exprTree (n + 1) id)) (T id) (Fine a B T id) := by
  obtain ⟨⟨position, kind⟩, hnode, accepts⟩ := sited.accepts
  have child {p : Arena.Role × NodeId} (hp : p ∈ kind.children) : Sited a n p.1 p.2 :=
    sited.child tree hnode hp
  have sub {c : NodeId} (hc : (.expr, c) ∈ kind.children) :
      Answers T (Typing.expr (context a B) (a.exprTree n c)) (T c) (Fine a B T c) :=
        h.expr (child hc)
  cases kind with
  | decl | type => cases accepts
  | expr e =>
    have he : a.expr? id = some e := by simp [Arena.expr?, hnode]
    have value := values.inferred sited.deep.reached he
    have rule : Answers T (infer a B T id e) (T id) (Silent a B T id (.expr e)) :=
      value ▸ .plain (plain_infer id e)
    -- the node has its type, and its own checks come on top of those of its parts
    have whole {x : CheckM Ty} {τ : Ty} {P : Prop} (hx : Answers T x τ P) (own : τ = T id)
        (iff : P ↔ Silent a B T id (.expr e) ∧ ∀ p ∈ (Arena.Kind.expr e).children, Fine a B T p.2) :
        Answers T (typed (a.site id) x) (T id) (Fine a B T id) :=
      (Answers.typed rfl (own ▸ hx)).congr (iff.trans (fine_iff hnode).symm)
    have logical {c : NodeId} {τ : Ty} : (outcome (do
        let _ ← expect .logical (T c) (a.site c)
        return τ)).isSome = true ↔ fits .logical (T c) = true := by
      rw [outcome_condition]
      split <;> simp_all
    rw [Arena.exprTree, he]
    cases e with
    | hole | literal => exact whole rule rfl (by simp)
    | name x =>
      obtain ⟨d, decl, hb, hd, hr⟩ := boundVar?_of_name bound sited.deep.reached he
      simp only [infer, hb] at value
      refine whole (P := True) ?_ value ?_
      · simp only [Arena.site, hb]
        exact declType_answers tree bound values hd hr
      · simp [Silent, infer, hb]
    | unary op e =>
      simp only [Typing.expr, exprTree_site]
      refine whole ((sub (by simp)).bind rule) rfl ?_
      simp [and_comm]
    | binary op l r =>
      simp only [Typing.expr, exprTree_site]
      refine whole ((sub (by simp)).bind
        ((sub (by simp)).bind rule)) rfl ?_
      simp [and_comm, and_assoc]
    | call f args =>
      simp only [Typing.expr, List.map_map,
        show Syntax.Expr.site ∘ a.exprTree n = a.site from funext (exprTree_site n)]
      refine whole ((h.exprs fun e he => child (p := (.expr, e)) (by simpa using he)).bind
        (callType_answers tree bound values sited.deep.reached he)) rfl ?_
      simp [and_comm]
    | block items =>
      refine whole ((h.exprs fun e he => child (p := (.expr, e)) (by simpa using he)).bind
        rule) rfl ?_
      simp [and_comm]
    | ifThen c t e =>
      cases e with
      | none =>
        refine whole ((sub (by simp)).checked
          ((sub (c := t) (by simp)).bind (.pure _))) value ?_
        simp only [Silent, infer, logical]
        simp [and_left_comm]
      | some e =>
        refine whole ((sub (by simp)).checked
          ((sub (c := t) (by simp)).bind
            ((sub (c := e) (by simp)).bind (.pure _)))) value ?_
        simp only [Silent, infer, logical]
        simp [and_left_comm]
    | whileDo c b =>
      refine whole ((sub (by simp)).checked
        ((sub (c := b) (by simp)).bind (.pure _))) value ?_
      simp only [Silent, infer, logical]
      simp [and_left_comm]
    | forDo c lo hi st b =>
      simp only [Typing.expr, exprTree_site, Arena.exprTree_id]
      refine whole ((sub (by simp)).bind (.unless rfl ((Answers.expect _ _ _).bind
        ((sub (by simp)).checked ((sub (by simp)).checked
          ((sub (by simp)).checked
            ((sub (c := b) (by simp)).bind (.pure _)))))))) ?_ ?_
      · rw [← value, infer]
        split <;> rfl
      · have counter : ¬ (((context a B).boundVar? c).isNone && !(T c).isError) = true ↔
            (((context a B).boundVar? c).isSome || (T c).isError) = true := by
          cases (context a B).boundVar? c <;> simp
        have some {p : Prop} [Decidable p] : (if p then some Ty.void else none).isSome = true ↔
            p := by
          split <;> simp_all
        simp only [Silent, outcome_loop, some, counter, Arena.Kind.children, List.forall_mem_cons]
        simp
        tauto
    | «scoped» ds b =>
      refine whole ((h.decls (.inl rfl) fun d hd =>
        child (p := (.item, d)) (by simpa using hd)).bind
          (sub (c := b) (by simp))) value ?_
      simp +contextual [Silent, infer, or_imp, forall_and]
    | assign t v =>
      obtain ⟨m, rfl⟩ := (child (p := (.expr, t)) (by simp)).pos tree
      simp only [Typing.expr, exprTree_site, assignType_exprTree]
      refine whole ((sub (by simp)).bind
        ((sub (by simp)).bind rule)) rfl ?_
      simp [and_comm, and_assoc]

theorem Mirrors.decl_succ (h : Mirrors a B T n) {role : Arena.Role}
    (hrole : role = .item ∨ role = .param) (sited : Sited a (n + 1) role id) :
    Answers T (Typing.decl (context a B) (a.declTree (n + 1) id)) () (Fine a B T id) := by
  obtain ⟨⟨position, kind⟩, hnode, accepts⟩ := sited.accepts
  have child {p : Arena.Role × NodeId} (hp : p ∈ kind.children) : Sited a n p.1 p.2 :=
    sited.child tree hnode hp
  cases kind with
  | expr | type => rcases hrole with rfl | rfl <;> cases accepts
  | decl d =>
    have hd : a.decl? id = some d := by simp [Arena.decl?, hnode]
    have type := declType_answers tree bound values hd sited.deep.reached
    have whole {x : CheckM Unit} {P : Prop} (hx : Answers T x () P)
      (iff : P ↔ Silent a B T id (.decl d) ∧
        ∀ p ∈ (Arena.Kind.decl d).children, p.1 ≠ .type → Fine a B T p.2) : Answers T x ()
          (Fine a B T id) := by
      refine hx.congr (iff.trans ?_)
      rw [fine_iff hnode]
      refine and_congr_right fun _ => forall₂_congr fun p hp => ⟨fun fine => ?_, fun fine _ => fine⟩
      by_cases isType : p.1 = .type
      · obtain ⟨role, t⟩ := p
        cases isType
        exact fine_type tree hnode hp
      · exact fine isType
    rw [Arena.declTree, hd]
    cases d with
    | «alias» | param => exact whole (type.bind (.pure _)) (by simp [Silent, accept])
    | var x t init =>
      cases init with
      | none => exact whole (type.bind (.pure _)) (by simp [Silent, accept])
      | some init =>
        simp only [Option.map_some, Typing.decl, exprTree_site]
        refine whole (type.bind ((h.expr (child (p := (.expr, init)) (by simp))).bind
          (.plain (plain_accept id (T id) (.var x t (some init)))))) ?_
        change True ∧ Fine a B T init ∧ Silent a B T id (.decl (.var x t (some init))) ↔ _
        simp [and_comm]
    | function f params result body =>
      have own : T id = .function (params.map T) (T result) :=
        values.declared sited.deep.reached hnode (by simp [Arena.expr?, hnode])
      have params' := h.decls (.inr rfl) fun p hp =>
        child (p := (.param, p)) (by simpa using hp)
      have body' := h.expr (child (p := (.expr, body)) (by simp))
      rw [own] at type
      simp only [Typing.decl, exprTree_site]
      refine whole
        (type.bind
        (params'.bind (.unless rfl (body'.bind (.plain (plain_returns result body)))))) ?_
      have silent : Silent a B T id (.decl (.function f params result body)) ↔
          ¬ (!(T result).isError && !(T result).isAtomic) = true ∧
            (outcome (returns a T result body)).isSome = true := by
        simp only [Silent, accept]
        split
        · next bad => simp [outcome_bind fun _ => plain_returns _ _, outcome_report, bad]
        · next fine => exact (and_iff_right fine).symm
      rw [silent]
      simp +contextual [or_imp, forall_and]
      tauto

theorem mirrors (n : Nat) : Mirrors a B T n := by
  induction n with
  | zero =>
    exact ⟨fun sited => (not_sited_zero tree sited).elim, fun _ sited =>
      (not_sited_zero tree sited).elim⟩
  | succ n ih =>
    exact ⟨ih.expr_succ tree bound values, fun hrole => ih.decl_succ tree bound values hrole⟩

theorem check_answers : Answers T (Typing.decls (context a B) a.source.definitions) ()
    (∀ d ∈ a.definitions, Fine a B T d) :=
  (mirrors tree bound values a.nodes.size).decls (.inl rfl) fun _ => sited_definition tree

/-- The checker reports nothing exactly if all checks of the program are passed. -/
theorem check_clean_iff_silent : (a.source.check B).errors = #[] ↔
    ∀ id node, a.Reached id → a.node? id = some node → Silent a B T id node.kind := by
  refine (check_answers tree bound values).clean_iff.trans ⟨?_, ?_⟩
  · rintro fine id node ⟨root, hroot, path⟩ hnode
    exact fine root hroot path hnode
  · intro silent d hd j node path hnode
    exact silent j node ⟨d, hd, path⟩ hnode

end

theorem Assigns.values (assigns : Assigns a B T) : Values a B T where
  declared {id node} reached hnode other := by
    obtain ⟨position, kind⟩ := node
    have passes := assigns id _ reached hnode
    cases kind with
    | type => exact passes
    | decl => exact passes.1
    | expr => simp [Arena.expr?, hnode] at other
  inferred {id e} reached he := by
    obtain ⟨position, hnode⟩ := Arena.node?_of_expr? he
    have passes : outcome (infer a B T id e) = some (T id) := assigns id _ reached hnode
    exact (plain_infer id e).value passes

/-- Types that come out of each other are an assignment if all checks are passed. -/
theorem Values.assigns (values : Values a B T)
    (silent : ∀ id node, a.Reached id → a.node? id = some node → Silent a B T id node.kind) :
    Assigns a B T := by
  intro id node reached hnode
  have own := silent id node reached hnode
  obtain ⟨position, kind⟩ := node
  cases kind with
  | type => exact values.declared reached hnode (by simp [Arena.expr?, hnode])
  | decl =>
    obtain ⟨_, passes⟩ := Option.isSome_iff_exists.1 own
    exact ⟨values.declared reached hnode (by simp [Arena.expr?, hnode]), passes⟩
  | expr e =>
    obtain ⟨τ, passes⟩ := Option.isSome_iff_exists.1 own
    have value := (plain_infer id e).value passes
    rw [values.inferred reached (by simp [Arena.expr?, hnode])] at value
    exact passes.trans (congrArg some value.symm)

theorem Assigns.silent (assigns : Assigns a B T) (reached : a.Reached id)
    (hnode : a.node? id = some node) : Silent a B T id node.kind := by
  have passes := assigns id node reached hnode
  obtain ⟨position, kind⟩ := node
  cases kind with
  | type => trivial
  | decl => exact Option.isSome_iff_exists.2 ⟨_, passes.2⟩
  | expr => exact Option.isSome_iff_exists.2 ⟨_, passes⟩

/-- A program that has an assignment is typed without a report. -/
theorem check_clean (tree : a.IsTreeShaped) (bound : Bound a B) (assigns : Assigns a B T) :
    (a.source.check B).errors = #[] :=
  (check_clean_iff_silent tree bound assigns.values).2 fun _ _ => assigns.silent

end PinsBackend.Assignment
