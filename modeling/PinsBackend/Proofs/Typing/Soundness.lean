import PinsBackend.Proofs.Typing.Visits

/-! Programs that are typed without a report have an assignment.

The rules determine the type of each node: first those of written types and of declarations, which
may refer to each other, then those of expressions, from the leaves up. Without reports each
declaration has such a type, so these types come out of each other, and the checker has made all its
checks on them. -/
namespace PinsBackend.Assignment

open Relation
open Typing Lexical

variable {id : NodeId} {kind : Arena.Kind} {τ : Ty} {σ : Typing}

/-! ## The types that the rules determine -/

/-- The nodes whose types a written type or a declaration is made of. -/
def written (B : NodeTable Binding) (id : NodeId) : Arena.Kind → List NodeId
  | .type (.array _ element) => [element]
  | .type (.named _) => ((B.get? id).bind Binding.decl?).toList
  | .decl (.alias _ t) | .decl (.param _ t) | .decl (.var _ t _) => [t]
  | .decl (.function _ params result _) => params ++ [result]
  | .type (.atom _) | .expr _ => []

theorem mem_written {B : NodeTable Binding} {p : Arena.Role × NodeId} (hp : p ∈ kind.children)
    (isType : p.1 = .type) : p.2 ∈ written B id kind := by
  obtain ⟨role, c⟩ := p
  obtain rfl : role = .type := isType
  rcases kind with d | e | t
  · cases d <;> simp_all [written]
  · rcases e with _ | _ | _ | _ | _ | _ | ⟨_, _, _ | _⟩ | _ | _ | _ | _ | _ <;>
      simp at hp
  · cases t <;> simp_all [written]

/-- The types of written types and of declarations. -/
inductive Denotes (a : Arena) (B : NodeTable Binding) : NodeId → Ty → Prop
  | node {id : NodeId} {node : Arena.Node} {T : NodeId → Ty} {τ : Ty}
      (hnode : a.node? id = some node)
      (parts : ∀ c ∈ written B id node.kind, Denotes a B c (T c))
      (h : Declares B T id τ node.kind) : Denotes a B id τ

variable {a : Arena} {B : NodeTable Binding} {T T' : NodeId → Ty}

theorem Declares.congr (h : Declares B T id τ kind) (same : ∀ c ∈ written B id kind, T c = T' c) :
    Declares B T' id τ kind := by
  rcases kind with d | e | t
  · cases d with
    | «alias» x t =>
      have eq : τ = .alias x (T t) := h
      rw [same t (by simp [written])] at eq
      exact eq
    | param x t =>
      have eq : τ = T t := h
      rw [same t (by simp [written])] at eq
      exact eq
    | var x t init =>
      have eq : τ = T t := h
      rw [same t (by simp [written])] at eq
      exact eq
    | function f params result body =>
      have eq : τ = .function (params.map T) (T result) := h
      rw [same result (by simp [written]),
        List.map_congr_left fun p hp => same p (by simp [written, hp])] at eq
      exact eq
  · exact h
  · cases t with
    | atom => exact h
    | array n element => exact ⟨h.1, h.2.trans (by rw [same element (by simp [written])])⟩
    | named x =>
      obtain ⟨d, hb, eq⟩ := h
      exact ⟨d, hb, eq.trans (same d (by simp [written, hb, Binding.decl?]))⟩

/-- The parts determine the whole. -/
theorem Declares.unique {τ' : Ty} (h : Declares B T id τ kind) (h' : Declares B T id τ' kind) :
    τ = τ' := by
  rcases kind with d | e | t
  · cases d with
    | «alias» | param | var | function => exact Eq.trans h (Eq.symm h')
  · exact h.elim
  · cases t with
    | atom => exact Eq.trans h (Eq.symm h')
    | array => exact h.2.trans h'.2.symm
    | named =>
      obtain ⟨d, hb, eq⟩ := h
      obtain ⟨d', hb', eq'⟩ := h'
      rw [hb] at hb'
      cases hb'
      exact eq.trans eq'.symm

theorem Denotes.unique {τ' : Ty} (h : Denotes a B id τ) (h' : Denotes a B id τ') : τ = τ' := by
  induction h generalizing τ' with
  | node hnode _ rule ih =>
    cases h' with
    | node hnode' parts' rule' =>
      rw [hnode] at hnode'
      cases hnode'
      exact (rule.congr fun c hc => ih c hc (parts' c hc)).unique rule'

open Classical in
/-- The type of a written type or of a declaration, if it has one. -/
noncomputable def denoted (a : Arena) (B : NodeTable Binding) (id : NodeId) : Ty :=
  if h : ∃ τ, Denotes a B id τ then h.choose else .error

theorem Denotes.eq (h : Denotes a B id τ) : denoted a B id = τ := by
  have some : ∃ τ, Denotes a B id τ := ⟨τ, h⟩
  rw [denoted, dif_pos some]
  exact some.choose_spec.unique h

theorem Denotes.parts (h : Denotes a B id τ) {node : Arena.Node} (hnode : a.node? id = some node) :
    (∀ c ∈ written B id node.kind, Denotes a B c (denoted a B c)) ∧
      Declares B (denoted a B) id τ node.kind := by
  cases h with
  | node hnode' parts rule =>
    rw [hnode] at hnode'
    cases hnode'
    have same := fun c hc => (parts c hc).eq
    exact ⟨fun c hc => (same c hc).symm ▸ parts c hc, rule.congr fun c hc => (same c hc).symm⟩

/-- A node with a denotation is no expression. -/
theorem Denotes.expr?_eq_none (h : Denotes a B id τ) : a.expr? id = none := by
  cases h with
  | @node _ node _ _ hnode _ rule =>
    obtain ⟨position, kind⟩ := node
    cases kind with
    | expr => exact rule.elim
    | decl | type => simp [Arena.expr?, hnode]

section

variable {id : NodeId} (same : ∀ c, a.Child id c → T c = T' c)
  (declared : ∀ j, a.expr? j = none → T j = T' j)

include same declared

theorem infer_congr {position : Position} {e : Arena.Expr}
    (hnode : a.node? id = some ⟨position, .expr e⟩) : infer a B T id e = infer a B T' id e := by
  have child {c : NodeId} (hc : c ∈ (Arena.Kind.expr e).children.map Prod.snd) : T c = T' c :=
    same c ⟨_, hnode, hc⟩
  have all (es : List NodeId) (hes : ∀ c ∈ es, c ∈ (Arena.Kind.expr e).children.map Prod.snd) :
      es.map T = es.map T' := List.map_congr_left fun c hc => child (hes c hc)
  have decl {d : NodeId} (hd : (a.decl? d).isSome) : T d = T' d := by
    obtain ⟨decl, hd⟩ := Option.isSome_iff_exists.1 hd
    obtain ⟨position, hnode⟩ := Arena.node?_of_decl? hd
    exact declared d (by simp [Arena.expr?, hnode])
  cases e with
  | hole | literal => rfl
  | name x =>
    simp only [infer]
    split
    · next d hb =>
      simp only [Context.boundVar?, context, Option.bind_eq_bind, Option.bind_eq_some_iff,
        Arena.get?_signatures] at hb
      obtain ⟨b, -, d', -, hb⟩ := hb
      have hd : (a.decl? d').isSome := by
        cases hd : a.decl? d' with
        | none => simp [Arena.signature?, hd] at hb
        | some => rfl
      have : d' = d := by
        split at hb
        · exact Option.some.inj hb
        · exact Option.some.inj hb
        · cases hb
      rw [decl (this ▸ hd)]
    · rfl
  | unary op e => simp only [infer, child (c := e) (by simp)]
  | binary op l r =>
    simp only [infer, child (c := l) (by simp),
      child (c := r) (by simp)]
  | call f args =>
    simp only [infer, all args (by simp)]
    split
    · rfl
    · rfl
    · next d hb =>
      split
      · next hd => rw [decl (by simp [hd])]
      · rfl
  | block items => simp only [infer, all items (by simp)]
  | ifThen c t e =>
    cases e with
    | none => simp only [infer, child (c := c) (by simp)]
    | some e =>
      simp only [infer, child (c := c) (by simp),
        child (c := t) (by simp), child (c := e) (by simp)]
  | whileDo c b => simp only [infer, child (c := c) (by simp)]
  | forDo c lo hi st b =>
    simp only [infer, steps, child (c := c) (by simp),
      child (c := lo) (by simp), child (c := hi) (by simp),
      child (c := st) (by simp)]
  | «scoped» ds b => simp only [infer, child (c := b) (by simp)]
  | assign t v =>
    simp only [infer, child (c := t) (by simp),
      child (c := v) (by simp)]

end

/-- The types of expressions from those of their parts, up to so many levels. -/
noncomputable def valueAt (a : Arena) (B : NodeTable Binding) : Nat → NodeId → Ty
  | 0, id => denoted a B id
  | n + 1, id =>
    match a.expr? id with
    | some e => (infer a B (valueAt a B n) id e {}).1
    | none => denoted a B id

/-- The types of all nodes, those of written types and of declarations given. -/
noncomputable def derived (a : Arena) (B : NodeTable Binding) : NodeId → Ty :=
  valueAt a B a.nodes.size

theorem valueAt_other {n : Nat} (none : a.expr? id = none) : valueAt a B n id = denoted a B id := by
  cases n with
  | zero => rfl
  | succ n => rw [valueAt, none]

/-- More levels than the tree has do not change its type. -/
theorem valueAt_of_deep (tree : a.IsTreeShaped) {n m : Nat} (le : n ≤ m) (deep : a.Deep n id) :
    valueAt a B n id = valueAt a B m id := by
  induction n generalizing m id with
  | zero =>
    rw [valueAt_other, valueAt_other]
    all_goals
      cases he : a.expr? id with
      | none => rfl
      | some e =>
        obtain ⟨position, hnode⟩ := Arena.node?_of_expr? he
        obtain ⟨_, none⟩ := deep.pos tree.single hnode
        cases none
  | succ n ih =>
    obtain ⟨m, rfl⟩ : ∃ k, m = k + 1 := ⟨m - 1, by omega⟩
    cases he : a.expr? id with
    | none => rw [valueAt_other he, valueAt_other he]
    | some e =>
      obtain ⟨position, hnode⟩ := Arena.node?_of_expr? he
      have parts : ∀ c, a.Child id c → valueAt a B n c = valueAt a B m c := fun c hc =>
        ih (by omega) (deep.child tree.single hc)
      have declared : ∀ j, a.expr? j = none → valueAt a B n j = valueAt a B m j := fun j none => by
        rw [valueAt_other none, valueAt_other none]
      simp only [valueAt, he, infer_congr parts declared hnode]

theorem derived_infer (tree : a.IsTreeShaped) {e : Arena.Expr} (reached : a.Reached id)
    (he : a.expr? id = some e) : (infer a B (derived a B) id e {}).1 = derived a B id := by
  obtain ⟨position, hnode⟩ := Arena.node?_of_expr? he
  obtain ⟨n, deep⟩ := reached.deep tree.single
  obtain ⟨n, rfl⟩ := deep.pos tree.single hnode
  have parts : ∀ c, a.Child id c → valueAt a B n c = derived a B c := fun c hc =>
    valueAt_of_deep tree (deep.child tree.single hc).le (deep.child tree.single hc)
  have declared : ∀ j, a.expr? j = none → valueAt a B n j = derived a B j := fun j none => by
    rw [derived, valueAt_other none, valueAt_other none]
  have own : valueAt a B (n + 1) id = derived a B id := valueAt_of_deep tree deep.le deep
  rw [← own, ← infer_congr parts declared hnode, valueAt, he]

/-- The derived types come out of each other if the rules give a type to each written type and to
each declaration. -/
theorem values_derived (tree : a.IsTreeShaped)
    (all : ∀ {id}, a.Reached id → a.expr? id = none → Denotes a B id (denoted a B id)) :
    Values a B (derived a B) where
  declared {id node} reached hnode none := by
    obtain ⟨parts, rule⟩ := (all reached none).parts hnode
    have own : derived a B id = denoted a B id := valueAt_other none
    rw [own]
    exact rule.congr fun c hc => (valueAt_other (parts c hc).expr?_eq_none).symm
  inferred := derived_infer tree

/-! ## What the checker gives -/

/-- What is remembered of written types and of declarations is what they denote. -/
def Faithful (a : Arena) (B : NodeTable Binding) (σ : Typing) : Prop :=
  ∀ id τ, σ.types.get? id = some τ → a.expr? id = none → Denotes a B id τ

theorem Faithful.insert (h : Faithful a B σ) (own : a.expr? id = none → Denotes a B id τ) :
    Faithful a B { σ with types := σ.types.insert id τ } := by
  intro j τ' hj none
  rcases get?_insert_cases hj with hj | ⟨rfl, rfl⟩
  · exact h j τ' hj none
  · exact own none

theorem Makes.denotes {c : NodeId} {f : Ty → Ty} (h : Makes a B id c f)
    (denotes : Denotes a B c τ) : Denotes a B id (f τ) := by
  cases h with
  | «alias» hd | param hd | var hd =>
    obtain ⟨position, hnode⟩ := Arena.node?_of_decl? hd
    exact .node (T := fun _ => τ) hnode (by simpa [written] using denotes) rfl
  | array ht pos =>
    obtain ⟨position, hnode⟩ := Arena.node?_of_type? ht
    exact .node (T := fun _ => τ) hnode (by simpa [written] using denotes) ⟨pos, rfl⟩
  | named ht hb =>
    obtain ⟨position, hnode⟩ := Arena.node?_of_type? ht
    exact .node (T := fun _ => τ) hnode (by simpa [written, hb, Binding.decl?] using denotes)
      ⟨c, hb, rfl⟩

theorem Denotes.atom {t : NodeId} {atom : Syntax.Atom} (ht : a.type? t = some (.atom atom)) :
    Denotes a B t (atomType atom) := by
  obtain ⟨position, hnode⟩ := Arena.node?_of_type? ht
  exact .node (T := fun _ => .error) hnode (by simp [written]) rfl

theorem Resolves.quiet {resolving : List NodeId} {r : Ty × Typing}
    (h : Resolves a B resolving id σ r) (clean : r.2.errors = #[]) : σ.errors = #[] := by
  induction h with
  | known | atom | unbound => exact clean
  | cycle | empty => exact absurd clean Array.push_ne_empty
  | made _ _ _ _ ih => exact ih clean

theorem ResolvesAll.quiet {ids : List NodeId} {rs : List Ty × Typing} (h : ResolvesAll a B ids σ rs)
    (clean : rs.2.errors = #[]) : σ.errors = #[] := by
  induction h with
  | nil => exact clean
  | cons first _ ih => exact first.quiet (ih clean)

section

variable (tree : a.IsTreeShaped) (bound : Bound a B)

include bound

theorem Resolves.faithful {resolving : List NodeId} {id : NodeId} {σ : Typing} {r : Ty × Typing}
    (h : Resolves a B resolving id σ r) (reached : a.Reached id) (faithful : Faithful a B σ)
    (clean : r.2.errors = #[]) : Faithful a B r.2 ∧ Denotes a B id r.1 := by
  induction h with
  | known other old => exact ⟨faithful, faithful _ _ old other⟩
  | cycle | empty => exact absurd clean Array.push_ne_empty
  | atom ht _ => exact ⟨faithful.insert fun _ => .atom ht, .atom ht⟩
  | unbound ht _ free =>
    obtain ⟨d, -, -, hb, -⟩ := bound.type reached ht
    exact absurd hb (free d)
  | made makes _ _ _ ih =>
    obtain ⟨faithful', denotes⟩ := ih (makes.reached (suited_of_bound bound) reached) faithful clean
    exact ⟨faithful'.insert fun _ => makes.denotes denotes, makes.denotes denotes⟩

theorem ResolvesAll.faithful {ids : List NodeId} {σ : Typing} {rs : List Ty × Typing}
    (h : ResolvesAll a B ids σ rs) (reached : ∀ id ∈ ids, a.Reached id) (faithful : Faithful a B σ)
    (clean : rs.2.errors = #[]) : Faithful a B rs.2 ∧ rs.1 = ids.map (denoted a B) ∧
      ∀ id ∈ ids, Denotes a B id (denoted a B id) := by
  induction h with
  | nil => exact ⟨faithful, rfl, by simp⟩
  | cons first rest ih =>
    obtain ⟨faithful₁, denotes⟩ :=
      first.faithful bound (reached _ (by simp)) faithful (rest.quiet clean)
    obtain ⟨faithful₂, values, all⟩ := ih (fun id hid => reached id (by simp [hid])) faithful₁ clean
    rw [List.map_cons, denotes.eq, List.forall_mem_cons, denotes.eq, values]
    exact ⟨faithful₂, rfl, denotes, all⟩

include tree

/-- Without reports, what is remembered of written types and of declarations is what they denote. -/
theorem stable_faithful : Stable a B fun σ => σ.errors = #[] → Faithful a B σ where
  report _ _ clean := absurd clean Array.push_ne_empty
  expr isExpr holds clean := (holds clean).insert fun none => by
    rw [none] at isExpr
    cases isExpr
  decl {d} reached isDecl σ holds clean := by
    obtain ⟨decl, hd⟩ := Option.isSome_iff_exists.1 isDecl
    have resolves := declType_resolves tree (suited_of_bound bound) hd reached σ
    generalize (context a B).declType d σ = r at resolves clean
    cases resolves with
    | chain h => exact (h.faithful bound reached (holds (h.quiet clean)) clean).1
    | @function _ params result _ rs r' hd _ first last =>
      obtain ⟨position, hnode⟩ := Arena.node?_of_decl? hd
      have part {p : Arena.Role × NodeId} (hp : p ∈ _) : a.Reached p.2 :=
        reached.child ⟨_, hnode, List.mem_map_of_mem hp⟩
      obtain ⟨faithful₁, values, all⟩ := first.faithful bound
        (fun id hid => part (p := (.param, id)) (by simp [hid]))
        (holds (first.quiet (last.quiet clean))) (last.quiet clean)
      obtain ⟨faithful₂, denotes⟩ := last.faithful bound
        (part (p := (.type, result)) (by simp)) faithful₁ clean
      refine faithful₂.insert fun _ => ?_
      rw [values, ← denotes.eq]
      refine .node hnode (fun c hc => ?_) rfl
      rcases List.mem_append.1 hc with hc | hc
      · exact all c hc
      · obtain rfl := List.mem_singleton.1 hc
        exact denotes.eq ▸ denotes

/-! ## The assignment -/

/-- Without reports, the rules give a type to each written type and to each declaration. -/
theorem denotes_of_clean (clean : (a.source.check B).errors = #[]) {id : NodeId}
    (reached : a.Reached id) (none : a.expr? id = none) : Denotes a B id (denoted a B id) := by
  have faithful : Faithful a B (a.source.check B) :=
    (visits_check tree (closed_of_bound bound)).keeps (stable_faithful tree bound) {}
      (fun _ id _ known => absurd (by simp [Recorded, known]) (not_recorded id)) clean
  have decl {d : NodeId} (reached : a.Reached d) (other : a.type? d = Option.none)
      (none : a.expr? d = Option.none) : Denotes a B d (denoted a B d) := by
    obtain ⟨τ, known⟩ :=
      Option.isSome_iff_exists.1 (check_recorded tree (closed_of_bound bound) reached other)
    have denotes := faithful d τ known none
    exact denotes.eq ▸ denotes
  have rooted := reached
  obtain ⟨root, hroot, path⟩ := rooted
  induction path with
  | refl =>
    obtain ⟨d, hd⟩ := Option.isSome_iff_exists.1 ((sited_definition tree hroot).isDecl (.inl rfl))
    obtain ⟨position, hnode⟩ := Arena.node?_of_decl? hd
    exact decl reached (by simp [Arena.type?, hnode]) none
  | @tail p c path child ih =>
    cases ht : a.type? c with
    | none => exact decl reached ht none
    | some type =>
      -- A written type is a part of what it stands in.
      obtain ⟨⟨position, kind⟩, hnode, mem⟩ := child
      obtain ⟨⟨role, c⟩, hc, rfl⟩ := List.mem_map.1 mem
      obtain ⟨position', hnode'⟩ := Arena.node?_of_type? ht
      obtain ⟨_, hchild, accepts⟩ := tree.place hnode hc
      rw [hnode'] at hchild
      cases hchild
      have isType : role = .type := by
        cases role with
        | type => rfl
        | _ => cases accepts
      have inside : c ∈ written B p kind := mem_written hc isType
      have other : a.expr? p = Option.none := by
        cases kind with
        | expr => cases inside
        | decl | type => simp [Arena.expr?, hnode]
      exact ((ih ⟨root, hroot, path⟩ other).parts hnode).1 c inside

/-- A program that is typed without a report has an assignment. -/
theorem assigns_derived (clean : (a.source.check B).errors = #[]) : Assigns a B (derived a B) := by
  have values := values_derived tree (denotes_of_clean tree bound clean)
  exact values.assigns ((check_clean_iff_silent tree bound values).1 clean)

/-- The checker reports nothing exactly if types can be assigned to all nodes of the program. -/
theorem check_clean_iff : (a.source.check B).errors = #[] ↔ ∃ T, Assigns a B T :=
  ⟨fun clean => ⟨_, assigns_derived tree bound clean⟩, fun ⟨_, h⟩ => check_clean tree bound h⟩

end

end PinsBackend.Assignment
