import PinsBackend.Proofs.Names.Binding
import PinsBackend.Proofs.Syntax.WellFormed

/-! Lexical scoping.

Where a node stands in an arena, the regions around it say what every name means there: the
innermost region that declares the name decides, and in it the first declaration. Regions are read
off the arena, without a walk that opens and closes scopes. -/
namespace PinsBackend.Lexical

open Resolution (Finding)

variable {node : Arena.Node}

/-- A block of declarations, seen from a place inside it. -/
structure Region where
  decls : List NodeId
  /-- The declaration in whose initializer the place lies. -/
  initializing : Option Nat := none

/-! ## Names at a place -/

def nameKind : Arena.Decl → NameKind
  | .alias _ _ => .type
  | .function _ _ _ _ => .function
  | .param _ _ | .var _ _ _ => .var

/-- The first declaration of a name, with its place in the list. -/
def first? (a : Arena) (decls : List NodeId) (name : String) : Option (NodeId × Nat) :=
  decls.zipIdx.find? fun d => (a.decl? d.1).any fun decl => decl.name = name

structure Meaning where
  binding : Binding
  kind : NameKind
  /-- A variable that is not set yet where the initializer of its region is being read. -/
  early : Bool
  deriving DecidableEq

def Region.meaning? (a : Arena) (name : String) (r : Region) : Option Meaning :=
  (first? a r.decls name).bind fun d => (a.decl? d.1).map fun decl =>
    { binding := .decl d.1
      kind := nameKind decl
      early := nameKind decl = .var && r.initializing.any fun k => k ≤ d.2 }

def builtin? (name : String) : Option Meaning :=
  (Builtin.all.find? fun b => b.name = name).map fun b => ⟨.builtin b, .function, false⟩

/-- What a name means in these regions, the innermost first; the built-ins lie around all of them.
-/
def meaning? (a : Arena) (Γ : List Region) (name : String) : Option Meaning :=
  (Γ.findSome? (Region.meaning? a name)).or (builtin? name)

/-! ## Places -/

/-- The regions of the initializer of a declaration of the innermost region. -/
def entering (Γ : List Region) (id : NodeId) : List Region :=
  match Γ with
  | [] => []
  | r :: Γ => { r with initializing := r.decls.idxOf? id } :: Γ

/-- The nodes at the places of a node, with the regions around them. The types of parameters and
results stand where their function stands. -/
def inside (a : Arena) (Γ : List Region) (id : NodeId) : List (List Region × NodeId) :=
  match (a.node? id).map Arena.Node.kind with
  | none => []
  | some (.decl (.function _ params result body)) =>
    params.map (Γ, ·) ++ [(Γ, result), (⟨params, none⟩ :: Γ, body)]
  | some (.decl (.var _ type init)) => (Γ, type) :: init.toList.map (entering Γ id, ·)
  | some (.expr (.scoped decls body)) =>
    decls.map (⟨decls, none⟩ :: Γ, ·) ++ [(⟨decls, none⟩ :: Γ, body)]
  | some kind => kind.children.map fun p => (Γ, p.2)

/-- A node of the program with the regions around it. -/
inductive Stands (a : Arena) : List Region → NodeId → Prop
  | top {id : NodeId} (h : id ∈ a.definitions) : Stands a [⟨a.definitions, none⟩] id
  | inside {Γ Γ' : List Region} {parent id : NodeId} (h : Stands a Γ parent)
      (mem : (Γ', id) ∈ inside a Γ parent) : Stands a Γ' id

/-! ## What is to be found -/

/-- The name that a node refers to, with the kind of declaration that it asks for. -/
def reference? : Arena.Kind → Option (NameKind × String)
  | .expr (.name x) => some (.var, x)
  | .expr (.call f _) => some (.function, f)
  | .type (.named x) => some (.type, x)
  | _ => none

/-- A call may name a variable; that it cannot be called is for the types. -/
def suits : NameKind → NameKind → Bool
  | .function, found => found ≠ .type
  | wanted, found => found = wanted

/-- What a name is bound to if it means what is wanted. -/
def choice? (a : Arena) (Γ : List Region) (wanted : NameKind) (name : String) : Option Binding :=
  (meaning? a Γ name).bind fun m => if suits wanted m.kind then some m.binding else none

/-- The binding of a reference that stands in these regions. -/
def binding? (a : Arena) (Γ : List Region) (id : NodeId) : Option Binding :=
  (a.node? id).bind fun node => (reference? node.kind).bind fun r => choice? a Γ r.1 r.2

/-- The report on the second declaration of a name; the first ones are given. -/
def duplicate? (a : Arena) (before : List NodeId) (d : NodeId) : Option NameError := do
  let decl ← a.decl? d
  let previous ← first? a before decl.name
  some (.duplicate decl.name (a.position d) (a.position previous.1))

/-- One report for each declaration whose name was declared before it in the same list. -/
def duplicates (a : Arena) (decls : List NodeId) : List NameError :=
  decls.zipIdx.filterMap fun d => duplicate? a (decls.take d.2) d.1

/-- The reports on a reference. -/
def unfit (a : Arena) (Γ : List Region) (wanted : NameKind) (name : String) (position : Position) :
    List NameError :=
  match meaning? a Γ name with
  | none => [.unresolved name position]
  | some m =>
    if suits wanted m.kind then
      if wanted = .var && m.early then [.forwardReference name position] else []
    else
      [.kindMismatch name wanted m.kind position]

/-- The reports on a node that stands in these regions. -/
def complaints (a : Arena) (Γ : List Region) (id : NodeId) : List NameError :=
  match (a.node? id).map Arena.Node.kind with
  | some (.decl (.function _ params _ _)) => duplicates a params
  | some (.expr (.scoped decls _)) => duplicates a decls
  | some kind =>
    (reference? kind).elim [] fun r => unfit a Γ r.1 r.2 (a.position id)
  | none => []

def findings (a : Arena) (Γ : List Region) (id : NodeId) : List Finding :=
  (complaints a Γ id).map .error ++ (binding? a Γ id).toList.map (.bound id)

variable {a : Arena} {chain : ScopeChain} {Γ Γ' : List Region} {d id c : NodeId} {decl : Arena.Decl}
  {n : Nat} {role : Arena.Role} {b : Binding}

/-! ## Scopes show regions -/

def recorded? (a : Arena) (decls : List NodeId) (name : String) : Option Scope.Entry :=
  (first? a decls name).bind fun d => (a.decl? d.1).map fun decl =>
    ⟨.decl d.1, nameKind decl, d.2, a.position d.1⟩

/-- A chain of scopes holds what the regions declare. -/
inductive Shows (a : Arena) : ScopeChain → List Region → Prop
  | root : Shows a [Resolution.root] []
  | cons {s : Scope} {r : Region} {chain : ScopeChain} {Γ : List Region}
      (entries : ∀ name, s.entries.lookup name = recorded? a r.decls name)
      (initializing : s.initializing = r.initializing) (outer : Shows a chain Γ) :
      Shows a (s :: chain) (r :: Γ)

def meaning (f : Found) : Meaning := ⟨f.entry.binding, f.entry.kind, f.uninitialized⟩

theorem find?_root (name : String) : (Resolution.root.find? name).map meaning = builtin? name := by
  have all : ∀ (bs : List Builtin) (k : Nat), ((bs.mapIdx fun order b =>
      ((b.name, ⟨.builtin b, .function, order + k, {}⟩) : String × Scope.Entry)).lookup name).map
        (fun e => (⟨e.binding, e.kind, false⟩ : Meaning)) =
      (bs.find? fun b => b.name = name).map fun b => ⟨.builtin b, .function, false⟩ := by
    intro bs
    induction bs with
    | nil => simp
    | cons b bs ih =>
      intro k
      rw [List.mapIdx_cons, List.lookup_cons, List.find?_cons]
      by_cases same : b.name = name
      · simp [same]
      · have other : (name == b.name) = false := by simpa using Ne.symm same
        simpa [same, other, Nat.add_assoc, Nat.add_comm 1 k] using ih (k + 1)
  rw [builtin?, ← all Builtin.all 0, Scope.find?, Option.map_map]
  simp [Resolution.root, meaning, Function.comp_def]

theorem find?_region {s : Scope} {r : Region}
    (entries : ∀ name, s.entries.lookup name = recorded? a r.decls name)
    (initializing : s.initializing = r.initializing) (name : String) :
    (s.find? name).map meaning = r.meaning? a name := by
  rw [Scope.find?, entries, initializing, recorded?, Region.meaning?]
  cases first? a r.decls name with
  | none => rfl
  | some d =>
    cases h : a.decl? d.1 with
    | none => simp [h]
    | some decl => simp [h, meaning]

theorem Shows.lookup (h : Shows a chain Γ) (name : String) :
    (chain.lookup name).map meaning = meaning? a Γ name := by
  induction h with
  | root =>
    rw [Resolution.lookup_cons, meaning?, ← find?_root]
    simp [ScopeChain.lookup]
  | cons entries initializing _ ih =>
    rename_i s r chain Γ _
    have own := find?_region entries initializing name
    rw [Resolution.lookup_cons, meaning?, List.findSome?_cons, ← own]
    cases s.find? name with
    | none => exact ih
    | some f => rfl

/-! ## Entering declarations -/

theorem first?_append (decls : List NodeId) (d : NodeId) (name : String) :
    first? a (decls ++ [d]) name = (first? a decls name).or
      (if (a.decl? d).any fun decl => decl.name = name then some (d, decls.length) else none) := by
  rw [first?, List.zipIdx_append, List.find?_append, first?]
  congr 1
  rw [List.zipIdx_singleton, List.find?_singleton, Nat.zero_add]

theorem recorded?_append (decls : List NodeId) (hd : a.decl? d = some decl) (name : String) :
    recorded? a (decls ++ [d]) name = (recorded? a decls name).or (if decl.name = name then
      some ⟨.decl d, nameKind decl, decls.length, a.position d⟩ else none) := by
  rw [recorded?, first?_append, recorded?]
  cases found : first? a decls name with
  | none => by_cases same : decl.name = name <;> simp [hd, same]
  | some e =>
    obtain ⟨other, he⟩ : ∃ other, a.decl? e.1 = some other := by
      have named := List.find?_some found
      cases he : a.decl? e.1 with
      | none => simp [he] at named
      | some other => exact ⟨other, rfl⟩
    simp [he]

theorem duplicate?_eq {before : List NodeId} (hd : a.decl? d = some decl) :
    duplicate? a before d = (recorded? a before decl.name).map fun previous =>
      .duplicate decl.name (a.position d) previous.position := by
  rw [duplicate?, hd, recorded?]
  cases found : first? a before decl.name with
  | none => simp [found]
  | some e =>
    have named := List.find?_some found
    cases he : a.decl? e.1 with
    | none => simp [he] at named
    | some other => simp [found, he]

theorem declared?_declTree (h : a.decl? d = some decl) :
    Resolution.declared? (a.declTree (n + 1) d) = some (nameKind decl, decl.name) := by
  rw [Arena.declTree, h]
  cases decl <;> rfl

theorem declTree_site (n : Nat) (d : NodeId) : (a.declTree n d).site = a.site d := by
  cases n with
  | zero => rfl
  | succ n => unfold Arena.declTree; split <;> rfl

/-- Declaring a list of nodes makes the scope hold what they declare. -/
theorem declare_shows {n : Nat} {chain : ScopeChain} (before decls : List NodeId)
    (nodes : ∀ d ∈ decls, (a.decl? d).isSome) {s : Scope}
    (entries : ∀ name, s.entries.lookup name = recorded? a before name) :
    ∃ s', Resolution.declare (s :: chain) before.length (decls.map (a.declTree (n + 1))) =
        (s' :: chain, ((decls.zipIdx before.length).filterMap fun d =>
          duplicate? a ((before ++ decls).take d.2) d.1).map .error) ∧
      (∀ name, s'.entries.lookup name = recorded? a (before ++ decls) name) ∧
      s'.initializing = s.initializing := by
  induction decls generalizing before s with
  | nil => exact ⟨s, rfl, by simpa using entries, rfl⟩
  | cons d decls ih =>
    obtain ⟨decl, hd⟩ := Option.isSome_iff_exists.1 (nodes d (by simp))
    have rest {s' : Scope} := ih (before ++ [d]) (fun e he => nodes e (by simp [he])) (s := s')
    simp only [List.append_assoc, List.singleton_append, List.length_append,
      List.length_singleton] at rest
    have here : (before ++ d :: decls).take before.length = before := List.take_left
    have position : (a.declTree (n + 1) d).site.position = a.position d := by
      rw [declTree_site]; rfl
    rw [List.map_cons, Resolution.declare, declared?_declTree hd]
    simp only [ScopeChain.declare, List.zipIdx_cons, List.filterMap_cons, here, entries,
      duplicate?_eq hd, position, Arena.declTree_id]
    cases known : recorded? a before decl.name with
    | none =>
      have more (name : String) :
        ((decl.name, (⟨.decl d, nameKind decl, before.length, a.position d⟩ :
          Scope.Entry)) :: s.entries).lookup name = recorded? a (before ++ [d]) name := by
        rw [recorded?_append before hd, List.lookup_cons, entries]
        by_cases same : decl.name = name
        · simp [← same, known]
        · simp [same, beq_eq_false_iff_ne.2 (Ne.symm same)]
      exact rest more
    | some previous =>
      have same (name : String) : s.entries.lookup name = recorded? a (before ++ [d]) name := by
        rw [recorded?_append before hd, entries]
        by_cases same : decl.name = name
        · simp [← same, known]
        · simp [same]
      obtain ⟨s', declared, shown, initializing⟩ := rest same
      exact ⟨s', by simp [declared], shown, initializing⟩

/-- The scope of a new block. -/
theorem Shows.push (h : Shows a chain Γ) {decls : List NodeId}
    (nodes : ∀ d ∈ decls, (a.decl? d).isSome) :
    ∃ inner, Resolution.declare chain.push 0 (decls.map (a.declTree (n + 1))) =
        (inner, (duplicates a decls).map .error) ∧ Shows a inner (⟨decls, none⟩ :: Γ) := by
  obtain ⟨s, declared, entries, initializing⟩ := @declare_shows a n chain [] decls nodes
    {} fun _ => rfl
  exact ⟨s ::
    chain, by simpa [ScopeChain.push, duplicates] using declared, .cons entries initializing h⟩

/-- The scopes while an initializer is read. -/
theorem Shows.beginInitializer {r : Region} (h : Shows a chain (r :: Γ)) {k : Nat}
    (place : r.decls.idxOf? id = some k) :
    Shows a (chain.beginInitializer k) (entering (r :: Γ) id) := by
  cases h with
  | cons entries _ outer => exact .cons entries place.symm outer

/-! ## The walk finds what is to be found -/

/-- The nodes under a node, down to so many levels, with the regions around them. -/
def nodes (a : Arena) : Nat → List Region → NodeId → List (List Region × NodeId)
  | 0, Γ, id => [(Γ, id)]
  | n + 1, Γ, id => (Γ, id) :: (inside a Γ id).flatMap fun p => nodes a n p.1 p.2

/-- All that is to be found under a node. -/
def found (a : Arena) (n : Nat) (Γ : List Region) (id : NodeId) : List Finding :=
  (nodes a n Γ id).flatMap fun p => findings a p.1 p.2

theorem found_succ (n : Nat) (Γ : List Region) (id : NodeId) :
    found a (n + 1) Γ id = findings a Γ id ++ (inside a Γ id).flatMap fun p =>
      found a n p.1 p.2 := by
  simp [found, nodes, List.flatMap_assoc]

section

variable {chain : ScopeChain} {Γ : List Region} {id : NodeId} {position : Position} {name : String}

/-- What is to be found at a reference. -/
theorem findings_reference {kind : Arena.Kind} {wanted : NameKind}
    (node : a.node? id = some ⟨position, kind⟩)
    (reference : reference? kind = some (wanted, name)) :
    findings a Γ id = (unfit a Γ wanted name (a.position id)).map .error ++
      (choice? a Γ wanted name).toList.map (.bound id) := by
  have own : complaints a Γ id = unfit a Γ wanted name (a.position id) := by
    unfold complaints
    rw [node, Option.map_some]
    split <;> simp_all [reference?]
  simp [findings, own, binding?, node, reference]

theorem value_eq (h : Shows a chain Γ) (node : a.node? id = some ⟨position, .expr (.name name)⟩) :
    Resolution.value chain (a.site id) name = findings a Γ id := by
  rw [findings_reference node rfl, unfit, choice?, ← h.lookup, Resolution.value]
  cases chain.lookup name with
  | none => rfl
  | some f =>
    by_cases kind : f.entry.kind = .var <;> cases early : f.uninitialized <;>
      simp [suits, meaning, Arena.site, kind, early]

theorem callee_eq (h : Shows a chain Γ) {args : List NodeId}
    (node : a.node? id = some ⟨position, .expr (.call name args)⟩) :
    Resolution.callee chain (a.site id) name = findings a Γ id := by
  rw [findings_reference node rfl, unfit, choice?, ← h.lookup, Resolution.callee]
  cases chain.lookup name with
  | none => rfl
  | some f => by_cases kind : f.entry.kind = .type <;> simp [suits, meaning, Arena.site, kind]

theorem named_eq (h : Shows a chain Γ) (node : a.node? id = some ⟨position, .type (.named name)⟩) :
    Resolution.typeExpr chain (.named (a.site id) name) = findings a Γ id := by
  rw [findings_reference node rfl, unfit, choice?, ← h.lookup, Resolution.typeExpr]
  cases chain.lookup name with
  | none => rfl
  | some f => by_cases kind : f.entry.kind = .type <;> simp [suits, meaning, Arena.site, kind]

end

/-- A node at a place for this role, with so many levels left for its tree. -/
structure Sited (a : Arena) (n : Nat) (role : Arena.Role) (id : NodeId) : Prop where
  deep : a.Deep n id
  accepts : ∃ node, a.node? id = some node ∧ role.accepts node.kind = true

theorem Sited.of_place (h : a.IsTreeShaped) {p : Arena.Role × NodeId} (hp : p ∈ a.places)
    (deep : a.Deep n p.2) : Sited a n p.1 p.2 := by
  refine ⟨deep, ?_⟩
  have accepts := h.accepts p hp
  cases hnode : a.node? p.2 with
  | none => simp [hnode] at accepts
  | some node => exact ⟨node, rfl, by simpa [hnode] using accepts⟩

theorem Sited.child (h : a.IsTreeShaped) (hs : Sited a (n + 1) role id)
    (hnode : a.node? id = some node) {p : Arena.Role × NodeId} (hp : p ∈ node.kind.children) :
    Sited a n p.1 p.2 :=
  .of_place h (Arena.mem_places hnode hp)
    (hs.deep.child h.single ⟨node, hnode, List.mem_map_of_mem hp⟩)

theorem Sited.of_reached (h : a.IsTreeShaped) (reached : a.Reached id)
    (hnode : a.node? id = some node) {p : Arena.Role × NodeId} (hp : p ∈ node.kind.children) :
    ∃ n, Sited a n p.1 p.2 := by
  obtain ⟨n, deep⟩ := reached.deep h.single
  obtain ⟨m, rfl⟩ := deep.pos h.single hnode
  exact ⟨m, .of_place h (Arena.mem_places hnode hp)
    (deep.child h.single ⟨node, hnode, List.mem_map_of_mem hp⟩)⟩

theorem Sited.pos (h : a.IsTreeShaped) (hs : Sited a n role id) : ∃ m, n = m + 1 := by
  obtain ⟨node, hnode, -⟩ := hs.accepts
  exact hs.deep.pos h.single hnode

theorem not_sited_zero (h : a.IsTreeShaped) : ¬ Sited a 0 role id := by
  intro hs
  obtain ⟨m, hm⟩ := hs.pos h
  cases hm

theorem Sited.isDecl (hrole : role = .item ∨ role = .param) (hs : Sited a n role id) :
    (a.decl? id).isSome := by
  obtain ⟨⟨position, kind⟩, hnode, accepts⟩ := hs.accepts
  cases kind with
  | decl d => simp [Arena.decl?, hnode]
  | expr | type => rcases hrole with rfl | rfl <;> cases accepts

theorem exprs_eq (chain : ScopeChain) (es : List Syntax.Expr) :
    Resolution.exprs chain es = es.flatMap (Resolution.expr chain) := by
  induction es with
  | nil => rfl
  | cons e es ih => rw [Resolution.exprs, ih, List.flatMap_cons]

theorem paramTypes_eq (chain : ScopeChain) (ps : List Syntax.Decl) :
    Resolution.paramTypes chain ps = ps.flatMap fun p => Resolution.paramTypes chain [p] := by
  simp [Resolution.paramTypes]

/-- The walk through the nodes below finds all that is to be found there. -/
structure Finds (a : Arena) (n : Nat) : Prop where
  type : ∀ {id chain Γ}, Sited a n .type id → Shows a chain Γ →
    (Resolution.typeExpr chain (a.typeTree n id)).Perm (found a n Γ id)
  expr : ∀ {id chain Γ}, Sited a n .expr id → Shows a chain Γ →
    (Resolution.expr chain (a.exprTree n id)).Perm (found a n Γ id)
  param : ∀ {id chain Γ}, Sited a n .param id → Shows a chain Γ →
    (Resolution.paramTypes chain [a.declTree n id]).Perm (found a n Γ id)
  item : ∀ {id chain r Γ k}, Sited a n .item id → Shows a chain (r :: Γ) →
    r.decls.idxOf? id = some k →
    (Resolution.decl chain k (a.declTree n id)).Perm (found a n (r :: Γ) id)

section

variable {ds : List NodeId}

variable {n : Nat} {id : NodeId} {chain : ScopeChain} {Γ : List Region} {position : Position}

theorem Finds.exprs (h : Finds a n) (shows : Shows a chain Γ) {es : List NodeId}
    (sited : ∀ e ∈ es, Sited a n .expr e) :
    (Resolution.exprs chain (es.map (a.exprTree n))).Perm (es.flatMap (found a n Γ)) := by
  rw [exprs_eq, List.flatMap_map]
  exact .flatMap_left _ fun e he => h.expr (sited e he) shows

theorem Finds.params (h : Finds a n) (shows : Shows a chain Γ) {ps : List NodeId}
    (sited : ∀ p ∈ ps, Sited a n .param p) :
    (Resolution.paramTypes chain (ps.map (a.declTree n))).Perm (ps.flatMap (found a n Γ)) := by
  rw [paramTypes_eq, List.flatMap_map]
  exact .flatMap_left _ fun p hp => h.param (sited p hp) shows

theorem Finds.items (h : Finds a n) (shows : Shows a chain (⟨ds, none⟩ :: Γ)) (distinct : ds.Nodup)
    (sited : ∀ d ∈ ds, Sited a n .item d) :
    (Resolution.decls chain 0 (ds.map (a.declTree n))).Perm
      (ds.flatMap (found a n (⟨ds, none⟩ :: Γ))) := by
  have rest : ∀ (before after : List NodeId), ds = before ++ after →
      (Resolution.decls chain before.length (after.map (a.declTree n))).Perm
        (after.flatMap (found a n (⟨ds, none⟩ :: Γ))) := by
    intro before after
    induction after generalizing before with
    | nil => exact fun _ => .refl _
    | cons d after ih =>
      intro whole
      have fresh : d ∉ before := fun hd =>
        (List.nodup_append.1 (whole ▸ distinct)).2.2 d hd d (by simp) rfl
      have place : ds.idxOf? d = some before.length := by
        have absent : before.idxOf? d = none := List.idxOf?_eq_none_iff.2 fresh
        rw [whole, List.idxOf?, List.findIdx?_append]
        rw [List.idxOf?] at absent
        simp [absent, List.findIdx?_cons]
      rw [List.map_cons, Resolution.decls, List.flatMap_cons]
      refine .append (h.item (sited d (by simp [whole])) shows place) ?_
      simpa using ih (before ++ [d]) (by simp [whole])
  exact rest [] ds rfl

/-- Nodes that refer to nothing and change no region. -/
def plain : Arena.Kind → Bool
  | .decl (.function _ _ _ _) | .decl (.var _ _ _) | .expr (.scoped _ _) | .expr (.name _)
  | .expr (.call _ _) | .type (.named _) => false
  | _ => true

theorem found_plain {kind : Arena.Kind} (hnode : a.node? id = some ⟨position, kind⟩)
    (h : plain kind = true) :
    found a (n + 1) Γ id = kind.children.flatMap fun p => found a n Γ p.2 := by
  have own : findings a Γ id = [] ∧ inside a Γ id = kind.children.map fun p => (Γ, p.2) := by
    simp only [findings, complaints, binding?, inside, hnode, Option.map_some, Option.bind_some]
    rcases kind with d | e | t
    · cases d <;> simp_all [plain, reference?]
    · cases e <;> simp_all [plain, reference?]
    · cases t <;> simp_all [plain, reference?]
  rw [found_succ, own.1, own.2, List.flatMap_map, List.nil_append]

theorem found_scoped {b : NodeId} (hnode : a.node? id = some ⟨position, .expr (.scoped ds b)⟩) :
    found a (n + 1) Γ id = (duplicates a ds).map .error ++
      (ds.flatMap (found a n (⟨ds, none⟩ :: Γ)) ++ found a n (⟨ds, none⟩ :: Γ) b) := by
  rw [found_succ]
  simp [findings, complaints, binding?, inside, hnode, reference?, List.flatMap_map]

theorem found_function {f : String} {params : List NodeId} {result body : NodeId}
    (hnode : a.node? id = some ⟨position, .decl (.function f params result body)⟩) :
    found a (n + 1) Γ id = (duplicates a params).map .error ++ (params.flatMap (found a n Γ) ++
      found a n Γ result ++ found a n (⟨params, none⟩ :: Γ) body) := by
  rw [found_succ]
  simp [findings, complaints, binding?, inside, hnode, reference?, List.flatMap_map]

theorem Finds.type_succ (tree : a.IsTreeShaped) (h : Finds a n) (sited : Sited a (n + 1) .type id)
    (shows : Shows a chain Γ) :
    (Resolution.typeExpr chain (a.typeTree (n + 1) id)).Perm (found a (n + 1) Γ id) := by
  obtain ⟨⟨position, kind⟩, hnode, accepts⟩ := sited.accepts
  cases kind with
  | decl | expr => cases accepts
  | type t =>
    have ht : a.type? id = some t := by simp [Arena.type?, hnode]
    rw [Arena.typeTree, ht]
    cases t with
    | atom =>
      rw [found_plain hnode rfl]
      exact .refl _
    | named x =>
      simp [found_succ, named_eq shows hnode, inside, hnode]
    | array size element =>
      have element := h.type (sited.child tree hnode (p := (.type, element)) (by simp))
        shows
      simpa [found_plain hnode rfl, Resolution.typeExpr] using element

theorem Finds.expr_succ (tree : a.IsTreeShaped) (h : Finds a n) (sited : Sited a (n + 1) .expr id)
    (shows : Shows a chain Γ) :
    (Resolution.expr chain (a.exprTree (n + 1) id)).Perm (found a (n + 1) Γ id) := by
  obtain ⟨⟨position, kind⟩, hnode, accepts⟩ := sited.accepts
  cases kind with
  | decl | type => cases accepts
  | expr e =>
    have he : a.expr? id = some e := by simp [Arena.expr?, hnode]
    have child {role : Arena.Role} {c : NodeId} (hc : (role, c) ∈ (Arena.Kind.expr e).children) :
        Sited a n role c := sited.child tree hnode hc
    have operand {c : NodeId} (hc : (.expr, c) ∈ (Arena.Kind.expr e).children) :
        (Resolution.expr chain (a.exprTree n c)).Perm (found a n Γ c) := h.expr (child hc) shows
    rw [Arena.exprTree, he]
    cases e with
    | literal | hole =>
      rw [found_plain hnode rfl]
      exact .refl _
    | name x =>
      simp [found_succ, Resolution.expr, value_eq shows hnode, inside, hnode]
    | call f args =>
      simp only [found_succ, Resolution.expr, callee_eq shows hnode, inside, hnode, Option.map_some,
        Arena.Kind.children, List.map_map, List.flatMap_map]
      exact .append_left _ (h.exprs shows fun c hc => child (by simp [hc]))
    | block items =>
      rw [found_plain hnode rfl, Arena.Kind.children, List.flatMap_map]
      exact h.exprs shows fun c hc => child (by simp [hc])
    | unary op e =>
      have inner := operand (c := e) (by simp)
      simpa [found_plain hnode rfl, Resolution.expr] using inner
    | binary op l r =>
      have both := (operand (c := l) (by simp)).append
        (operand (c := r) (by simp))
      simpa [found_plain hnode rfl, Resolution.expr] using both
    | whileDo c b =>
      have both := (operand (c := c) (by simp)).append
        (operand (c := b) (by simp))
      simpa [found_plain hnode rfl, Resolution.expr] using both
    | assign t v =>
      have both := (operand (c := t) (by simp)).append
        (operand (c := v) (by simp))
      simpa [found_plain hnode rfl, Resolution.expr] using both
    | ifThen c t e =>
      have both := (operand (c := c) (by simp)).append
        (operand (c := t) (by simp))
      cases e with
      | none => simpa [found_plain hnode rfl, Resolution.expr] using both
      | some e =>
        have all := both.append (operand (c := e) (by simp))
        simpa [found_plain hnode rfl, Resolution.expr] using all
    | forDo c lo hi st b =>
      have all := ((((operand (c := c) (by simp)).append
        (operand (c := lo) (by simp))).append
        (operand (c := hi) (by simp))).append
        (operand (c := st) (by simp))).append
        (operand (c := b) (by simp))
      simpa [found_plain hnode rfl, Resolution.expr] using all
    | «scoped» ds b =>
      have items : ∀ d ∈ ds, Sited a n .item d := fun d hd => child (by simp [hd])
      have body : Sited a n .expr b := child (by simp)
      obtain ⟨m, rfl⟩ := body.pos tree
      have distinct : ds.Nodup := by
        have all := tree.single.children_nodup hnode
        simp only [Arena.Kind.children, List.map_append, List.map_map] at all
        simpa using (List.nodup_append.1 all).1
      obtain ⟨inner, declared, innerShows⟩ :=
        shows.push (n := m) fun d hd => (items d hd).isDecl (.inl rfl)
      have all := (h.items innerShows distinct items).append (h.expr body innerShows)
      rw [found_scoped hnode]
      simpa [Resolution.expr, declared] using all.append_left ((duplicates a ds).map .error)

theorem Finds.param_succ (tree : a.IsTreeShaped) (h : Finds a n) (sited : Sited a (n + 1) .param id)
    (shows : Shows a chain Γ) :
    (Resolution.paramTypes chain [a.declTree (n + 1) id]).Perm (found a (n + 1) Γ id) := by
  obtain ⟨⟨position, kind⟩, hnode, accepts⟩ := sited.accepts
  match kind, hnode, accepts with
  | .decl (.param x t), hnode, _ =>
    have hd : a.decl? id = some (.param x t) := by simp [Arena.decl?, hnode]
    have type := h.type (sited.child tree hnode (p := (.type, t)) (by simp)) shows
    rw [Arena.declTree, hd]
    simpa [found_plain hnode rfl, Resolution.paramTypes] using type

theorem Finds.item_succ (tree : a.IsTreeShaped) (h : Finds a n) (sited : Sited a (n + 1) .item id)
    {r : Region} (shows : Shows a chain (r :: Γ)) {k : Nat} (place : r.decls.idxOf? id = some k) :
    (Resolution.decl chain k (a.declTree (n + 1) id)).Perm (found a (n + 1) (r :: Γ) id) := by
  obtain ⟨⟨position, kind⟩, hnode, accepts⟩ := sited.accepts
  cases kind with
  | expr | type => cases accepts
  | decl d =>
    have hd : a.decl? id = some d := by simp [Arena.decl?, hnode]
    have child {role : Arena.Role} {c : NodeId} (hc : (role, c) ∈ (Arena.Kind.decl d).children) :
        Sited a n role c := sited.child tree hnode hc
    have type {t : NodeId} (ht : (.type, t) ∈ (Arena.Kind.decl d).children) :
        (Resolution.typeExpr chain (a.typeTree n t)).Perm (found a n (r :: Γ) t) :=
      h.type (child ht) shows
    rw [Arena.declTree, hd]
    cases d with
    | «alias» x t =>
      have whole := type (t := t) (by simp)
      simpa [found_plain hnode rfl, Resolution.decl] using whole
    | param x t =>
      have whole := type (t := t) (by simp)
      simpa [found_plain hnode rfl, Resolution.decl] using whole
    | var x t init =>
      have declared := type (t := t) (by simp)
      cases init with
      | none =>
        simpa [found_succ, Resolution.decl, findings, complaints, binding?, inside, hnode,
          reference?]
          using declared
      | some init =>
        have value := h.expr (child (c := init) (by simp))
          (shows.beginInitializer place)
        simpa [found_succ, Resolution.decl, findings, complaints, binding?, inside, hnode,
          reference?]
          using declared.append value
    | function f params result body =>
      have ps : ∀ p ∈ params, Sited a n .param p := fun p hp => child (by simp [hp])
      have returned := type (t := result) (by simp)
      have body' : Sited a n .expr body := child (by simp)
      obtain ⟨m, rfl⟩ := body'.pos tree
      obtain ⟨inner, declared, innerShows⟩ :=
        shows.push (n := m) fun p hp => (ps p hp).isDecl (.inr rfl)
      have types :=
        ((h.params shows ps).append returned).append_right ((duplicates a params).map .error)
      have all := (types.trans List.perm_append_comm).append (h.expr body' innerShows)
      rw [found_function hnode]
      simpa [Resolution.decl, declared] using all

theorem finds (tree : a.IsTreeShaped) (n : Nat) : Finds a n := by
  induction n with
  | zero =>
    have none {role : Arena.Role} {id : NodeId} : ¬ Sited a 0 role id := not_sited_zero tree
    exact ⟨fun sited => (none sited).elim, fun sited => (none sited).elim,
      fun sited => (none sited).elim, fun sited => (none sited).elim⟩
  | succ n ih =>
    exact ⟨ih.type_succ tree, ih.expr_succ tree, ih.param_succ tree,
      fun sited shows place => ih.item_succ tree sited shows place⟩

end

/-! ## All nodes of a program -/

/-- The nodes of a program with the regions around them. -/
def allNodes (a : Arena) : List (List Region × NodeId) :=
  a.definitions.flatMap (nodes a a.nodes.size [⟨a.definitions, none⟩])

theorem sited_definition (tree : a.IsTreeShaped) (hd : d ∈ a.definitions) :
    Sited a a.nodes.size .item d :=
  .of_place tree (p := (.item, d)) (List.mem_append_left _ (List.mem_map_of_mem hd)) (.root hd)

/-- The walk finds what is to be found at each node. -/
theorem program_perm (tree : a.IsTreeShaped) :
    (Resolution.program a.source.definitions).Perm ((duplicates a a.definitions).map .error ++
      (allNodes a).flatMap fun p => findings a p.1 p.2) := by
  by_cases empty : a.definitions = []
  · simp [allNodes, Arena.source, empty, Resolution.program, Resolution.declare, Resolution.decls,
      duplicates]
  · obtain ⟨d, hd⟩ := List.exists_mem_of_ne_nil _ empty
    obtain ⟨m, size⟩ := (sited_definition tree hd).pos tree
    obtain ⟨inner, declared, shows⟩ := Shows.push (a := a) .root (n := m) fun d hd =>
      (sited_definition tree hd).isDecl (.inl rfl)
    have items := (finds tree _).items shows tree.single.definitions_nodup fun d hd =>
      sited_definition tree hd
    rw [Arena.source, Resolution.program, allNodes, List.flatMap_assoc]
    rw [← size] at declared
    rw [declared]
    exact items.append_left _

theorem map_snd_inside (Γ : List Region) {id : NodeId} :
    (inside a Γ id).map Prod.snd =
      (a.node? id).elim [] fun node => node.kind.children.map Prod.snd := by
  unfold inside
  cases a.node? id with
  | none => rfl
  | some node =>
    obtain ⟨position, kind⟩ := node
    rcases kind with d | e | t
    · cases d <;> simp [Function.comp_def]
    · cases e <;> simp [Function.comp_def]
    · cases t <;> simp

theorem map_snd_nodes (n : Nat) (Γ : List Region) (id : NodeId) :
    (nodes a n Γ id).map Prod.snd = a.below n id := by
  induction n generalizing Γ id with
  | zero => rfl
  | succ n ih =>
    have children : (inside a Γ id).flatMap (fun p => a.below n p.2) =
        (a.node? id).elim [] fun node => node.kind.children.flatMap fun p => a.below n p.2 := by
      have := congrArg (List.flatMap (a.below n)) (@map_snd_inside a Γ id)
      rw [List.flatMap_map] at this
      rw [this]
      cases a.node? id <;> simp [List.flatMap_map]
    rw [nodes, List.map_cons, List.map_flatMap, Arena.below, ← children]
    simp [ih]

/-- Each node stands in one place. -/
theorem allNodes_nodup (single : a.Unshared) : ((allNodes a).map Prod.snd).Nodup := by
  have ids : (allNodes a).map Prod.snd = a.definitions.flatMap (a.below a.nodes.size) := by
    rw [allNodes, List.map_flatMap]
    exact List.flatMap_congr fun d _ => map_snd_nodes _ _ d
  rw [ids]
  exact single.program_nodup

theorem mem_nodes_inside (single : a.Unshared) (deep : a.Deep n id) {Γ₁ Γ₂ : List Region}
    {p : NodeId} (hp : (Γ₁, p) ∈ nodes a n Γ id) (hc : (Γ₂, c) ∈ inside a Γ₁ p) :
    (Γ₂, c) ∈ nodes a n Γ id := by
  have some_node : ∃ node, a.node? p = some node := by
    cases hnode : a.node? p with
    | none => simp [inside, hnode] at hc
    | some node => exact ⟨node, rfl⟩
  induction n generalizing id Γ with
  | zero =>
    obtain ⟨rfl, rfl⟩ : Γ₁ = Γ ∧ p = id := by simpa [nodes] using hp
    obtain ⟨node, hnode⟩ := some_node
    obtain ⟨m, hm⟩ := deep.pos single hnode
    cases hm
  | succ n ih =>
    rw [nodes, List.mem_cons, List.mem_flatMap] at hp ⊢
    rcases hp with eq | ⟨q, hq, hp⟩
    · obtain ⟨rfl, rfl⟩ : Γ₁ = Γ ∧ p = id := by simpa using eq
      refine .inr ⟨_, hc, ?_⟩
      cases n <;> simp [nodes]
    · refine .inr ⟨q, hq, ih (deep.child single ?_) hp⟩
      have := List.mem_map_of_mem (f := Prod.snd) hq
      rw [map_snd_inside] at this
      cases hnode : a.node? id with
      | none => simp [hnode] at this
      | some node => exact ⟨node, hnode, by simpa [hnode] using this⟩

theorem stands_of_mem_nodes (h : Stands a Γ id) (hc : (Γ', c) ∈ nodes a n Γ id) :
    Stands a Γ' c := by
  induction n generalizing Γ id with
  | zero =>
    obtain ⟨rfl, rfl⟩ : Γ' = Γ ∧ c = id := by simpa [nodes] using hc
    exact h
  | succ n ih =>
    rw [nodes, List.mem_cons, List.mem_flatMap] at hc
    rcases hc with eq | ⟨q, hq, hc⟩
    · obtain ⟨rfl, rfl⟩ : Γ' = Γ ∧ c = id := by simpa using eq
      exact h
    · exact ih (h.inside hq) hc

theorem mem_allNodes (single : a.Unshared) : (Γ, id) ∈ allNodes a ↔ Stands a Γ id := by
  constructor
  · intro h
    obtain ⟨d, hd, hid⟩ := List.mem_flatMap.1 h
    exact stands_of_mem_nodes (.top hd) hid
  · intro h
    induction h with
    | top hd =>
      refine List.mem_flatMap.2 ⟨_, hd, ?_⟩
      cases a.nodes.size <;> simp [nodes]
    | inside _ mem ih =>
      obtain ⟨d, hd, hid⟩ := List.mem_flatMap.1 ih
      exact List.mem_flatMap.2 ⟨d, hd, mem_nodes_inside single (.root hd) hid mem⟩

/-- A node stands in one list of regions. -/
theorem Stands.unique (single : a.Unshared) (h : Stands a Γ id) (h' : Stands a Γ' id) : Γ = Γ' := by
  have eq := List.inj_on_of_nodup_map (allNodes_nodup single) ((mem_allNodes single).2 h)
    ((mem_allNodes single).2 h') rfl
  exact congrArg Prod.fst eq

theorem mem_inside {p : NodeId} (h : a.Child p c) : ∃ Γ', (Γ', c) ∈ inside a Γ p := by
  obtain ⟨node, hnode, hc⟩ := h
  have : c ∈ (inside a Γ p).map Prod.snd := by
    rw [map_snd_inside, hnode]
    exact hc
  obtain ⟨⟨Γ', c⟩, mem, rfl⟩ := List.mem_map.1 this
  exact ⟨Γ', mem⟩

theorem child_of_mem_inside {p : NodeId} (h : (Γ', c) ∈ inside a Γ p) : a.Child p c := by
  have := List.mem_map_of_mem (f := Prod.snd) h
  rw [map_snd_inside] at this
  cases hnode : a.node? p with
  | none => simp [hnode] at this
  | some node => exact ⟨node, hnode, by simpa [hnode] using this⟩

/-- The nodes that stand somewhere are those that the definitions reach. -/
theorem reached_iff : a.Reached id ↔ ∃ Γ, Stands a Γ id := by
  constructor
  · rintro ⟨root, hroot, path⟩
    induction path with
    | refl => exact ⟨_, .top hroot⟩
    | tail _ child ih =>
      obtain ⟨Γ, h⟩ := ih
      obtain ⟨Γ', mem⟩ := mem_inside child
      exact ⟨Γ', h.inside mem⟩
  · rintro ⟨Γ, h⟩
    induction h with
    | top hd => exact ⟨_, hd, .refl⟩
    | inside _ mem ih => exact ih.child (child_of_mem_inside mem)

/-! ## Bindings and reports -/

theorem bound_mem_findings {j : NodeId} :
    .bound j b ∈ findings a Γ id ↔ j = id ∧ binding? a Γ id = some b := by
  cases hb : binding? a Γ id with
  | none => simp [findings, hb]
  | some c =>
    simp only [findings, hb, List.mem_append, List.mem_map, Option.toList_some, List.mem_singleton,
      Option.some.injEq]
    constructor
    · rintro (⟨_, -, h⟩ | ⟨_, rfl, h⟩)
      · cases h
      · cases h
        exact ⟨rfl, rfl⟩
    · rintro ⟨rfl, rfl⟩
      exact .inr ⟨_, rfl, rfl⟩

theorem boundIds_errors (es : List NameError) : Resolution.boundIds (es.map .error) = [] := by
  induction es with
  | nil => rfl
  | cons e es ih => exact ih

theorem boundIds_findings (ps : List (List Region × NodeId)) :
    (Resolution.boundIds (ps.flatMap fun p => findings a p.1 p.2)).Sublist (ps.map Prod.snd) := by
  induction ps with
  | nil => exact .slnil
  | cons p ps ih =>
    have own : (Resolution.boundIds (findings a p.1 p.2)).Sublist [p.2] := by
      rw [findings, Resolution.boundIds_append, boundIds_errors]
      cases binding? a p.1 p.2 <;> simp
    rw [List.flatMap_cons, Resolution.boundIds_append]
    exact own.append ih

theorem boundIds_program_nodup (tree : a.IsTreeShaped) :
    (Resolution.boundIds (Resolution.program a.source.definitions)).Nodup := by
  have perm : (Resolution.boundIds (Resolution.program a.source.definitions)).Perm _ :=
    (program_perm tree).filterMap Finding.bound?
  refine perm.nodup_iff.2 ?_
  change (Resolution.boundIds _).Nodup
  rw [Resolution.boundIds_append, boundIds_errors]
  exact (allNodes_nodup tree.single).sublist (boundIds_findings (allNodes a))

theorem bound_mem_program (tree : a.IsTreeShaped) :
    .bound id b ∈ Resolution.program a.source.definitions ↔
      ∃ Γ, Stands a Γ id ∧ binding? a Γ id = some b := by
  rw [(program_perm tree).mem_iff]
  simp only [List.mem_append, List.mem_map, reduceCtorEq, and_false, exists_false, false_or,
    List.mem_flatMap, bound_mem_findings]
  constructor
  · rintro ⟨⟨Γ, _⟩, mem, rfl, hb⟩
    exact ⟨Γ, (mem_allNodes tree.single).1 mem, hb⟩
  · rintro ⟨Γ, stands, hb⟩
    exact ⟨(Γ, id), (mem_allNodes tree.single).2 stands, rfl, hb⟩

/-- Only references of the program are bound. -/
theorem stands_of_bound (tree : a.IsTreeShaped) (h : a.source.resolve.bindings.get? id = some b) :
    ∃ Γ c, Stands a Γ id ∧ binding? a Γ id = some c := by
  obtain ⟨f, hf, hid⟩ := List.mem_filterMap.1 (Resolution.mem_boundIds_of_get? h)
  cases f with
  | error e => cases hid
  | bound j c =>
    cases hid
    obtain ⟨Γ, stands, hc⟩ := (bound_mem_program tree).1 hf
    exact ⟨Γ, c, stands, hc⟩

/-- References are bound to what their names mean where they stand. -/
theorem get?_bindings (tree : a.IsTreeShaped) (h : Stands a Γ id) :
    a.source.resolve.bindings.get? id = binding? a Γ id := by
  cases hb : binding? a Γ id with
  | some b =>
    exact Resolution.get?_ofFindings (boundIds_program_nodup tree)
      ((bound_mem_program tree).2 ⟨Γ, h, hb⟩)
  | none =>
    by_contra other
    obtain ⟨b, hb'⟩ := Option.ne_none_iff_exists'.1 other
    obtain ⟨Γ', c, stands, hc⟩ := stands_of_bound tree hb'
    rw [← h.unique tree.single stands, hb] at hc
    cases hc

/-- The reports are those on the nodes of the program. -/
theorem errors_perm (tree : a.IsTreeShaped) :
    a.source.resolve.errors.Perm (duplicates a a.definitions ++
      (allNodes a).flatMap fun p => complaints a p.1 p.2) := by
  have errors (es : List NameError) : (es.map Finding.error).filterMap Finding.error? = es := by
    rw [List.filterMap_map]
    exact List.filterMap_some
  have own (Γ : List Region) (id : NodeId) :
      (findings a Γ id).filterMap Finding.error? = complaints a Γ id := by
    rw [findings, List.filterMap_append, errors]
    cases binding? a Γ id <;> simp [Finding.error?]
  have perm := (program_perm tree).filterMap Finding.error?
  rw [List.filterMap_append, errors, List.filterMap_flatMap] at perm
  simp only [own] at perm
  exact perm

/-- Every reference of a program is bound to the first declaration of its name in the innermost
region that declares it, if that is of a kind that suits; each other reference, each reference to a
variable that is not set yet and each second declaration of a name in a region is reported once, and
nothing else is. -/
theorem resolution_is_lexical (tree : a.IsTreeShaped) :
    (∀ id, a.Reached id → ∃! Γ, Stands a Γ id) ∧
    (∀ Γ id, Stands a Γ id → a.source.resolve.bindings.get? id = binding? a Γ id) ∧
    (∀ id, ¬ a.Reached id → a.source.resolve.bindings.get? id = none) ∧
    ∃ nodes : List (List Region × NodeId), (nodes.map Prod.snd).Nodup ∧
      (∀ Γ id, (Γ, id) ∈ nodes ↔ Stands a Γ id) ∧
      a.source.resolve.errors.Perm (duplicates a a.definitions ++
        nodes.flatMap fun p => complaints a p.1 p.2) := by
  refine ⟨fun id reached => ?_, fun Γ id h => get?_bindings tree h, fun id reached => ?_,
    allNodes a, allNodes_nodup tree.single, fun Γ id => mem_allNodes tree.single, errors_perm tree⟩
  · obtain ⟨Γ, h⟩ := reached_iff.1 reached
    exact ⟨Γ, h, fun Γ' h' => h'.unique tree.single h⟩
  · by_contra other
    obtain ⟨b, hb⟩ := Option.ne_none_iff_exists'.1 other
    obtain ⟨Γ, -, h, -⟩ := stands_of_bound tree hb
    exact reached (reached_iff.2 ⟨Γ, h⟩)

/-- `var x := y, var y := 1, var x`, and `x` in the body. -/
def shadowed : Arena where
  nodes := #[
    ⟨.point 2 14, .type (.atom .integer)⟩,
    ⟨.point 2 24, .expr (.name "y")⟩,
    ⟨.point 2 7, .decl (.var "x" 0 (some 1))⟩,
    ⟨.point 3 14, .type (.atom .integer)⟩,
    ⟨.point 3 24, .expr (.literal (.integer 1))⟩,
    ⟨.point 3 7, .decl (.var "y" 3 (some 4))⟩,
    ⟨.point 4 14, .type (.atom .integer)⟩,
    ⟨.point 4 7, .decl (.var "x" 6 none)⟩,
    ⟨.point 1 23, .expr (.name "x")⟩,
    ⟨.point 1 23, .expr (.scoped [2, 5, 7] 8)⟩,
    ⟨.point 1 13, .type (.atom .integer)⟩,
    ⟨.point 1 1, .decl (.function "x" [] 10 9)⟩]
  definitions := [11]

theorem resolution_is_lexical_shadowed :
    shadowed.IsTreeShaped ∧
      Stands shadowed [⟨[2, 5, 7], none⟩, ⟨[], none⟩, ⟨[11], none⟩] 8 ∧
      shadowed.source.resolve.bindings.get? 8 = some (.decl 2) := by
  have tree : shadowed.IsTreeShaped := by decide +kernel
  have stands : Stands shadowed [⟨[2, 5, 7], none⟩, ⟨[], none⟩, ⟨[11], none⟩] 8 := by
    have main : Stands shadowed [⟨[11], none⟩] 11 := .top (by decide)
    have body : Stands shadowed [⟨[], none⟩, ⟨[11], none⟩] 9 :=
      main.inside (by simp [inside, shadowed, Arena.node?])
    exact body.inside (by simp [inside, shadowed, Arena.node?])
  refine ⟨tree, stands, ?_⟩
  rw [(resolution_is_lexical tree).2.1 _ _ stands]
  decide +kernel

end PinsBackend.Lexical
