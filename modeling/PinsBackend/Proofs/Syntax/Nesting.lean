import PinsBackend.Proofs.Syntax.WellFormed

/-! The functions around a node.

`Within` reads them off the arena: a function stands around the nodes at its places, and the code
that sets the globals stands around the initializers of the top level. The trees of a program show
every node in an environment of the same functions, so facts about trees become facts about nodes.
-/
namespace PinsBackend.Arena

open Syntax (Facts Env Level)

/-- What a node puts around the nodes at its places: a function itself, and a variable of the top
level the code that sets the globals, for which `none` stands. -/
def opens (a : Arena) (id : NodeId) : List (Option NodeId) :=
  match a.decl? id with
  | some (.function _ _ _ _) => [some id]
  | some (.var _ _ _) => if id ∈ a.definitions then [none] else []
  | _ => []

/-- The functions around a node, the innermost first. -/
inductive Within (a : Arena) : List (Option NodeId) → NodeId → Prop
  | top {id : NodeId} (root : id ∈ a.definitions) : Within a [] id
  | inner {Δ : List (Option NodeId)} {parent id : NodeId} (outer : Within a Δ parent)
      (child : a.Child parent id) : Within a (a.opens parent ++ Δ) id

/-- Holds of declarations of variables. -/
def isVar (a : Arena) (id : NodeId) : Bool :=
  match a.decl? id with
  | some (.var _ _ _) => true
  | _ => false

theorem isVar_iff {a : Arena} {id : NodeId} :
    a.isVar id = true ↔ ∃ x t init, a.decl? id = some (.var x t init) := by
  unfold isVar
  split
  · rename_i x t init node
    exact ⟨fun _ => ⟨x, t, init, node⟩, fun _ => rfl⟩
  · rename_i other
    exact ⟨nofun, fun ⟨x, t, init, node⟩ => absurd node (other x t init)⟩

section

variable {a : Arena} {Δ Δ' : List (Option NodeId)} {id : NodeId}

theorem Reached.within (h : a.Reached id) : ∃ Δ, a.Within Δ id := by
  obtain ⟨root, hroot, path⟩ := h
  induction path with
  | refl => exact ⟨[], .top hroot⟩
  | tail _ child ih =>
    obtain ⟨Δ, outer⟩ := ih
    exact ⟨_, outer.inner child⟩

theorem Within.unique (single : a.Unshared) (h : a.Within Δ id) (h' : a.Within Δ' id) : Δ = Δ' := by
  induction h generalizing Δ' with
  | top root =>
    cases h' with
    | top => rfl
    | inner _ child => exact absurd child (single.root_no_parent root)
  | inner outer child ih =>
    cases h' with
    | top root => exact absurd child (single.root_no_parent root)
    | inner outer' child' =>
      obtain rfl := single.parent_unique child child'
      rw [ih outer']

/-- Only the definitions of a program stand inside nothing. -/
theorem Within.parent (h : a.Within Δ id) (inner : id ∉ a.definitions) :
    ∃ parent outer, a.Within outer parent ∧ a.Child parent id ∧ Δ = a.opens parent ++ outer := by
  cases h with
  | top root => exact absurd root inner
  | inner outer child => exact ⟨_, _, outer, child, rfl⟩

end

/-! ## Trees of nodes -/

section

variable {x : String} {t : NodeId} {init : Option NodeId}

variable {a : Arena} {F : Facts} {Γ : Env} {n : Nat} {id c : NodeId}

/-- Facts hold of the tree of a node, in an environment of these functions. -/
inductive Shown (a : Arena) (F : Facts) : List (Option NodeId) → NodeId → Prop
  | expr {n : Nat} {Γ : Env} {id : NodeId} (ready : a.Ready (n + 1) .expr id)
      (facts : (a.exprTree (n + 1) id).Everywhere F Γ) : Shown a F (Γ.map Level.function) id
  /-- The tree of a variable stands where its initializer does. -/
  | var {n : Nat} {Γ : Env} {Δ : List (Option NodeId)} {id : NodeId}
      (ready : a.Ready (n + 1) .item id)
      (node : a.isVar id = true) (env : Γ.map Level.function = a.opens id ++ Δ)
      (facts : (a.declTree (n + 1) id).Everywhere F Γ) : Shown a F Δ id
  | item {n : Nat} {Γ : Env} {id : NodeId} (ready : a.Ready (n + 1) .item id)
      (other : a.isVar id = false)
      (facts : (a.declTree (n + 1) id).Everywhere F Γ) : Shown a F (Γ.map Level.function) id
  /-- The tree of a parameter stands where its function does. -/
  | param {n : Nat} {Γ : Env} {f : Option NodeId} {id : NodeId} (ready : a.Ready (n + 1) .param id)
      (facts : (a.declTree (n + 1) id).Everywhere F Γ) : Shown a F (f :: Γ.map Level.function) id
  | type {Δ : List (Option NodeId)} {id : NodeId} (node : ∃ t, a.type? id = some t) : Shown a F Δ id

theorem Ready.succ (tree : a.IsTree) {role : Role} (ready : a.Ready n role id) :
    ∃ m, n = m + 1 := by
  obtain ⟨node, hnode, -⟩ := ready.fits
  exact ready.deep.pos tree.single hnode

theorem IsTree.type_of_place (tree : a.IsTree) (h : (.type, c) ∈ a.places) :
    ∃ t, a.type? c = some t := by
  obtain ⟨⟨position, kind⟩, hnode, fits⟩ := tree.place_fits h
  cases kind with
  | type t => exact ⟨t, by simp [type?, hnode]⟩
  | decl | expr => cases fits

theorem Shown.of_expr (tree : a.IsTree) (ready : a.Ready n .expr id)
    (facts : (a.exprTree n id).Everywhere F Γ) : a.Shown F (Γ.map Level.function) id := by
  obtain ⟨m, rfl⟩ := ready.succ tree
  exact .expr ready facts

theorem opens_eq_nil (inner : id ∉ a.definitions)
    (other : ∀ f ps r b, a.decl? id ≠ some (.function f ps r b)) :
    a.opens id = [] := by
  unfold opens
  split
  · exact absurd ‹_› (other _ _ _ _)
  · exact if_neg inner
  · rfl

theorem Shown.of_item (tree : a.IsTree) (ready : a.Ready n .item id) (inner : id ∉ a.definitions)
    (facts : (a.declTree n id).Everywhere F Γ) : a.Shown F (Γ.map Level.function) id := by
  obtain ⟨m, rfl⟩ := ready.succ tree
  cases node : a.isVar id with
  | true =>
    refine .var ready node ?_ facts
    rw [opens_eq_nil inner, List.nil_append]
    intro f ps r b function
    simp [isVar, function] at node
  | false => exact .item ready node facts

theorem Ready.fits_kind {role : Role} (ready : a.Ready n role id) {node : Node}
    (hnode : a.node? id = some node) : role.fits node.kind = true := by
  obtain ⟨node', hnode', fits⟩ := ready.fits
  rw [hnode] at hnode'
  cases hnode'
  exact fits

variable {Δ : List (Option NodeId)}

theorem Shown.expr_facts {e : Expr} (h : a.Shown F Δ id) (node : a.expr? id = some e) :
    ∃ n Γ, Γ.map Level.function = Δ ∧ a.Ready (n + 1) .expr id ∧
      (a.exprTree (n + 1) id).Everywhere F Γ := by
  obtain ⟨position, hnode⟩ := node?_of_expr? node
  cases h with
  | expr ready facts => exact ⟨_, _, rfl, ready, facts⟩
  | var ready | item ready | param ready => cases ready.fits_kind hnode
  | type node => simp [type?, hnode] at node

theorem Shown.decl_facts {d : Decl} (h : a.Shown F Δ id) (node : a.decl? id = some d) :
    ∃ n Γ, (a.declTree (n + 1) id).Everywhere F Γ := by
  obtain ⟨position, hnode⟩ := node?_of_decl? node
  cases h with
  | var _ _ _ facts | item _ _ facts | param _ facts => exact ⟨_, _, facts⟩
  | expr ready => cases ready.fits_kind hnode
  | type node => simp [type?, hnode] at node

theorem Shown.var_facts (h : a.Shown F Δ id) (node : a.decl? id = some (.var x t init)) :
    ∃ n Γ, Γ.map Level.function = a.opens id ++ Δ ∧ a.Ready (n + 1) .item id ∧
      (a.declTree (n + 1) id).Everywhere F Γ := by
  obtain ⟨position, hnode⟩ := node?_of_decl? node
  cases h with
  | var ready _ env facts => exact ⟨_, _, env, ready, facts⟩
  | item _ other => simp [isVar, node] at other
  | expr ready | param ready => cases ready.fits_kind hnode
  | type node => simp [type?, hnode] at node

theorem Shown.function_facts {f : String} {ps : List NodeId} {r b : NodeId} (h : a.Shown F Δ id)
    (node : a.decl? id = some (.function f ps r b)) :
    ∃ n Γ, Γ.map Level.function = Δ ∧ a.Ready (n + 1) .item id ∧
      (a.declTree (n + 1) id).Everywhere F Γ := by
  obtain ⟨position, hnode⟩ := node?_of_decl? node
  cases h with
  | item ready _ facts => exact ⟨_, _, rfl, ready, facts⟩
  | var _ other => simp [isVar, node] at other
  | expr ready | param ready => cases ready.fits_kind hnode
  | type node => simp [type?, hnode] at node

/-- The places of a node that is shown are shown. -/
theorem Shown.child (tree : a.IsTree) (h : a.Shown F Δ id) (child : a.Child id c) :
    a.Shown F (a.opens id ++ Δ) c := by
  have inner : c ∉ a.definitions := fun root => tree.single.root_no_parent root child
  obtain ⟨⟨position, kind⟩, hnode, hc⟩ := child
  obtain ⟨⟨role, c⟩, hp, rfl⟩ := List.mem_map.1 hc
  by_cases isType : role = .type
  · exact .type (tree.type_of_place (isType ▸ mem_places hnode hp))
  cases kind with
  | type t => cases t <;> simp_all
  | expr e =>
    have node : a.expr? id = some e := by simp [expr?, hnode]
    have outside : a.opens id = [] := by simp [opens, decl?, hnode]
    obtain ⟨n, Γ, rfl, ready, facts⟩ := h.expr_facts node
    obtain ⟨-, items, exprs⟩ := (everywhere_exprTree node).1 facts
    have inside := ready.child tree hnode hp
    rw [outside, List.nil_append]
    cases role with
    | expr => exact .of_expr tree inside (exprs c hp)
    | item => exact .of_item tree inside inner (items c hp)
    | type => exact absurd rfl isType
    | param => cases e <;> simp at hp
  | decl d =>
    have node : a.decl? id = some d := by simp [decl?, hnode]
    cases d with
    | «alias» | param => simp_all
    | var x t init =>
      obtain ⟨n, Γ, env, ready, facts⟩ := h.var_facts node
      have inside := ready.child tree hnode hp
      simp only [declTree, node] at facts
      cases init with
      | none => simp_all
      | some init =>
        obtain ⟨rfl, rfl⟩ : role = .expr ∧ c = init := by simpa [isType] using hp
        exact env ▸ .of_expr tree inside facts.2
    | function f ps r b =>
      obtain ⟨n, Γ, rfl, ready, facts⟩ := h.function_facts node
      have inside := ready.child tree hnode hp
      have own : a.opens id = [some id] := by simp [opens, node]
      simp only [declTree, node] at facts
      have place : .param = role ∧ c ∈ ps ∨ c = b ∧ role = .expr := by
        simpa [isType, and_comm] using hp
      rw [own]
      rcases place with ⟨rfl, mem⟩ | ⟨rfl, rfl⟩
      · obtain ⟨m, rfl⟩ := inside.succ tree
        exact .param inside (Syntax.Decl.everywhereList_iff.1 facts.2.1 _ (List.mem_map_of_mem mem))
      · exact .of_expr tree inside facts.2.2

theorem isVar_declTree : (a.declTree (n + 1) id).isVar = a.isVar id := by
  simp only [declTree, isVar]
  cases a.decl? id with
  | none => rfl
  | some d => cases d <;> rfl

/-- Facts that hold everywhere in a program are shown at each of its nodes. -/
theorem Within.shown (tree : a.IsTree) (everywhere : a.source.Everywhere F) (h : a.Within Δ id) :
    a.Shown F Δ id := by
  induction h with
  | inner _ child ih => exact ih.child tree child
  | @top id root =>
    have ready := Ready.root tree root
    have facts := everywhere _ (List.mem_map_of_mem root)
    obtain ⟨n, size⟩ := ready.succ tree
    rw [size] at ready facts
    rw [Syntax.Source.envOf, isVar_declTree] at facts
    cases node : a.isVar id with
    | true =>
      rw [node] at facts
      obtain ⟨x, t, init, decl⟩ := isVar_iff.1 node
      refine .var ready node ?_ facts
      simp [opens, decl, root, Syntax.Source.init]
    | false =>
      rw [node] at facts
      exact .item ready node facts

/-- A node and a tree declare the same kind of thing, with the same parameters. -/
def Decl.Mirrors : Decl → Syntax.Decl → Prop
  | .function _ ps _ _, .function _ _ params _ _ => params.map Syntax.Decl.id = ps
  | .alias _ _, .alias _ _ _ | .param _ _, .param _ _ _ | .var _ _ _, .var _ _ _ _ => True
  | _, _ => False

/-- The declarations of a program mirror its nodes. -/
theorem node_of_declared (tree : a.IsTree) {d : Syntax.Decl}
    (declared : (Γ, d) ∈ a.source.declarations) :
    a.Reached d.id ∧ ∃ node, a.decl? d.id = some node ∧ node.Mirrors d := by
  let F : Facts :=
    { expr := fun _ _ => True
      decl := fun _ d => a.Reached d.id ∧
        (d.signature?.isSome → ∃ node, a.decl? d.id = some node ∧ node.Mirrors d) }
  have everywhere : a.source.Everywhere F := by
    apply source_everywhere tree
    · intro _ _ _ _
      trivial
    · intro _ n role id ready
      change a.Reached (a.declTree (n + 1) id).id ∧ (_ → _)
      rw [declTree_id]
      refine ⟨ready.deep.reached, fun signed => ?_⟩
      rw [declTree] at signed ⊢
      cases node : a.decl? id with
      | none => simp [node, Syntax.Decl.signature?] at signed
      | some d =>
        refine ⟨d, rfl, ?_⟩
        cases d <;> simp [Decl.Mirrors, Function.comp_def, declTree_id]
  obtain ⟨reached, known⟩ := (everywhere.declarations declared).here
  obtain ⟨signature, signed, -⟩ := ((source_good tree).1.left.declarations declared).here
  exact ⟨reached, known (by simp [signed])⟩

theorem var_of_declared (tree : a.IsTree) {d : Syntax.Decl}
    (declared : (Γ, d) ∈ a.source.declarations) (isVar : d.isVar = true) :
    a.Reached d.id ∧ a.isVar d.id = true := by
  obtain ⟨reached, node, hnode, mirrors⟩ := node_of_declared tree declared
  refine ⟨reached, ?_⟩
  cases d with
  | var =>
    cases node with
    | var x t init => exact isVar_iff.2 ⟨x, t, init, hnode⟩
    | «alias» | param | function => cases mirrors
  | _ => cases isVar

theorem param_of_declared (tree : a.IsTree) {d : Syntax.Decl}
    (declared : (Γ, d) ∈ a.source.declarations) (isParam : d.isParam = true) :
    a.Reached d.id ∧ ∃ x t, a.decl? d.id = some (.param x t) := by
  obtain ⟨reached, node, hnode, mirrors⟩ := node_of_declared tree declared
  refine ⟨reached, ?_⟩
  cases d with
  | param =>
    cases node with
    | param x t => exact ⟨x, t, hnode⟩
    | «alias» | var | function => cases mirrors
  | _ => cases isParam

/-- The variables among the definitions of a program are those of its source. -/
theorem source_vars (tree : a.IsTree) :
    a.source.definitions.filter Syntax.Decl.isVar =
      (a.definitions.filter a.isVar).map (a.declTree a.nodes.size) := by
  rw [source, List.filter_map]
  congr 1
  refine List.filter_congr fun d root => ?_
  obtain ⟨n, size⟩ := (Ready.root tree root).succ tree
  rw [size]
  exact isVar_declTree

theorem mem_globals_iff (tree : a.IsTree) :
    id ∈ a.source.globals ↔ id ∈ a.definitions ∧ a.isVar id = true := by
  rw [Syntax.Source.globals, source_vars tree, List.map_map]
  simp [Function.comp_def, declTree_id]

/-! ## Places of declarations -/

/-- Declarations stand in blocks. -/
theorem Kind.scoped_of_item {kind : Kind} (h : (.item, c) ∈ kind.children) :
    ∃ ds b, kind = .expr (.scoped ds b) ∧ c ∈ ds := by
  cases kind with
  | type t => cases t <;> simp at h
  | decl d => cases d <;> simp at h
  | expr e =>
    cases e with
    | «scoped» ds b => exact ⟨ds, b, rfl, by simpa using h⟩
    | _ => simp at h

/-- Parameters stand in the lists of functions. -/
theorem Kind.function_of_param {kind : Kind} (h : (.param, c) ∈ kind.children) :
    ∃ f ps r b, kind = .decl (.function f ps r b) ∧ c ∈ ps := by
  cases kind with
  | type t => cases t <;> simp at h
  | expr e => cases e <;> simp at h
  | decl d =>
    cases d with
    | function f ps r b => exact ⟨f, ps, r, b, rfl, by simpa using h⟩
    | _ => simp at h

/-- A declaration that is not of the top level stands at the place of another node that fits it. -/
theorem Within.place (tree : a.IsTree) (h : a.Within Δ id) (inner : id ∉ a.definitions) {d : Decl}
    (node : a.decl? id = some d) :
    ∃ parent position kind outer role, a.Within outer parent ∧
      a.node? parent = some ⟨position, kind⟩ ∧ (role, id) ∈ kind.children ∧
      role.fits (.decl d) = true ∧ Δ = a.opens parent ++ outer := by
  obtain ⟨parent, outer, around, ⟨⟨position, kind⟩, hnode, mem⟩, eq⟩ := h.parent inner
  obtain ⟨⟨role, c⟩, place, rfl⟩ := List.mem_map.1 mem
  obtain ⟨node', hnode', fits⟩ := tree.place_fits (mem_places hnode place)
  obtain ⟨position', own⟩ := node?_of_decl? node
  rw [own] at hnode'
  cases hnode'
  exact ⟨parent, position, kind, outer, role, around, hnode, place, fits, eq⟩

/-- A variable that is not of the top level is declared in a block of its own function. -/
theorem Within.block (tree : a.IsTree) (h : a.Within Δ id) (inner : id ∉ a.definitions)
    (node : a.decl? id = some (.var x t init)) :
    ∃ block ds b, a.Within Δ block ∧ a.expr? block = some (.scoped ds b) ∧ id ∈ ds := by
  obtain ⟨block, position, kind, outer, role, around, hnode, place, fits, rfl⟩ :=
    h.place tree inner node
  cases role with
  | item =>
    obtain ⟨ds, b, rfl, mem⟩ := Kind.scoped_of_item place
    have own : a.opens block = [] := by simp [opens, decl?, hnode]
    exact ⟨block, ds, b, by rwa [own], by simp [expr?, hnode], mem⟩
  | param | expr | type => cases fits

/-- A parameter stands right inside its function. -/
theorem Within.owner (tree : a.IsTree) (h : a.Within Δ id) (node : a.decl? id = some (.param x t)) :
    ∃ f outer name ps r b, a.Within outer f ∧ a.decl? f = some (.function name ps r b) ∧ id ∈ ps ∧
      Δ = some f :: outer := by
  have inner : id ∉ a.definitions := by
    intro root
    obtain ⟨position, own⟩ := node?_of_decl? node
    cases (Ready.root tree root).fits_kind own
  obtain ⟨f, position, kind, outer, role, around, hnode, place, fits, rfl⟩ :=
    h.place tree inner node
  cases role with
  | param =>
    obtain ⟨name, ps, r, b, rfl, mem⟩ := Kind.function_of_param place
    have decl : a.decl? f = some (.function name ps r b) := by simp [decl?, hnode]
    exact ⟨f, outer, name, ps, r, b, around, decl, mem, by simp [opens, decl]⟩
  | item | expr | type => cases fits

end

end PinsBackend.Arena
