import PinsBackend.Proofs.Kinds.Compiled
import PinsBackend.Proofs.Layout.Accesses
import PinsBackend.Proofs.Syntax.Nesting

/-! Depths and accesses follow the nesting of functions.

A frame is as deep as functions stand around its function, and a name reaches a variable across as
many static links as functions stand between the two. -/
namespace PinsBackend

open Ir
open Syntax (Env Level Source)

/-- A program without errors of names or types, and its layout. -/
structure Arena.LaidOut (a : Arena) (layout : Layout) : Prop where
  tree : a.IsTree
  named : a.source.resolve.errors = []
  typed : (a.source.check a.source.resolve.bindings).errors = #[]
  laid : a.source.layout a.source.resolve.bindings
    (a.source.check a.source.resolve.bindings).types =
    .ok layout

/-- The layout of a program, if it has no errors. -/
def Arena.layout? (a : Arena) : Option Layout :=
  if a.IsTree ∧ a.source.resolve.errors = [] ∧
    (a.source.check a.source.resolve.bindings).errors = #[] then
    (a.source.layout a.source.resolve.bindings
      (a.source.check a.source.resolve.bindings).types).toOption
  else none

theorem Arena.laidOut_of_mem {a : Arena} {layout : Layout} (h : layout ∈ a.layout?) :
    a.LaidOut layout := by
  unfold Arena.layout? at h
  split at h
  · next clean => exact ⟨clean.1, clean.2.1, clean.2.2, eq_ok_of_mem_toOption h⟩
  · cases h

namespace Kinds

variable {name : String} {ps : List NodeId}

variable {a : Arena} {ctx : Lowering.Context} {t : Layout.Tables} {sort : NodeId → Syntax.NodeSort}
  {Γ : Env} {l : Level} {d : NodeId} {Δ : List (Option NodeId)}

variable (h : Analysed a.source ctx t sort) (tree : a.IsTree)

include h tree

/-- Functions stand inside the functions of their environments. -/
theorem Analysed.function_within {d : Syntax.Decl} (declared : (Γ, d) ∈ a.source.declarations)
    (isFunction : d.isFunction = true) :
    a.Within (Γ.map Level.function) d.id := by
  obtain ⟨reached, node, hnode, mirrors⟩ := a.node_of_declared tree declared
  obtain ⟨Δ, around⟩ := reached.within
  cases d with
  | function site f params result body =>
    cases node with
    | function name ps r b =>
      obtain ⟨n, Γ', rfl, -, facts⟩ := (around.shown tree h.nodes).function_facts hnode
      have declared' := facts.here.2.2.2.2.2.2
      obtain ⟨rfl, -⟩ := h.declared_unique declared declared' (a.declTree_id _ _).symm
      exact around
    | «alias» | param | var => cases mirrors
  | _ => cases isFunction

omit tree in
/-- What lies in the frame of a function is not of the top level. -/
theorem Analysed.slot_not_global (scope : a.source.Scope (l :: Γ))
    (mem : d ∈ l.variables) : d ∉ a.source.globals := by
  intro global
  have slot := (h.slot_access scope (i := 0) rfl mem).2
  rw [h.global_access global] at slot
  cases slot

/-- A variable of a block is one of the innermost function around it. -/
theorem Analysed.level_of_var (around : a.Within Δ d) (inner : d ∉ a.definitions)
    (isVar : a.isVar d = true) :
    ∃ l Γ, a.source.Scope (l :: Γ) ∧ (l :: Γ).map Level.function = Δ ∧ d ∈ l.locals := by
  obtain ⟨x, u, init, node⟩ := a.isVar_iff.1 isVar
  obtain ⟨block, ds, b, outside, hblock, mem⟩ := around.block tree inner node
  obtain ⟨n, Γ, env, ready, facts⟩ := (outside.shown tree h.nodes).expr_facts hblock
  obtain ⟨position, own⟩ := a.node?_of_expr? hblock
  obtain ⟨m, rfl⟩ := (ready.child tree own (p := (.item, d)) (by simp [mem])).succ tree
  simp only [Arena.exprTree, hblock] at facts
  obtain ⟨scope, listed⟩ := facts.here.2.2.2.2.2
  have held : d ∈ Env.locals Γ := by
    apply listed
    simp only [Syntax.Expr.locals, List.mem_append, List.mem_map, List.mem_filter]
    exact .inl (.inl ⟨_, ⟨⟨d, mem, rfl⟩, a.isVar_declTree.trans isVar⟩, a.declTree_id _ _⟩)
  cases Γ with
  | nil => cases held
  | cons l Γ => exact ⟨l, Γ, scope, env, held⟩

/-- A function has a level of its own, with its parameters and its frame. -/
theorem Analysed.level_of_function {f : NodeId} (around : a.Within Δ f) {r b : NodeId}
    (node : a.decl? f = some (.function name ps r b)) :
    ∃ l Γ, a.source.Scope (l :: Γ) ∧ (l :: Γ).map Level.function = some f :: Δ ∧ l.params = ps ∧
      ctx.layout.frames.get? f = some (frameOf ctx.layout l) := by
  obtain ⟨n, Γ, rfl, -, facts⟩ := (around.shown tree h.nodes).function_facts node
  simp only [Arena.declTree, node] at facts
  obtain ⟨scope, declared⟩ := facts.here.2.2.2.2.2
  obtain ⟨frame, laid, -⟩ := facts.here.2.2.2.2.1
  rw [h.describes.frame] at laid
  have laid : ctx.layout.frames.get? f = some frame := laid
  refine ⟨_, Γ, .function scope declared, rfl, ?_, ?_⟩
  · simp [Syntax.Decl.level, Function.comp_def, Arena.declTree_id]
  · change ctx.layout.frames.get? f = some ((ctx.layout.frames.get? f).getD _)
    rw [laid]
    rfl

/-- A parameter is one of the innermost function around it. -/
theorem Analysed.level_of_param (around : a.Within Δ d) {x : String} {u : NodeId}
    (node : a.decl? d = some (.param x u)) :
    ∃ l Γ, a.source.Scope (l :: Γ) ∧ (l :: Γ).map Level.function = Δ ∧ d ∈ l.params := by
  obtain ⟨f, outer, name, ps, r, b, outside, hf, mem, rfl⟩ := around.owner tree node
  obtain ⟨l, Γ, scope, env, rfl, -⟩ := h.level_of_function tree outside hf
  exact ⟨l, Γ, scope, env, mem⟩

theorem Analysed.mem_locals_of_within (scope : a.source.Scope (l :: Γ)) (isVar : a.isVar d = true)
    (around : a.Within (l.function :: Δ) d) :
    d ∈ l.locals := by
  have inner : d ∉ a.definitions := by
    intro root
    cases around.unique tree.single (.top root)
  obtain ⟨l', Γ', scope', env, mem⟩ := h.level_of_var tree around inner isVar
  cases h.scope_unique scope scope' (List.cons.inj env).1.symm
  exact mem

/-- The variables of the blocks of a function are those that stand right inside it. -/
theorem Analysed.mem_locals_iff (scope : a.source.Scope (l :: Γ)) :
    d ∈ l.locals ↔ a.isVar d = true ∧ a.Within ((l :: Γ).map Level.function) d := by
  constructor
  · intro mem
    have inner := h.slot_not_global scope (List.mem_append_right _ mem)
    rw [a.mem_globals_iff tree] at inner
    obtain ⟨decl, declared, rfl, isVar⟩ := h.local_declared scope mem
    obtain ⟨reached, isVar⟩ := a.var_of_declared tree declared isVar
    obtain ⟨x, u, init, hnode⟩ := a.isVar_iff.1 isVar
    have own : a.opens decl.id = [] :=
      a.opens_eq_nil (fun root => inner ⟨root, isVar⟩) (by simp [hnode])
    obtain ⟨Δ, around⟩ := reached.within
    obtain ⟨n, Γ', env, -, facts⟩ := (around.shown tree h.nodes).var_facts hnode
    obtain ⟨rfl, -⟩ := h.declared_unique declared facts.here.2.2.2.2.2.2 (a.declTree_id _ _).symm
    rw [own, List.nil_append] at env
    exact ⟨isVar, env ▸ around⟩
  · rintro ⟨isVar, around⟩
    exact h.mem_locals_of_within tree scope isVar around

/-- The parameters of a function stand right inside it. -/
theorem Analysed.param_within (scope : a.source.Scope (l :: Γ)) (mem : d ∈ l.params) :
    (∃ x u, a.decl? d = some (.param x u)) ∧ a.Within ((l :: Γ).map Level.function) d := by
  cases scope with
  | init => cases mem
  | @function _ site f params result body _ declared =>
    obtain ⟨p, hp, rfl⟩ := List.mem_map.1 mem
    obtain ⟨inner, isParam⟩ := h.params_declared declared hp
    refine ⟨(a.param_of_declared tree inner isParam).2, ?_⟩
    have around : a.Within (Γ.map Level.function) site.id := h.function_within tree declared rfl
    obtain ⟨-, node, hnode, mirrors⟩ := a.node_of_declared tree declared
    cases node with
    | function name ps r b =>
      have hnode : a.decl? site.id = some (.function name ps r b) := hnode
      have mirrors : params.map Syntax.Decl.id = ps := mirrors
      have given : p.id ∈ ps := mirrors ▸ List.mem_map_of_mem hp
      obtain ⟨position, own⟩ := a.node?_of_decl? hnode
      have child : a.Child site.id p.id := ⟨_, own, by simp [given]⟩
      have inside := around.inner child
      rwa [show a.opens site.id = [some site.id] by simp [Arena.opens, hnode]] at inside
    | «alias» | param | var => cases mirrors

theorem Analysed.variable_within (scope : a.source.Scope (l :: Γ)) (mem : d ∈ l.variables) :
    a.Within ((l :: Γ).map Level.function) d := by
  rcases List.mem_append.1 mem with param | inner
  · exact (h.param_within tree scope param).2
  · exact ((h.mem_locals_iff tree scope).1 inner).2

omit h tree in
/-- How a name that stands inside these functions reaches its variable: in static data, or across
the functions that stand between. -/
def Reaches (a : Arena) (layout : Layout) (Δ : List (Option NodeId)) (n d : NodeId) : Prop :=
  d ∈ a.definitions ∧ (∃ label, layout.accesses.get? d = some (.global label) ∧
    layout.accesses.get? n = some (.global label)) ∨
  d ∉ a.definitions ∧ ∃ crossed owner offset, Δ = crossed ++ owner ∧ a.Within owner d ∧
    layout.accesses.get? d = some (.here offset) ∧
    layout.accesses.get? n =
      some (if crossed = [] then .here offset else .outer crossed.length offset)

theorem Analysed.name_reaches {n : NodeId} (around : a.Within Δ n) {x : String}
    (node : a.expr? n = some (.name x)) :
    ∃ d, ctx.bindings.get? n = some (.decl d) ∧ Reaches a ctx.layout Δ n d := by
  obtain ⟨m, Γ, rfl, -, facts⟩ := (around.shown tree h.nodes).expr_facts node
  simp only [Arena.exprTree, node] at facts
  obtain ⟨-, -, ⟨d, bound, reach, -⟩, -,
    ⟨d', owner, own, access, bound', howner, hown, hreach, haccess⟩,
    scope, -⟩ := facts.here
  have same : d = d' := by simpa [bound] using bound'
  subst same
  refine ⟨d, bound, ?_⟩
  rw [h.describes.access] at hown haccess
  have haccess : ctx.layout.accesses.get? n = some access := haccess
  rcases reach with global | ⟨i, l, hl, mem⟩
  · left
    have static := h.global_access global
    rw [h.describes.access, hown] at static
    cases static
    cases hreach
    exact ⟨((a.mem_globals_iff tree).1 global).1, _, hown, haccess⟩
  · right
    obtain ⟨inside, rfl⟩ := List.getElem?_eq_some_iff.1 hl
    obtain ⟨howner', hown'⟩ := h.slot_access scope hl mem
    have rest : Γ.drop i = Γ[i] :: Γ.drop (i + 1) := List.drop_eq_getElem_cons inside
    have scope' : a.source.Scope (Γ[i] :: Γ.drop (i + 1)) := rest ▸ scope.drop i
    have around' := h.variable_within tree scope' mem
    rw [h.describes.access, hown] at hown'
    cases hown'
    rw [howner] at howner'
    cases howner'
    refine ⟨?_, (Γ.take i).map Level.function, _, _, ?_, around', hown, ?_⟩
    · intro root
      cases around'.unique tree.single (.top root)
    · rw [← List.map_append, ← rest, List.take_append_drop]
    · rw [haccess, Layout.reach_here inside hreach]
      have length : ((Γ.take i).map Level.function).length = i := by
        rw [List.length_map, List.length_take]
        omega
      simp only [← List.length_eq_zero_iff, length]

/-- Every function has a frame as deep as functions stand around it. -/
theorem Analysed.frame_depth {f : NodeId} (around : a.Within Δ f) {r b : NodeId}
    (node : a.decl? f = some (.function name ps r b)) :
    ∃ frame, ctx.layout.frames.get? f = some frame ∧ frame.depth = 1 + Δ.length := by
  obtain ⟨l, Γ, scope, env, -, laid⟩ := h.level_of_function tree around node
  obtain ⟨_, frame⟩ := h.frame scope (i := 0) rfl
  have length : Γ.length = Δ.length := by
    have := congrArg List.length env
    simpa using this
  refine ⟨_, laid, ?_⟩
  rw [frame.deep, List.length_cons, length]
  omega

end Kinds

/-- Holds of nodes that have accesses: variables, parameters and names. -/
def Arena.Kind.isAccessed : Arena.Kind → Bool
  | .decl (.var _ _ _) | .decl (.param _ _) | .expr (.name _) => true
  | _ => false

namespace Arena

variable {a : Arena}

/-- Holds of nodes of the program that have accesses. -/
def Accessed (a : Arena) (id : NodeId) : Prop :=
  a.Reached id ∧ ∃ n, a.node? id = some n ∧ n.kind.isAccessed = true

theorem accessible_of_tree (tree : a.IsTree) :
    a.source.Everywhere (Layout.accessible a.Accessed) := by
  apply source_everywhere tree
  · intro Γ n id ready
    simp only [exprTree]
    cases node : a.expr? id with
    | none => trivial
    | some e =>
      obtain ⟨position, own⟩ := node?_of_expr? node
      cases e with
      | name x => exact ⟨ready.deep.reached, _, own, rfl⟩
      | ifThen c u e => cases e <;> trivial
      | _ => trivial
  · intro Γ n role id ready
    simp only [declTree]
    cases node : a.decl? id with
    | none => exact ⟨by rintro ⟨⟩, by rintro p ⟨⟩⟩
    | some d =>
      obtain ⟨position, own⟩ := node?_of_decl? node
      cases d with
      | «alias» | param => exact ⟨by rintro ⟨⟩, by rintro p ⟨⟩⟩
      | var x u init => exact ⟨fun _ => ⟨ready.deep.reached, _, own, rfl⟩, by rintro p ⟨⟩⟩
      | function name ps r b =>
        refine ⟨by rintro ⟨⟩, fun p hp => ?_⟩
        obtain ⟨q, hq, rfl⟩ := List.mem_map.1 hp
        rw [declTree_id]
        have place : (.param, q) ∈ (Kind.decl (.function name ps r b)).children := by simp [hq]
        have inside := ready.child tree own place
        obtain ⟨⟨position, kind⟩, hnode, fits⟩ := inside.fits
        refine ⟨inside.deep.reached, _, hnode, ?_⟩
        cases kind with
        | decl d => cases d <;> first | rfl | cases fits
        | expr | type => cases fits

end Arena

/-- Depths and accesses are those that the nesting of functions asks for. -/
structure Layout.FollowsNesting (layout : Layout) (a : Arena) : Prop where
  /-- Each node of the program stands inside certain functions. -/
  around : ∀ id, a.Reached id → ∃! Δ, a.Within Δ id
  depth : ∀ Δ f name ps r b, a.Within Δ f → a.decl? f = some (.function name ps r b) →
    ∃ frame, layout.frames.get? f = some frame ∧ frame.depth = 1 + Δ.length
  domain : ∀ id, (layout.accesses.get? id).isSome ↔ a.Accessed id
  global : ∀ d x u init, d ∈ a.definitions → a.decl? d = some (.var x u init) →
    layout.accesses.get? d = some (.global x)
  /-- All other declarations that have accesses lie in frames. -/
  own : ∀ d decl, a.Reached d → d ∉ a.definitions → a.decl? d = some decl →
    (Arena.Kind.decl decl).isAccessed = true →
      ∃ offset, layout.accesses.get? d = some (.here offset)
  name : ∀ Δ n x, a.Within Δ n → a.expr? n = some (.name x) →
    ∃ d, a.source.resolve.bindings.get? n = some (.decl d) ∧ Kinds.Reaches a layout Δ n d

section

open Kinds

variable {a : Arena} {ctx : Lowering.Context} {t : Layout.Tables} {sort : NodeId → Syntax.NodeSort}

theorem Kinds.Analysed.global_label (h : Analysed a.source ctx t sort) (tree : a.IsTree)
    {d : NodeId} {x : String} {u : NodeId} {init : Option NodeId} (root : d ∈ a.definitions)
    (node : a.decl? d = some (.var x u init)) : ctx.layout.accesses.get? d = some (.global x) := by
  obtain ⟨n, size⟩ := (Arena.Ready.root tree root).succ tree
  have known : a.declTree a.nodes.size d ∈ a.source.definitions.filter Syntax.Decl.isVar := by
    refine List.mem_filter.2 ⟨List.mem_map_of_mem root, ?_⟩
    rw [size]
    exact a.isVar_declTree.trans (a.isVar_iff.2 ⟨x, u, init, node⟩)
  obtain ⟨g, -, site, x', type, init', tree, -, access, -⟩ :=
    exists_of_mem_left h.describes.globals known
  rw [size, Arena.declTree, node] at tree
  cases tree
  rw [← h.describes.access]
  exact access

theorem Kinds.Analysed.own_slot (h : Analysed a.source ctx t sort) (tree : a.IsTree) {d : NodeId}
    {decl : Arena.Decl} (reached : a.Reached d) (inner : d ∉ a.definitions)
    (node : a.decl? d = some decl) (accessed : (Arena.Kind.decl decl).isAccessed = true) :
    ∃ offset, ctx.layout.accesses.get? d = some (.here offset) := by
  obtain ⟨Δ, around⟩ := reached.within
  have level : ∃ l Γ, a.source.Scope (l :: Γ) ∧ d ∈ l.variables := by
    cases decl with
    | var x u init =>
      have isVar : a.isVar d = true := a.isVar_iff.2 ⟨x, u, init, node⟩
      obtain ⟨l, Γ, scope, -, mem⟩ := h.level_of_var tree around inner isVar
      exact ⟨l, Γ, scope, List.mem_append_right _ mem⟩
    | param x u =>
      obtain ⟨l, Γ, scope, -, mem⟩ := h.level_of_param tree around node
      exact ⟨l, Γ, scope, List.mem_append_left _ mem⟩
    | «alias» | function => cases accessed
  obtain ⟨l, Γ, scope, mem⟩ := level
  rw [← h.describes.access]
  exact ⟨_, (h.slot_access scope (i := 0) rfl mem).2⟩

/-- Variables, parameters and names have accesses. -/
theorem Kinds.Analysed.has_access (h : Analysed a.source ctx t sort) (tree : a.IsTree) {id : NodeId}
    (accessed : a.Accessed id) : (ctx.layout.accesses.get? id).isSome := by
  obtain ⟨reached, ⟨position, kind⟩, own, isAccessed⟩ := accessed
  apply Option.isSome_iff_exists.2
  obtain ⟨Δ, around⟩ := reached.within
  cases kind with
  | type => cases isAccessed
  | expr e =>
    cases e with
    | name x =>
      have node : a.expr? id = some (.name x) := by simp [Arena.expr?, own]
      obtain ⟨d, -, way⟩ := h.name_reaches tree around node
      rcases way with ⟨-, label, -, access⟩ | ⟨-, crossed, owner, offset, -, -, -, access⟩
      · exact ⟨_, access⟩
      · exact ⟨_, access⟩
    | _ => cases isAccessed
  | decl decl =>
    have node : a.decl? id = some decl := by simp [Arena.decl?, own]
    by_cases root : id ∈ a.definitions
    · cases decl with
      | var x u init => exact ⟨_, h.global_label tree root node⟩
      | param x u =>
        -- parameters do not stand at the top level
        obtain ⟨f, outer, _, _, _, _, _, _, _, env⟩ := Arena.Within.owner tree (.top root) node
        cases env
      | «alias» | function => cases isAccessed
    · obtain ⟨offset, access⟩ := h.own_slot tree reached root node isAccessed
      exact ⟨_, access⟩

/-- Frames are as deep as functions stand around them. Exactly the variables, the parameters and the
names have accesses; a name reaches its variable in static data, in the frame of its own function,
or across the functions that stand between. -/
theorem layout_follows_nesting {layout : Layout} (program : a.LaidOut layout) :
    layout.FollowsNesting a := by
  obtain ⟨t, h⟩ := analysed_of_laid program.tree program.named program.typed program.laid
  constructor
  · intro id reached
    obtain ⟨Δ, around⟩ := reached.within
    exact ⟨Δ, around, fun _ other => other.unique program.tree.single around⟩
  · intro Δ f name ps r b around node
    exact h.frame_depth program.tree around node
  · intro id
    constructor
    · exact Syntax.Source.accessible_of_laid (Arena.accessible_of_tree program.tree) program.laid
    · exact h.has_access program.tree
  · intro d x u init root node
    exact h.global_label program.tree root node
  · intro d decl reached inner node accessed
    exact h.own_slot program.tree reached inner node accessed
  · intro Δ n x around node
    exact h.name_reaches program.tree around node

end

/-- The innermost of three functions reads the parameter of the outermost one, which has an array
too. A global is set to a variable of a block of its own. -/
def twoLevelsDown : Arena where
  nodes := #[
    ⟨.point 1 14, .type (.atom .integer)⟩,
    ⟨.point 1 11, .decl (.param "p" 0)⟩,
    ⟨.point 1 24, .type (.atom .integer)⟩,
    ⟨.point 2 16, .type (.atom .integer)⟩,
    ⟨.point 3 17, .type (.atom .integer)⟩,
    ⟨.point 3 27, .expr (.name "p")⟩,
    ⟨.point 3 5, .decl (.function "inner" [] 4 5)⟩,
    ⟨.point 4 5, .expr (.call "inner" [])⟩,
    ⟨.point 2 26, .expr (.scoped [6] 7)⟩,
    ⟨.point 2 3, .decl (.function "middle" [] 3 8)⟩,
    ⟨.point 5 3, .expr (.call "middle" [])⟩,
    ⟨.point 1 34, .expr (.scoped [21, 9] 10)⟩,
    ⟨.point 1 1, .decl (.function "outer" [1] 2 11)⟩,
    ⟨.point 6 8, .type (.atom .integer)⟩,
    ⟨.point 6 28, .type (.atom .integer)⟩,
    ⟨.point 6 24, .decl (.var "u" 14 none)⟩,
    ⟨.point 6 37, .expr (.name "u")⟩,
    ⟨.point 6 18, .expr (.scoped [15] 16)⟩,
    ⟨.point 6 1, .decl (.var "g" 13 (some 17))⟩,
    ⟨.point 1 49, .type (.atom .integer)⟩,
    ⟨.point 1 44, .type (.array 2 19)⟩,
    ⟨.point 1 36, .decl (.var "t" 20 none)⟩]
  definitions := [12, 18]

theorem layout_follows_nesting_twoLevelsDown :
    ∃ layout, twoLevelsDown.LaidOut layout ∧ layout.accesses.get? 5 = some (.outer 2 8) ∧
      layout.accesses.get? 16 = some (.here 8) ∧ layout.FollowsNesting twoLevelsDown := by
  have checked : ∃ layout ∈ twoLevelsDown.layout?, layout.accesses.get? 5 = some (.outer 2 8) ∧
      layout.accesses.get? 16 = some (.here 8) := by
    decide +kernel
  obtain ⟨layout, laid, inner, initial⟩ := checked
  have program := Arena.laidOut_of_mem laid
  exact ⟨layout, program, inner, initial, layout_follows_nesting program⟩

end PinsBackend
