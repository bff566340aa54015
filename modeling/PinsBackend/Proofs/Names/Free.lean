import PinsBackend.Proofs.Names.Clean

/-! The variables that a piece of a program uses and does not declare.

In a program without name errors all of them are declared around the piece. -/
namespace PinsBackend

namespace Syntax

mutual

/-- The variables of an expression that are not its own. -/
def Expr.free (B : NodeTable Binding) : Expr → List NodeId
  | .absent _ | .hole _ | .literal _ _ => []
  | .name site _ => ((B.get? site.id).bind Binding.decl?).toList
  | .unary _ _ e => e.free B
  | .binary _ _ l r | .ifThen _ l r | .whileDo _ l r | .assign _ l r => l.free B ++ r.free B
  | .call _ _ es | .block _ es => Expr.freeList B es
  | .ifElse _ c t e => c.free B ++ (t.free B ++ e.free B)
  | .forDo _ c lo hi st b => c.free B ++ (lo.free B ++ (hi.free B ++ (st.free B ++ b.free B)))
  | .scoped _ ds b =>
    (Decl.freeList B ds ++ b.free B).filter fun x => x ∉ (ds.filter Decl.isVar).map Decl.id

def Expr.freeList (B : NodeTable Binding) : List Expr → List NodeId
  | [] => []
  | e :: es => e.free B ++ Expr.freeList B es

/-- The variables that an initializer or the body of a function takes from outside. -/
def Decl.free (B : NodeTable Binding) : Decl → List NodeId
  | .var _ _ _ (some init) => init.free B
  | .function _ _ params _ body => (body.free B).filter fun x => x ∉ params.map Decl.id
  | .absent _ | .alias _ _ _ | .param _ _ _ | .var _ _ _ none => []

def Decl.freeList (B : NodeTable Binding) : List Decl → List NodeId
  | [] => []
  | d :: ds => d.free B ++ Decl.freeList B ds

end

variable {B : NodeTable Binding} {x : NodeId}

theorem Expr.free_plain {e : Expr} (plain : e.isPlain = true) :
    e.free B = Expr.freeList B e.parts := by
  cases e <;> simp [Expr.isPlain, Expr.free, Expr.freeList, Expr.parts] at plain ⊢

theorem Expr.mem_freeList {es : List Expr} : x ∈ Expr.freeList B es ↔ ∃ e ∈ es, x ∈ e.free B := by
  induction es with
  | nil => simp [Expr.freeList]
  | cons e es ih => simp [Expr.freeList, ih]

theorem Decl.mem_freeList {ds : List Decl} : x ∈ Decl.freeList B ds ↔ ∃ d ∈ ds, x ∈ d.free B := by
  induction ds with
  | nil => simp [Decl.freeList]
  | cons d ds ih => simp [Decl.freeList, ih]

end Syntax

namespace Lexical

variable {a : Arena} {Γ : List Region} {id x : NodeId}

/-- The variable is declared in one of the regions. -/
def Visible (a : Arena) (Γ : List Region) (x : NodeId) : Prop :=
  ∃ r ∈ Γ, x ∈ r.decls ∧ ∃ decl, a.decl? x = some decl ∧ nameKind decl = .var

theorem Visible.of_entering (h : Visible a (entering Γ id) x) : Visible a Γ x := by
  obtain ⟨r, hr, mem, isVar⟩ := h
  cases Γ with
  | nil => cases hr
  | cons r' Γ =>
    rcases List.mem_cons.1 hr with rfl | hr
    · exact ⟨r', by simp, mem, isVar⟩
    · exact ⟨r, by simp [hr], mem, isVar⟩

theorem visible_cons {decls : List NodeId} (h : Visible a (⟨decls, none⟩ :: Γ) x) :
    Visible a Γ x ∨ x ∈ decls ∧ ∃ decl, a.decl? x = some decl ∧ nameKind decl = .var := by
  obtain ⟨r, hr, mem, isVar⟩ := h
  rcases List.mem_cons.1 hr with rfl | hr
  · exact .inr ⟨mem, isVar⟩
  · exact .inl ⟨r, hr, mem, isVar⟩

/-- A name is bound to a variable around it. -/
theorem name_visible (tree : a.IsTreeShaped) (stands : Stands a Γ id) {name : String}
    (h : a.expr? id = some (.name name))
    (bound : a.source.resolve.bindings.get? id = some (.decl x)) :
    Visible a Γ x := by
  obtain ⟨position, hnode⟩ := Arena.node?_of_expr? h
  rw [get?_bindings tree stands] at bound
  simp only [binding?, hnode, Option.bind_some, reference?, choice?] at bound
  obtain ⟨m, hm, bound⟩ := Option.bind_eq_some_iff.1 bound
  by_cases suited : suits .var m.kind = true
  · rw [if_pos suited] at bound
    rcases meaning?_cases hm with ⟨r, hr, d, hd, decl, hdecl, binding, kind⟩ | ⟨b, binding, -⟩
    · rw [binding] at bound
      cases bound
      exact ⟨r, hr, hd, decl, hdecl, by simpa [suits, kind] using suited⟩
    · rw [binding] at bound
      cases bound
  · rw [if_neg suited] at bound
    cases bound

/-- A declaration at a place for declarations is a variable if its name means one. -/
theorem isVar_item (tree : a.IsTree) (place : (.item, x) ∈ a.places) {decl : Arena.Decl}
    (hdecl : a.decl? x = some decl) (var : nameKind decl = .var) (n : Nat) :
    (a.declTree (n + 1) x).isVar = true := by
  obtain ⟨node, hx, fits⟩ := tree.place_fits place
  obtain ⟨position', hx'⟩ := Arena.node?_of_decl? hdecl
  rw [hx] at hx'
  cases hx'
  rw [Arena.declTree, hdecl]
  cases decl with
  | «alias» | function => cases var
  | param => cases fits
  | var => rfl

section

variable (tree : a.IsTree) (n : Nat)
  (exprs : ∀ {Γ id x}, Stands a Γ id → x ∈ (a.exprTree n id).free a.source.resolve.bindings →
    Visible a Γ x)
  (decls : ∀ {Γ id x}, Stands a Γ id → x ∈ (a.declTree n id).free a.source.resolve.bindings →
    Visible a Γ x)

include exprs

include tree decls in
theorem free_visible_expr (stands : Stands a Γ id)
    (hx : x ∈ (a.exprTree (n + 1) id).free a.source.resolve.bindings) : Visible a Γ x := by
  rw [Arena.exprTree] at hx
  cases he : a.expr? id with
  | none =>
    rw [he] at hx
    cases hx
  | some e =>
    obtain ⟨position, hnode⟩ := Arena.node?_of_expr? he
    rw [he] at hx
    have part {c : NodeId} (mem : (Γ, c) ∈ inside a Γ id)
        (hc : x ∈ (a.exprTree n c).free a.source.resolve.bindings) : Visible a Γ x :=
      exprs (.inside stands mem) hc
    cases e with
    | hole | literal => cases hx
    | name =>
      obtain ⟨b, bound, hb⟩ := Option.bind_eq_some_iff.1 (Option.mem_toList.1 hx)
      cases b with
      | builtin => cases hb
      | decl d =>
        cases hb
        exact name_visible tree.isTreeShaped stands he bound
    | unary op e =>
      exact part (by simp [inside, hnode]) hx
    | binary op l r | whileDo l r | assign l r =>
      rcases List.mem_append.1 hx with hx | hx
      · exact part (by simp [inside, hnode]) hx
      · exact part (by simp [inside, hnode]) hx
    | call f es | block es =>
      obtain ⟨e, he, hx⟩ := Syntax.Expr.mem_freeList.1 hx
      obtain ⟨c, hc, rfl⟩ := List.mem_map.1 he
      exact part (by simp [inside, hnode, hc]) hx
    | ifThen c t e =>
      cases e with
      | none =>
        rcases List.mem_append.1 hx with hx | hx
        · exact part (by simp [inside, hnode]) hx
        · exact part (by simp [inside, hnode]) hx
      | some e =>
        simp only [Syntax.Expr.free, List.mem_append] at hx
        rcases hx with hx | hx | hx
        · exact part (by simp [inside, hnode]) hx
        · exact part (by simp [inside, hnode]) hx
        · exact part (by simp [inside, hnode]) hx
    | forDo c lo hi st b =>
      simp only [Syntax.Expr.free, List.mem_append] at hx
      rcases hx with hx | hx | hx | hx | hx
      · exact part (by simp [inside, hnode]) hx
      · exact part (by simp [inside, hnode]) hx
      · exact part (by simp [inside, hnode]) hx
      · exact part (by simp [inside, hnode]) hx
      · exact part (by simp [inside, hnode]) hx
    | «scoped» ds b =>
      simp only [Syntax.Expr.free, List.mem_filter, List.mem_append, decide_eq_true_eq] at hx
      obtain ⟨hx, foreign⟩ := hx
      have within : Visible a (⟨ds, none⟩ :: Γ) x := by
        rcases hx with hx | hx
        · obtain ⟨t, ht, hx⟩ := Syntax.Decl.mem_freeList.1 hx
          obtain ⟨d, hd, rfl⟩ := List.mem_map.1 ht
          exact decls (.inside stands (by simp [inside, hnode, hd])) hx
        · exact exprs (.inside stands (by simp [inside, hnode])) hx
      rcases visible_cons within with outer | ⟨mem, decl, hdecl, var⟩
      · exact outer
      -- the trees of the block have at least one level, for they use a variable
      · cases n with
        | zero =>
          rcases hx with hx | hx
          · obtain ⟨t, ht, hx⟩ := Syntax.Decl.mem_freeList.1 hx
            obtain ⟨d, hd, rfl⟩ := List.mem_map.1 ht
            cases hx
          · cases hx
        | succ n =>
          refine absurd (List.mem_map.2 ⟨a.declTree (n + 1) x, List.mem_filter.2 ⟨?_, ?_⟩, ?_⟩)
            foreign
          · exact List.mem_map_of_mem mem
          · exact isVar_item tree (Arena.mem_places hnode (by simp [mem])) hdecl var n
          · exact Arena.declTree_id (n + 1) x

theorem free_visible_decl (stands : Stands a Γ id)
    (hx : x ∈ (a.declTree (n + 1) id).free a.source.resolve.bindings) : Visible a Γ x := by
  rw [Arena.declTree] at hx
  cases hd : a.decl? id with
  | none =>
    rw [hd] at hx
    cases hx
  | some d =>
    obtain ⟨position, hnode⟩ := Arena.node?_of_decl? hd
    rw [hd] at hx
    cases d with
    | «alias» | param => cases hx
    | var y t init =>
      cases init with
      | none => cases hx
      | some init =>
        have within : Visible a (entering Γ id) x :=
          exprs (.inside stands (by simp [inside, hnode])) hx
        exact within.of_entering
    | function f params result body =>
      simp only [Syntax.Decl.free, List.mem_filter, decide_eq_true_eq] at hx
      obtain ⟨hx, foreign⟩ := hx
      have within : Visible a (⟨params, none⟩ :: Γ) x :=
        exprs (.inside stands (by simp [inside, hnode])) hx
      rcases visible_cons within with outer | ⟨mem, -⟩
      · exact outer
      · refine absurd (List.mem_map.2 ⟨a.declTree n x, List.mem_map_of_mem mem, ?_⟩) foreign
        exact Arena.declTree_id n x

end

/-- What a tree does not declare is declared around it. -/
theorem free_visible (tree : a.IsTree) (n : Nat) :
    (∀ {Γ id x}, Stands a Γ id → x ∈ (a.exprTree n id).free a.source.resolve.bindings →
      Visible a Γ x) ∧
    ∀ {Γ id x}, Stands a Γ id → x ∈ (a.declTree n id).free a.source.resolve.bindings →
      Visible a Γ x := by
  induction n with
  | zero =>
    constructor
    · intro Γ id x _ hx
      cases hx
    · intro Γ id x _ hx
      cases hx
  | succ n ih => exact ⟨free_visible_expr tree n ih.1 ih.2, free_visible_decl n ih.1⟩

/-- Nothing but globals is free in the declarations of the top level. -/
theorem free_globals (tree : a.IsTree) {d : Syntax.Decl} (hd : d ∈ a.source.definitions) :
    d.free a.source.resolve.bindings ⊆ a.source.globals := by
  obtain ⟨r, hr, rfl⟩ := List.mem_map.1 hd
  intro x hx
  obtain ⟨region, mem, hx, decl, hdecl, var⟩ := (free_visible tree _).2 (.top hr) hx
  obtain rfl := List.mem_singleton.1 mem
  have place : (.item, x) ∈ a.places := List.mem_append_left _ (List.mem_map_of_mem hx)
  cases size : a.nodes.size with
  | zero => simp [Arena.decl?, Arena.node?, Array.eq_empty_of_size_eq_zero size] at hdecl
  | succ n =>
    refine List.mem_map.2 ⟨a.declTree (n + 1) x, List.mem_filter.2 ⟨?_, ?_⟩,
      Arena.declTree_id (n + 1) x⟩
    · exact List.mem_map.2 ⟨x, hx, by rw [size]⟩
    · exact isVar_item tree place hdecl var n

end Lexical
end PinsBackend
