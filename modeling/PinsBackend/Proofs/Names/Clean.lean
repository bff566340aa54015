import PinsBackend.Proofs.Names.Lexical
import PinsBackend.Proofs.Syntax.Nesting

/-! Programs without name errors.

Every reference of such a program is bound, and to a declaration of the program that suits it. -/
namespace PinsBackend

namespace Arena

variable {a : Arena}

theorem IsTreeShaped.expr (h : a.IsTreeShaped) {id c : NodeId} {node : Node}
    (hnode : a.node? id = some node) (hc : (.expr, c) ∈ node.kind.children) :
    ∃ e, a.expr? c = some e := by
  obtain ⟨⟨position, kind⟩, hchild, accepts⟩ := h.place hnode hc
  cases kind with
  | decl | type => cases accepts
  | expr e => exact ⟨e, by simp [expr?, hchild]⟩

theorem IsTreeShaped.type (h : a.IsTreeShaped) {id c : NodeId} {node : Node}
    (hnode : a.node? id = some node) (hc : (.type, c) ∈ node.kind.children) :
    ∃ t, a.type? c = some t := by
  obtain ⟨⟨position, kind⟩, hchild, accepts⟩ := h.place hnode hc
  cases kind with
  | decl | expr => cases accepts
  | type t => exact ⟨t, by simp [type?, hchild]⟩

end Arena

namespace Lexical

variable {name : String}

variable {a : Arena} {Γ : List Region} {id : NodeId}

/-- A place inside a node has the regions of the node, or is in an initializer or in a new region.
-/
theorem inside_regions {Γ' : List Region} {c : NodeId} (h : (Γ', c) ∈ inside a Γ id) :
    Γ' = Γ ∨ Γ' = entering Γ id ∨ ∃ decls, Γ' = ⟨decls, none⟩ :: Γ ∧ ∀ d ∈ decls, a.Child id d := by
  cases hnode : a.node? id with
  | none => simp [inside, hnode] at h
  | some node =>
    obtain ⟨position, kind⟩ := node
    have child {d : NodeId} (hd : d ∈ kind.children.map Prod.snd) : a.Child id d := ⟨_, hnode, hd⟩
    simp only [inside, hnode, Option.map_some] at h
    split at h
    · next eq => cases eq
    · next eq =>
      cases eq
      simp only [List.mem_append, List.mem_map, List.mem_cons, List.not_mem_nil, or_false,
        Prod.mk.injEq] at h
      rcases h with ⟨p, -, rfl, -⟩ | ⟨rfl, -⟩ | ⟨rfl, -⟩
      · exact .inl rfl
      · exact .inl rfl
      · exact .inr (.inr ⟨_, rfl, fun d hd => child (by simp [hd])⟩)
    · next eq =>
      cases eq
      simp only [List.mem_cons, List.mem_map, Prod.mk.injEq] at h
      rcases h with ⟨rfl, -⟩ | ⟨i, -, rfl, -⟩
      · exact .inl rfl
      · exact .inr (.inl rfl)
    · next eq =>
      cases eq
      simp only [List.mem_append, List.mem_map, List.mem_singleton, Prod.mk.injEq] at h
      rcases h with ⟨d, -, rfl, -⟩ | ⟨rfl, -⟩
      · exact .inr (.inr ⟨_, rfl, fun d hd => child (by simp [hd])⟩)
      · exact .inr (.inr ⟨_, rfl, fun d hd => child (by simp [hd])⟩)
    · obtain ⟨p, -, eq⟩ := List.mem_map.1 h
      exact .inl (congrArg Prod.fst eq).symm

/-- The declarations around a place belong to the program. -/
theorem Stands.decls_reached (h : Stands a Γ id) : ∀ r ∈ Γ, ∀ d ∈ r.decls, a.Reached d := by
  induction h with
  | top _ =>
    intro r hr d hd
    obtain rfl := List.mem_singleton.1 hr
    exact ⟨d, hd, .refl⟩
  | @inside Γ Γ' parent id stands mem ih =>
    rcases inside_regions mem with rfl | rfl | ⟨decls, rfl, children⟩
    · exact ih
    · cases Γ with
      | nil => exact ih
      | cons r Γ =>
        intro r' hr' d hd
        rcases List.mem_cons.1 hr' with rfl | hr'
        · exact ih r (by simp) d hd
        · exact ih r' (by simp [hr']) d hd
    · intro r hr d hd
      rcases List.mem_cons.1 hr with rfl | hr
      · exact (reached_iff.2 ⟨Γ, stands⟩).child (children d hd)
      · exact ih r hr d hd

theorem Region.meaning?_isSome {r : Region} {d : NodeId} {decl : Arena.Decl} (mem : d ∈ r.decls)
    (hd : a.decl? d = some decl) : (r.meaning? a decl.name).isSome = true := by
  obtain ⟨i, hi⟩ := List.mem_iff_getElem?.1 mem
  have found : ((first? a r.decls decl.name).isSome) = true :=
    List.find?_isSome.2 ⟨(d, i), List.mk_mem_zipIdx_iff_getElem?.2 hi, by simp [hd]⟩
  obtain ⟨e, he⟩ := Option.isSome_iff_exists.1 found
  have named := List.find?_some he
  rw [Region.meaning?, he, Option.bind_some, Option.isSome_map]
  exact Option.isSome_of_any named

/-- A name means a declaration around the place, or a built-in that none of them hides. -/
theorem meaning?_cases {m : Meaning} (h : meaning? a Γ name = some m) :
    (∃ r ∈ Γ, ∃ d ∈ r.decls, ∃ decl, a.decl? d = some decl ∧ m.binding = .decl d ∧
      m.kind = nameKind decl) ∨
    ∃ b, m.binding = .builtin b ∧ m.kind = .function ∧
      ∀ r ∈ Γ, ∀ d ∈ r.decls, ∀ decl, a.decl? d = some decl → decl.name ≠ b.name := by
  rcases Option.or_eq_some_iff.1 h with h | ⟨hidden, h⟩
  · obtain ⟨r, hr, hm⟩ := List.exists_of_findSome?_eq_some h
    obtain ⟨d, hd, hm⟩ := Option.bind_eq_some_iff.1 hm
    obtain ⟨decl, hdecl, rfl⟩ := Option.map_eq_some_iff.1 hm
    have place := List.mem_of_find?_eq_some hd
    exact .inl ⟨r, hr, d.1, List.fst_mem_of_mem_zipIdx place, decl, hdecl, rfl, rfl⟩
  · obtain ⟨b, found, rfl⟩ := Option.map_eq_some_iff.1 h
    refine .inr ⟨b, rfl, rfl, fun r hr d hd decl hdecl same => ?_⟩
    have own : b.name = name := by simpa using List.find?_some found
    have shown := Region.meaning?_isSome hd hdecl
    rw [same, own, List.findSome?_eq_none_iff.1 hidden r hr] at shown
    cases shown

/-- What a node is bound to belongs to the program and suits the node. -/
theorem bound_suits (tree : a.IsTreeShaped) {d : NodeId}
    (h : a.source.resolve.bindings.get? id = some (.decl d)) : a.Reached d ∧ ∃ decl node r,
      a.decl? d = some decl ∧ a.node? id = some node ∧ reference? node.kind = some r ∧
      suits r.1 (nameKind decl) = true := by
  obtain ⟨Γ, _, stands, -⟩ := stands_of_bound tree h
  rw [get?_bindings tree stands] at h
  obtain ⟨node, hnode, h⟩ := Option.bind_eq_some_iff.1 h
  obtain ⟨r, href, h⟩ := Option.bind_eq_some_iff.1 h
  obtain ⟨m, hm, h⟩ := Option.bind_eq_some_iff.1 h
  split at h
  · next suited =>
    have binding := Option.some.inj h
    rcases meaning?_cases hm with ⟨region, hr, e, he, decl, hdecl, own, kind⟩ | ⟨b, own, -⟩
    · rw [own] at binding
      cases binding
      exact ⟨stands.decls_reached region hr d he, decl, node, r, hdecl, hnode, href, kind ▸ suited⟩
    · rw [own] at binding
      cases binding
  · cases h

theorem complaints_nil (tree : a.IsTreeShaped) (clean : a.source.resolve.errors = [])
    (h : Stands a Γ id) : complaints a Γ id = [] := by
  have all := (errors_perm tree).symm.trans (.of_eq clean)
  have none := List.append_eq_nil_iff.1 all.eq_nil
  exact List.flatMap_eq_nil_iff.1 none.2 (Γ, id) ((mem_allNodes tree.single).2 h)

/-- A reference of a program without name errors is bound to a declaration around it or to a
built-in, of a kind that suits it. -/
theorem reference_bound (tree : a.IsTreeShaped) (clean : a.source.resolve.errors = [])
    (stands : Stands a Γ id) {node : Arena.Node} (hnode : a.node? id = some node)
    {wanted : NameKind} (href : reference? node.kind = some (wanted, name)) :
    (∃ d decl, a.source.resolve.bindings.get? id = some (.decl d) ∧ a.decl? d = some decl ∧
      suits wanted (nameKind decl) = true ∧ ∃ r ∈ Γ, d ∈ r.decls) ∨
    ∃ b, a.source.resolve.bindings.get? id = some (.builtin b) ∧ suits wanted .function = true ∧
      ∀ r ∈ Γ, ∀ d ∈ r.decls, ∀ decl, a.decl? d = some decl → decl.name ≠ b.name := by
  have fine : unfit a Γ wanted name (a.position id) = [] := by
    have := complaints_nil tree clean stands
    obtain ⟨position, kind⟩ := node
    simp only [complaints, hnode, Option.map_some] at this
    split at this
    · next eq => cases eq; cases href
    · next eq => cases eq; cases href
    · next eq =>
      cases eq
      rw [href] at this
      exact this
    · next eq => cases eq
  have bound := get?_bindings tree stands
  simp only [binding?, hnode, Option.bind_some, href, choice?] at bound
  unfold unfit at fine
  cases hm : meaning? a Γ name with
  | none => simp [hm] at fine
  | some m =>
    by_cases suited : suits wanted m.kind = true
    · simp only [hm, Option.bind_some, suited, ↓reduceIte] at bound
      rcases meaning?_cases hm with
        ⟨r, hr, d, hd, decl, hdecl, binding, kind⟩ | ⟨b, binding, kind, free⟩
      · rw [binding] at bound
        exact .inl ⟨d, decl, bound, hdecl, kind ▸ suited, r, hr, hd⟩
      · rw [binding] at bound
        exact .inr ⟨b, bound, kind ▸ suited, free⟩
    · simp [hm, suited] at fine

/-- What the references of a program are bound to if there are no name errors. -/
structure Bound (a : Arena) (B : NodeTable Binding) : Prop where
  type : ∀ {id name}, a.Reached id → a.type? id = some (.named name) →
    ∃ d x t, B.get? id = some (.decl d) ∧ a.decl? d = some (.alias x t) ∧ a.Reached d
  value : ∀ {id name}, a.Reached id → a.expr? id = some (.name name) →
    ∃ d decl, B.get? id = some (.decl d) ∧ a.decl? d = some decl ∧ nameKind decl = .var ∧
      a.Reached d
  callee : ∀ {id name args}, a.Reached id → a.expr? id = some (.call name args) →
    (∃ b, B.get? id = some (.builtin b)) ∨
    ∃ d decl, B.get? id = some (.decl d) ∧ a.decl? d = some decl ∧ nameKind decl ≠ .type ∧
      a.Reached d
  only : ∀ {id b}, a.Reached id → B.get? id = some b →
    ∃ node r, a.node? id = some node ∧ reference? node.kind = some r

theorem bound_of_clean (tree : a.IsTreeShaped) (clean : a.source.resolve.errors = []) :
    Bound a a.source.resolve.bindings where
  type reached h := by
    obtain ⟨position, hnode⟩ := Arena.node?_of_type? h
    obtain ⟨Γ, stands⟩ := reached_iff.1 reached
    rcases reference_bound tree clean stands hnode rfl with
      ⟨d, decl, hb, hd, suited, r, hr, mem⟩ | ⟨b, -, suited, -⟩
    · cases decl with
      | «alias» x t => exact ⟨d, x, t, hb, hd, stands.decls_reached r hr d mem⟩
      | function | param | var => cases suited
    · cases suited
  value reached h := by
    obtain ⟨position, hnode⟩ := Arena.node?_of_expr? h
    obtain ⟨Γ, stands⟩ := reached_iff.1 reached
    rcases reference_bound tree clean stands hnode rfl with
      ⟨d, decl, hb, hd, suited, r, hr, mem⟩ | ⟨b, -, suited, -⟩
    · exact ⟨d, decl, hb, hd, by simpa [suits] using suited, stands.decls_reached r hr d mem⟩
    · cases suited
  callee reached h := by
    obtain ⟨position, hnode⟩ := Arena.node?_of_expr? h
    obtain ⟨Γ, stands⟩ := reached_iff.1 reached
    rcases reference_bound tree clean stands hnode rfl with
      ⟨d, decl, hb, hd, suited, r, hr, mem⟩ | ⟨b, hb, -⟩
    · exact .inr ⟨d, decl, hb, hd, by simpa [suits] using suited, stands.decls_reached r hr d mem⟩
    · exact .inl ⟨b, hb⟩
  only reached h := by
    obtain ⟨Γ, stands⟩ := reached_iff.1 reached
    rw [get?_bindings tree stands] at h
    obtain ⟨node, hnode, h⟩ := Option.bind_eq_some_iff.1 h
    obtain ⟨r, href, -⟩ := Option.bind_eq_some_iff.1 h
    exact ⟨node, r, hnode, href⟩

/-! ## Environments -/

section Environments

open Syntax (Env Level Source listed)

/-- A declaration of this kind that code in this environment can reach. -/
def Meant (source : Source) (Γ : Env) (d : NodeId) : NameKind → Prop
  | .var => source.IsVariable Γ d
  | .function => source.IsFunction Γ d
  | .type => source.IsAlias d

theorem Meant.inner {source : Source} {Γ : Env} {d : NodeId} {kind : NameKind}
    (h : Meant source Γ d kind) (l : Level) : Meant source (l :: Γ) d kind := by
  cases kind with
  | var =>
    obtain ⟨reach, declared⟩ := h
    refine ⟨reach.imp_right ?_, declared⟩
    rintro ⟨i, l', hi, hd⟩
    exact ⟨i + 1, l', by simpa using hi, hd⟩
  | function =>
    obtain ⟨Γ', decl, around, h⟩ := h
    exact ⟨Γ', decl, around.trans (List.suffix_cons l Γ), h⟩
  | type => exact h

theorem meant_declared {Γ Γ' : Env} {n : Nat} {d : NodeId} {decl : Arena.Decl}
    (hd : a.decl? d = some decl) (declared : (Γ', a.declTree (n + 1) d) ∈ a.source.declarations)
    (around : nameKind decl = .function → Γ' <:+ Γ)
    (owned : nameKind decl = .var → d ∈ a.source.globals ∨ ∃ (i : Nat) (l : Level), Γ[i]? = some l ∧
      d ∈ l.variables) :
    Meant a.source Γ d (nameKind decl) := by
  rw [Arena.declTree, hd] at declared
  cases decl with
  | «alias» x t => exact ⟨Γ', _, x, _, declared, rfl⟩
  | function => exact ⟨Γ', _, around rfl, declared, rfl, rfl⟩
  | param => exact ⟨owned rfl, Γ', _, declared, rfl, .inr rfl⟩
  | var => exact ⟨owned rfl, Γ', _, declared, rfl, .inl rfl⟩

/-- The regions around a node in this environment declare what can be reached from it. -/
def Around (a : Arena) (Γ : Env) (id : NodeId) : Prop :=
  ∃ regions, Stands a regions id ∧ ∀ r ∈ regions, ∀ d ∈ r.decls, ∀ decl, a.decl? d = some decl →
    Meant a.source Γ d (nameKind decl)

variable {Γ : Env} {n : Nat} {id : NodeId}

theorem around_top (tree : a.IsTree) (root : id ∈ a.definitions) :
    Around a (a.source.envOf (a.declTree a.nodes.size id)) id := by
  refine ⟨_, .top root, fun r hr d hd decl hdecl => ?_⟩
  obtain rfl := List.mem_singleton.1 hr
  have ready := Arena.Ready.root tree hd
  obtain ⟨m, size⟩ := ready.succ tree
  have declared : (a.source.envOf (a.declTree a.nodes.size d), a.declTree a.nodes.size d) ∈
      a.source.declarations :=
    List.mem_flatMap.2 ⟨_, List.mem_map_of_mem hd, Syntax.Decl.mem_declarations _ _⟩
  rw [size] at declared
  obtain ⟨position, hnode⟩ := Arena.node?_of_decl? hdecl
  refine meant_declared hdecl declared (fun kind => ?_) fun kind => .inl ?_
  · have outer : a.source.envOf (a.declTree (m + 1) d) = [] := by
      rw [Source.envOf, Arena.isVar_declTree, Arena.isVar, hdecl]
      cases decl <;> first | rfl | cases kind
    exact outer ▸ List.nil_suffix
  · refine (Arena.mem_globals_iff tree).2 ⟨hd, ?_⟩
    cases decl with
    | var x t init => exact Arena.isVar_iff.2 ⟨x, t, init, hdecl⟩
    | param => cases ready.fits_kind hnode
    | function | «alias» => cases kind

theorem around_expr (tree : a.IsTree) (ready : a.Ready (n + 1) .expr id) {e : Arena.Expr}
    (he : a.expr? id = some e) (given : (a.exprTree (n + 1) id).Everywhere (listed a.source) Γ)
    (h : Around a Γ id) : ∀ p ∈ (Arena.Kind.expr e).children, Around a Γ p.2 := by
  obtain ⟨regions, stands, all⟩ := h
  obtain ⟨position, hnode⟩ := Arena.node?_of_expr? he
  intro p hp
  cases e with
  | «scoped» ds b =>
    refine ⟨⟨ds, none⟩ :: regions, .inside stands ?_, fun r hr => ?_⟩
    · have place : p.2 ∈ ds ∨ p.2 = b := by
        simp only [Arena.Kind.children, List.mem_append, List.mem_map, List.mem_singleton] at hp
        rcases hp with ⟨d, hd, rfl⟩ | rfl
        · exact .inl hd
        · exact .inr rfl
      simpa [inside, hnode] using place
    · rcases List.mem_cons.1 hr with rfl | hr
      · intro d hd decl hdecl
        have item : (.item, d) ∈ (Arena.Kind.expr (.scoped ds b)).children := by
          simp [hd]
        have inner := ready.child tree hnode item
        obtain ⟨m, rfl⟩ := inner.succ tree
        obtain ⟨here, items, -⟩ := (Arena.everywhere_exprTree he).1 given
        refine meant_declared hdecl (items d item).here.2 (fun _ => List.suffix_refl _) fun kind =>
          .inr ?_
        have isVar : a.isVar d = true := by
          obtain ⟨position', hnode'⟩ := Arena.node?_of_decl? hdecl
          cases decl with
          | var x t init => exact Arena.isVar_iff.2 ⟨x, t, init, hdecl⟩
          | param => cases inner.fits_kind hnode'
          | function | «alias» => cases kind
        have owned : d ∈ Env.locals Γ := by
          refine here.2 (Syntax.Expr.mem_locals_iff.2 (.inl ⟨a.declTree (m + 1) d, ?_, ?_, ?_⟩))
          · rw [(Arena.exprTree_succ he).1]
            exact List.mem_map_of_mem (Arena.Kind.mem_childrenAs.2 item)
          · exact Arena.isVar_declTree.trans isVar
          · exact Arena.declTree_id _ _
        cases Γ with
        | nil => cases owned
        | cons l Γ => exact ⟨0, l, rfl, List.mem_append_right _ owned⟩
      · exact all r hr
  | _ =>
    refine ⟨regions, .inside stands ?_, all⟩
    simp only [inside, hnode, Option.map_some]
    exact List.mem_map_of_mem hp

theorem around_decl (tree : a.IsTree) {role : Arena.Role} (ready : a.Ready (n + 1) role id)
    {d : Arena.Decl} (hd : a.decl? id = some d)
    (given : (a.declTree (n + 1) id).Everywhere (listed a.source) Γ) (h : Around a Γ id) :
    (∀ p, (.param, p) ∈ (Arena.Kind.decl d).children → Around a Γ p) ∧
    ∀ c, (.expr, c) ∈ (Arena.Kind.decl d).children →
      Around a ((a.declTree (n + 1) id).inner Γ) c := by
  obtain ⟨regions, stands, all⟩ := h
  obtain ⟨position, hnode⟩ := Arena.node?_of_decl? hd
  cases d with
  | «alias» | param => simp
  | var x t init =>
    refine ⟨fun p hp => by simp at hp, fun c hc => ?_⟩
    have own : init = some c := by simpa using hc
    have inner : (a.declTree (n + 1) id).inner Γ = Γ := by
      rw [Arena.declTree, hd]
      rfl
    rw [inner]
    refine ⟨entering regions id, .inside stands (by simp [inside, hnode, own]), ?_⟩
    cases regions with
    | nil => exact all
    | cons r regions =>
      intro r' hr'
      rcases List.mem_cons.1 hr' with rfl | hr'
      · exact all r (by simp)
      · exact all r' (by simp [hr'])
  | function f ps result b =>
    have place {p : NodeId}
      (hp : (.param, p) ∈ (Arena.Kind.decl (.function f ps result b)).children) :
        p ∈ ps := by simpa using hp
    refine ⟨fun p hp => ⟨regions, .inside stands ?_, all⟩, fun c hc => ?_⟩
    · simp [inside, hnode, place hp]
    · obtain rfl : c = b := by simpa using hc
      obtain ⟨-, params, -⟩ := (Arena.everywhere_declTree hd).1 given
      have inner : ∃ l : Level, (a.declTree (n + 1) id).inner Γ = l :: Γ ∧ ps ⊆ l.params := by
        refine ⟨_, by rw [Arena.declTree, hd]; rfl, fun p hp => ?_⟩
        simpa [Syntax.Decl.level, Function.comp_def, Arena.declTree_id] using hp
      obtain ⟨l, eq, owned⟩ := inner
      rw [eq]
      refine ⟨⟨ps, none⟩ :: regions, .inside stands (by simp [inside, hnode]), fun r hr => ?_⟩
      rcases List.mem_cons.1 hr with rfl | hr
      · intro p hp decl hdecl
        have mem : (.param, p) ∈ (Arena.Kind.decl (.function f ps result c)).children := by
          simp [hp]
        have child := ready.child tree hnode mem
        obtain ⟨m, rfl⟩ := child.succ tree
        obtain ⟨position', hnode'⟩ := Arena.node?_of_decl? hdecl
        refine meant_declared hdecl (params p mem).here.2 (fun kind => ?_) fun _ =>
          .inr ⟨0, l, rfl, List.mem_append_left _ (owned hp)⟩
        cases decl with
        | function => cases child.fits_kind hnode'
        | «alias» | param | var => cases kind
      · exact fun p hp decl hdecl => (all r hr p hp decl hdecl).inner l

/-- The declarations of the top level can be seen from everywhere. -/
theorem Stands.top_region {regions : List Region} (h : Stands a regions id) :
    ∃ r ∈ regions, r.decls = a.definitions := by
  induction h with
  | top _ => exact ⟨_, List.mem_singleton.2 rfl, rfl⟩
  | @inside regions regions' parent id _ mem ih =>
    obtain ⟨r, hr, top⟩ := ih
    rcases inside_regions mem with rfl | rfl | ⟨decls, rfl, -⟩
    · exact ⟨r, hr, top⟩
    · cases regions with
      | nil => exact ⟨r, hr, top⟩
      | cons r' regions =>
        rcases List.mem_cons.1 hr with rfl | hr
        · exact ⟨_, List.mem_cons_self, top⟩
        · exact ⟨r, List.mem_cons_of_mem _ hr, top⟩
    · exact ⟨r, List.mem_cons_of_mem _ hr, top⟩

theorem typeTree_bound (tree : a.IsTree) (clean : a.source.resolve.errors = []) {t : NodeId}
    (ready : a.Ready n .type t) : (a.typeTree n t).IsBound a.source a.source.resolve.bindings := by
  induction n generalizing t with
  | zero => exact (ready.not_zero tree).elim
  | succ n ih =>
    obtain ⟨⟨position, kind⟩, hnode, fits⟩ := ready.fits
    cases kind with
    | decl | expr => cases fits
    | type type =>
      have ht : a.type? t = some type := by simp [Arena.type?, hnode]
      rw [Arena.typeTree, ht]
      cases type with
      | atom => trivial
      | array size element =>
        exact ih (ready.child tree hnode (p := (.type, element)) (by simp))
      | named x =>
        obtain ⟨d, y, u, hb, hd, reached⟩ :=
          (bound_of_clean tree.isTreeShaped clean).type ready.deep.reached ht
        refine ⟨d, hb, ?_⟩
        obtain ⟨Δ, within⟩ := reached.within
        obtain ⟨n, Γ, facts⟩ := (within.shown tree
          (Source.everywhere_listed (Arena.source_good tree).1.left)).decl_facts hd
        have declared := facts.here.2
        rw [Arena.declTree, hd] at declared
        exact ⟨Γ, _, y, _, declared, rfl⟩

end Environments

end Lexical

/-- In a program without name errors every reference is bound to what can be reached from it. -/
theorem Arena.source_bound {a : Arena} (tree : a.IsTree) (clean : a.source.resolve.errors = []) :
    a.source.Everywhere (Syntax.bound a.source a.source.resolve.bindings) := by
  have shaped := tree.isTreeShaped
  refine source_everywhere_along (R := Lexical.Around a) tree
    (Syntax.Source.everywhere_listed (source_good tree).1.left) (fun _ => Lexical.around_top tree)
    (fun ready he given h => Lexical.around_expr tree ready he given h)
    (fun ready hd given h => Lexical.around_decl tree ready hd given h) ?_ ?_
  · rintro Γ n id ready ⟨regions, stands, all⟩
    obtain ⟨⟨position, kind⟩, hnode, fits⟩ := ready.fits
    cases kind with
    | decl | type => cases fits
    | expr e =>
      have he : a.expr? id = some e := by simp [expr?, hnode]
      rw [exprTree, he]
      cases e with
      | name x =>
        rcases Lexical.reference_bound shaped clean stands hnode rfl with
          ⟨d, decl, hb, hd, suited, r, hr, mem⟩ | ⟨b, -, suited, -⟩
        · have meant := all r hr d mem decl hd
          rw [show Lexical.nameKind decl = .var by simpa [Lexical.suits] using suited] at meant
          exact ⟨d, hb, meant⟩
        · cases suited
      | call f args =>
        rcases Lexical.reference_bound shaped clean stands hnode rfl with
          ⟨d, decl, hb, hd, suited, r, hr, mem⟩ | ⟨b, hb, -, free⟩
        · have meant := all r hr d mem decl hd
          refine .inr ⟨d, hb, ?_⟩
          generalize Lexical.nameKind decl = kind at meant suited
          cases kind with
          | var => exact .inl meant
          | function => exact .inr meant
          | type => cases suited
        · refine .inl ⟨b, hb, fun t ht kind declared => ?_⟩
          obtain ⟨d, hd, rfl⟩ := List.mem_map.1 ht
          obtain ⟨r, hr, top⟩ := stands.top_region
          obtain ⟨m, size⟩ := (Ready.root tree hd).succ tree
          rw [size] at declared
          cases hdecl : a.decl? d with
          | none => simp [declTree, hdecl, Resolution.declared?] at declared
          | some decl =>
            rw [Lexical.declared?_declTree hdecl, Option.some.injEq, Prod.mk.injEq] at declared
            exact free r hr d (top ▸ hd) decl hdecl declared.2
      | ifThen c t e => cases e <;> trivial
      | _ => trivial
  · intro Γ n role id ready _ type ht
    cases hd : a.decl? id with
    | none => simp [declTree, hd, Syntax.Decl.type?] at ht
    | some d =>
      obtain ⟨position, hnode⟩ := node?_of_decl? hd
      rw [← Option.mem_toList, (declTree_succ hd).2.1] at ht
      obtain ⟨t, mem, rfl⟩ := List.mem_map.1 ht
      exact Lexical.typeTree_bound tree clean (ready.child tree hnode (Kind.mem_childrenAs.1 mem))

/-- Nodes that are no references have no bindings. -/
theorem Arena.sort_of_bound {a : Arena} (tree : a.IsTreeShaped) {id : NodeId} {b : Binding}
    (h : a.source.resolve.bindings.get? id = some b) :
    a.sort id = .reference ∨ a.sort id = .typeExpr := by
  obtain ⟨Γ, c, -, hc⟩ := Lexical.stands_of_bound tree h
  obtain ⟨⟨position, kind⟩, hnode, hc⟩ := Option.bind_eq_some_iff.1 hc
  obtain ⟨r, href, -⟩ := Option.bind_eq_some_iff.1 hc
  rw [sort, hnode]
  cases kind with
  | decl => cases href
  | type => exact .inr rfl
  | expr e =>
    cases e with
    | name | call => exact .inl rfl
    | _ => cases href

end PinsBackend
