import Mathlib.Data.Fintype.Card
import Mathlib.Data.List.Nodup
import Mathlib.Logic.Relation
import PinsBackend.Proofs.Syntax.Traversal

/-! Arenas that are trees.

Every place names a node of the kind it calls for, and no node is named by two places. The trees
read from such an arena have no gaps, each node stands at one place only, and the signature of a
declaration is what its tree says. -/
namespace PinsBackend.Arena

open Relation

/-- What a place calls for. -/
inductive Role where
  /-- A declaration that is not a parameter. -/
  | item
  | param
  | expr
  | type
  deriving DecidableEq

def Role.fits : Role → Kind → Bool
  | .item, .decl (.param _ _) => false
  | .item, .decl _ => true
  | .param, .decl (.param _ _) => true
  | .expr, .expr _ => true
  | .type, .type _ => true
  | _, _ => false

/-- The places of a node. -/
@[simp] def Kind.children : Kind → List (Role × NodeId)
  | .decl (.alias _ t) => [(.type, t)]
  | .decl (.function _ params result body) =>
    params.map (.param, ·) ++ [(.type, result), (.expr, body)]
  | .decl (.param _ t) => [(.type, t)]
  | .decl (.var _ t init) => (.type, t) :: init.toList.map (.expr, ·)
  | .expr (.literal _) | .expr (.name _) | .expr .hole => []
  | .expr (.unary _ e) => [(.expr, e)]
  | .expr (.binary _ l r) => [(.expr, l), (.expr, r)]
  | .expr (.call _ args) => args.map (.expr, ·)
  | .expr (.block items) => items.map (.expr, ·)
  | .expr (.ifThen c t e) => (.expr, c) :: (.expr, t) :: e.toList.map (.expr, ·)
  | .expr (.whileDo c b) => [(.expr, c), (.expr, b)]
  | .expr (.forDo c lo hi st b) => [(.expr, c), (.expr, lo), (.expr, hi), (.expr, st), (.expr, b)]
  | .expr (.scoped ds b) => ds.map (.item, ·) ++ [(.expr, b)]
  | .expr (.assign t v) => [(.expr, t), (.expr, v)]
  | .type (.atom _) | .type (.named _) => []
  | .type (.array _ element) => [(.type, element)]

/-- All places of an arena. -/
def places (a : Arena) : List (Role × NodeId) :=
  a.definitions.map (.item, ·) ++ a.nodes.toList.flatMap fun n => n.kind.children

/-- No node stands at two places. -/
def Unshared (a : Arena) : Prop := (a.places.map Prod.snd).Nodup

structure IsTree (a : Arena) : Prop where
  fits : ∀ p ∈ a.places, (a.node? p.2).any fun n => p.1.fits n.kind
  single : a.Unshared

instance (a : Arena) : Decidable a.IsTree :=
  decidable_of_iff ((∀ p ∈ a.places, (a.node? p.2).any fun n => p.1.fits n.kind) ∧
    (a.places.map Prod.snd).Nodup) ⟨fun h => ⟨h.1, h.2⟩, fun h => ⟨h.fits, h.single⟩⟩

/-- A place for a declaration may also take a parameter. -/
def Role.accepts : Role → Kind → Bool
  | .item, .decl _ => true
  | role, kind => role.fits kind

/-- As in a tree, but parameters may stand among other declarations. -/
structure IsTreeShaped (a : Arena) : Prop where
  accepts : ∀ p ∈ a.places, (a.node? p.2).any fun n => p.1.accepts n.kind
  single : a.Unshared

instance (a : Arena) : Decidable a.IsTreeShaped :=
  decidable_of_iff ((∀ p ∈ a.places, (a.node? p.2).any fun n => p.1.accepts n.kind) ∧
    (a.places.map Prod.snd).Nodup) ⟨fun h => ⟨h.1, h.2⟩, fun h => ⟨h.accepts, h.single⟩⟩

/-- The second node stands at a place of the first. -/
def Child (a : Arena) (parent child : NodeId) : Prop :=
  ∃ n, a.node? parent = some n ∧ child ∈ n.kind.children.map Prod.snd

/-- The node belongs to the program. -/
def Reached (a : Arena) (id : NodeId) : Prop :=
  ∃ root ∈ a.definitions, ReflTransGen a.Child root id

variable {a : Arena} {c r id x : NodeId} {n : Nat} {role : Role}

theorem Unshared.parent_unique (h : a.Unshared) {p q : NodeId} (hp : a.Child p c)
    (hq : a.Child q c) :
    p = q := by
  obtain ⟨n, hn, hcn⟩ := hp
  obtain ⟨m, hm, hcm⟩ := hq
  have single : (a.places.map Prod.snd).Nodup := h
  simp only [places, List.map_append, List.map_flatMap] at single
  have apart := (List.nodup_flatMap.1 (List.nodup_append.1 single).2.1).2
  rw [List.pairwise_iff_getElem] at apart
  obtain ⟨hp, rfl⟩ := Array.getElem?_eq_some_iff.1 hn
  obtain ⟨hq, rfl⟩ := Array.getElem?_eq_some_iff.1 hm
  rcases lt_trichotomy p q with lt | eq | lt
  · exact absurd hcm (apart p q (by simpa using hp) (by simpa using hq) lt (by simpa using hcn))
  · exact eq
  · exact absurd hcn (apart q p (by simpa using hq) (by simpa using hp) lt (by simpa using hcm))

theorem mem_places_of_child {p : NodeId} (h : a.Child p c) :
    c ∈ (a.nodes.toList.flatMap fun n => n.kind.children).map Prod.snd := by
  obtain ⟨n, hn, hc⟩ := h
  obtain ⟨hp, rfl⟩ := Array.getElem?_eq_some_iff.1 hn
  simp only [List.map_flatMap, List.mem_flatMap]
  exact ⟨_, by simp, hc⟩

theorem Unshared.root_no_parent (h : a.Unshared) {p : NodeId} (hr : r ∈ a.definitions) :
    ¬ a.Child p r := by
  intro hp
  have single : (a.places.map Prod.snd).Nodup := h
  rw [places, List.map_append] at single
  exact (List.nodup_append.1 single).2.2 r (by simpa using hr) r (mem_places_of_child hp) rfl

/-- No node of the program stands inside itself. -/
theorem Unshared.acyclic (h : a.Unshared) (hr : a.Reached id) : ¬ TransGen a.Child id id := by
  obtain ⟨root, hroot, path⟩ := hr
  induction path with
  | refl =>
    intro cycle
    obtain ⟨p, -, hp⟩ := TransGen.tail'_iff.1 cycle
    exact h.root_no_parent hroot hp
  | @tail y x _ step ih =>
    intro cycle
    obtain ⟨p, above, hp⟩ := TransGen.tail'_iff.1 cycle
    obtain rfl := h.parent_unique hp step
    exact ih (TransGen.head' step above)

theorem Reached.child {p : NodeId} (h : a.Reached p) (hc : a.Child p c) : a.Reached c := by
  obtain ⟨root, hroot, path⟩ := h
  exact ⟨root, hroot, path.tail hc⟩

theorem Reached.of_below {p : NodeId} (h : a.Reached p) (hc : ReflTransGen a.Child p c) :
    a.Reached c := by
  obtain ⟨root, hroot, path⟩ := h
  exact ⟨root, hroot, path.trans hc⟩

/-- Of two nodes that hold a third one, one holds the other. -/
theorem Unshared.nested (h : a.Unshared) {p q : NodeId} (hp : ReflTransGen a.Child p x)
    (hq : ReflTransGen a.Child q x) : ReflTransGen a.Child p q ∨ ReflTransGen a.Child q p := by
  induction hp with
  | refl => exact .inr hq
  | @tail y x _ step ih =>
    rcases ReflTransGen.cases_tail hq with rfl | ⟨z, hz, last⟩
    · exact .inl (.tail ‹_› step)
    · obtain rfl := h.parent_unique step last
      exact ih hz

/-- Different children of a node have nothing in common. -/
theorem Unshared.siblings_apart (h : a.Unshared) {p d : NodeId} (hr : a.Reached p)
    (hc : a.Child p c) (hd : a.Child p d) (ne : c ≠ d) (hx : ReflTransGen a.Child c x) :
    ¬ ReflTransGen a.Child d x := by
  have apart {c d : NodeId} (hc : a.Child p c) (hd : a.Child p d) (ne : c ≠ d) :
      ¬ ReflTransGen a.Child c d := by
    intro below
    rcases ReflTransGen.cases_tail below with rfl | ⟨z, hz, last⟩
    · exact ne rfl
    · obtain rfl := h.parent_unique hd last
      exact h.acyclic hr (TransGen.head' hc hz)
  intro hx'
  rcases h.nested hx hx' with below | below
  · exact apart hc hd ne below
  · exact apart hd hc ne.symm below

theorem Unshared.roots_apart (h : a.Unshared) {s : NodeId} (hr : r ∈ a.definitions)
    (hs : s ∈ a.definitions) (ne : r ≠ s) (hx : ReflTransGen a.Child r x) :
    ¬ ReflTransGen a.Child s x := by
  have apart {r s : NodeId} (hs : s ∈ a.definitions) (ne : r ≠ s) : ¬ ReflTransGen a.Child r s := by
    intro below
    rcases ReflTransGen.cases_tail below with rfl | ⟨z, -, last⟩
    · exact ne rfl
    · exact h.root_no_parent hs last
  intro hx'
  rcases h.nested hx hx' with below | below
  · exact apart hs ne below
  · exact apart hr ne.symm below

theorem Unshared.definitions_nodup (h : a.Unshared) : a.definitions.Nodup := by
  have single : (a.places.map Prod.snd).Nodup := h
  rw [places, List.map_append] at single
  simpa [Function.comp_def] using (List.nodup_append.1 single).1

/-! ## Each node stands at one place -/

/-- The nodes under a node, down to so many levels. -/
def below (a : Arena) : Nat → NodeId → List NodeId
  | 0, id => [id]
  | n + 1, id =>
    id :: (a.node? id).elim [] fun node => node.kind.children.flatMap fun p => a.below n p.2

theorem child_of_mem_below (h : x ∈ a.below n id) : ReflTransGen a.Child id x := by
  induction n generalizing id with
  | zero =>
    obtain rfl : x = id := by simpa [below] using h
    exact .refl
  | succ n ih =>
    rcases List.mem_cons.1 h with rfl | h
    · exact .refl
    · cases hnode : a.node? id with
      | none => simp [hnode] at h
      | some node =>
        simp only [hnode, Option.elim_some, List.mem_flatMap] at h
        obtain ⟨p, hp, hx⟩ := h
        exact .head ⟨node, hnode, List.mem_map_of_mem hp⟩ (ih hx)

theorem Unshared.children_nodup (h : a.Unshared) {node : Node} (hnode : a.node? id = some node) :
    (node.kind.children.map Prod.snd).Nodup := by
  have single : (a.places.map Prod.snd).Nodup := h
  simp only [places, List.map_append, List.map_flatMap] at single
  obtain ⟨hid, rfl⟩ := Array.getElem?_eq_some_iff.1 hnode
  exact (List.nodup_flatMap.1 (List.nodup_append.1 single).2.1).1 _ (by simp)

theorem Unshared.below_nodup (h : a.Unshared) (hr : a.Reached id) : (a.below n id).Nodup := by
  induction n generalizing id with
  | zero => simp [below]
  | succ n ih =>
    cases hnode : a.node? id with
    | none => simp [below, hnode]
    | some node =>
      have child {p : Role × NodeId} (hp : p ∈ node.kind.children) : a.Child id p.2 :=
        ⟨node, hnode, List.mem_map_of_mem hp⟩
      simp only [below, hnode, Option.elim_some, List.nodup_cons, List.nodup_flatMap,
        List.mem_flatMap, not_exists, not_and]
      refine ⟨fun p hp hid => ?_, fun p hp => ih (hr.child (child hp)), ?_⟩
      · exact h.acyclic hr (TransGen.head' (child hp) (child_of_mem_below hid))
      · have distinct := List.pairwise_map.1 (h.children_nodup hnode)
        refine distinct.imp_of_mem fun hp hq ne => ?_
        intro x hx hx'
        exact h.siblings_apart hr (child hp) (child hq) ne (child_of_mem_below hx)
          (child_of_mem_below hx')

/-- Each node of the program stands under one definition, at one place. -/
theorem Unshared.program_nodup (h : a.Unshared) : (a.definitions.flatMap (a.below n)).Nodup := by
  rw [List.nodup_flatMap]
  refine ⟨fun r hr => h.below_nodup ⟨r, hr, .refl⟩, ?_⟩
  refine h.definitions_nodup.imp_of_mem fun hr hs ne => ?_
  intro x hx hx'
  exact h.roots_apart hr hs ne (child_of_mem_below hx) (child_of_mem_below hx')

/-! ## The trees have no gaps -/

/-- So many levels are enough for the tree of a node: it stands under the others. -/
structure Deep (a : Arena) (n : Nat) (id : NodeId) : Prop where
  reached : a.Reached id
  levels : ∃ path : List NodeId, path.length + n = a.nodes.size ∧ path.Nodup ∧
    ∀ z ∈ path, z < a.nodes.size ∧ TransGen a.Child z id

theorem Deep.child (h : a.Unshared) (hd : a.Deep (n + 1) id) (hc : a.Child id c) : a.Deep n c := by
  obtain ⟨hr, path, length, nodup, above⟩ := hd
  refine ⟨hr.child hc, id :: path, by simp; omega, ?_, ?_⟩
  · refine List.nodup_cons.2 ⟨fun hid => ?_, nodup⟩
    exact h.acyclic hr (above id hid).2
  · rintro z hz
    rcases List.mem_cons.1 hz with rfl | hz
    · have ⟨node, hnode, _⟩ := hc
      exact ⟨(Array.getElem?_eq_some_iff.1 hnode).1, .single hc⟩
    · exact ⟨(above z hz).1, (above z hz).2.tail hc⟩

/-- There is a level left for the node itself. -/
theorem Deep.pos (h : a.Unshared) {node : Node} (hd : a.Deep n id)
    (hnode : a.node? id = some node) :
    ∃ m, n = m + 1 := by
  obtain ⟨hr, path, length, nodup, above⟩ := hd
  have nodup' : (id :: path).Nodup :=
    List.nodup_cons.2 ⟨fun hid => h.acyclic hr (above id hid).2, nodup⟩
  have inside : (id :: path) ⊆ List.range a.nodes.size := by
    intro z hz
    rcases List.mem_cons.1 hz with rfl | hz
    · exact List.mem_range.2 (Array.getElem?_eq_some_iff.1 hnode).1
    · exact List.mem_range.2 (above z hz).1
  have bound := (nodup'.subperm inside).length_le
  simp only [List.length_cons, List.length_range] at bound
  exact ⟨n - 1, by omega⟩

theorem Deep.root (hr : r ∈ a.definitions) : a.Deep a.nodes.size r :=
  ⟨⟨r, hr, .refl⟩, [], by simp, by simp, by simp⟩

theorem Deep.le (hd : a.Deep n id) : n ≤ a.nodes.size := by
  obtain ⟨-, path, length, -⟩ := hd
  omega

theorem Reached.deep (h : a.Unshared) (hr : a.Reached id) : ∃ n, a.Deep n id := by
  obtain ⟨root, hroot, path⟩ := hr
  induction path with
  | refl => exact ⟨_, .root hroot⟩
  | tail _ child ih =>
    obtain ⟨n, hd⟩ := ih
    obtain ⟨m, rfl⟩ := hd.pos h child.choose_spec.1
    exact ⟨m, hd.child h child⟩

/-- What holds of a node if it holds of all nodes at its places holds of every node of the program.
-/
theorem Reached.induction (h : a.Unshared) {P : NodeId → Prop}
    (step : ∀ id, a.Reached id → (∀ c, a.Child id c → P c) → P id) (hr : a.Reached id) : P id := by
  have deep (n : Nat) : ∀ id, a.Deep n id → P id := by
    induction n with
    | zero =>
      intro id hd
      refine step id hd.reached fun c child => ?_
      obtain ⟨m, hm⟩ := hd.pos h child.choose_spec.1
      cases hm
    | succ n ih =>
      intro id hd
      exact step id hd.reached fun c child => ih c (hd.child h child)
  obtain ⟨n, hd⟩ := hr.deep h
  exact deep n id hd

/-- A node at a place for this role, with so many levels left for its tree. -/
structure Ready (a : Arena) (n : Nat) (role : Role) (id : NodeId) : Prop where
  deep : a.Deep n id
  fits : ∃ node, a.node? id = some node ∧ role.fits node.kind = true

theorem Ready.not_zero (h : a.IsTree) (hr : a.Ready 0 role id) : False := by
  obtain ⟨node, hnode, -⟩ := hr.fits
  obtain ⟨m, hm⟩ := hr.deep.pos h.single hnode
  cases hm

theorem node?_of_expr? {e : Expr} (h : a.expr? id = some e) :
    ∃ position, a.node? id = some ⟨position, .expr e⟩ := by
  unfold expr? at h
  split at h
  · next position e' hnode => exact ⟨position, hnode.trans (by rw [Option.some.inj h])⟩
  · cases h

theorem node?_of_type? {t : TypeExpr} (h : a.type? id = some t) :
    ∃ position, a.node? id = some ⟨position, .type t⟩ := by
  unfold type? at h
  split at h
  · next position t' hnode => exact ⟨position, hnode.trans (by rw [Option.some.inj h])⟩
  · cases h

theorem node?_of_decl? {d : Decl} (h : a.decl? id = some d) :
    ∃ position, a.node? id = some ⟨position, .decl d⟩ := by
  unfold decl? at h
  split at h
  · next position d' hnode => exact ⟨position, hnode.trans (by rw [Option.some.inj h])⟩
  · cases h

theorem mem_places {node : Node} (hnode : a.node? id = some node) {p : Role × NodeId}
    (hp : p ∈ node.kind.children) : p ∈ a.places := by
  refine List.mem_append_right _ (List.mem_flatMap.2 ⟨node, ?_, hp⟩)
  obtain ⟨hid, rfl⟩ := Array.getElem?_eq_some_iff.1 hnode
  simp

theorem IsTree.place_fits (h : a.IsTree) {p : Role × NodeId} (hp : p ∈ a.places) :
    ∃ node, a.node? p.2 = some node ∧ p.1.fits node.kind = true := by
  have fits := h.fits p hp
  cases hnode : a.node? p.2 with
  | none => simp [hnode] at fits
  | some node => exact ⟨node, rfl, by simpa [hnode] using fits⟩

theorem IsTree.isTreeShaped (h : a.IsTree) : a.IsTreeShaped := by
  refine ⟨fun p hp => ?_, h.single⟩
  obtain ⟨node, hnode, fits⟩ := h.place_fits hp
  rw [hnode, Option.any_some]
  unfold Role.accepts
  split
  · rfl
  · exact fits

theorem IsTreeShaped.place (h : a.IsTreeShaped) {node : Node} (hnode : a.node? id = some node)
    {p : Role × NodeId} (hp : p ∈ node.kind.children) :
    ∃ child, a.node? p.2 = some child ∧ p.1.accepts child.kind = true := by
  have accepts := h.accepts p (mem_places hnode hp)
  cases hc : a.node? p.2 with
  | none => simp [hc] at accepts
  | some child => exact ⟨child, rfl, by simpa [hc] using accepts⟩

theorem IsTreeShaped.node (h : a.IsTreeShaped) (hr : a.Reached id) :
    ∃ node, a.node? id = some node := by
  obtain ⟨root, hroot, path⟩ := hr
  cases path with
  | refl =>
    have accepts := h.accepts (.item, id) (List.mem_append_left _ (List.mem_map_of_mem hroot))
    cases hnode : a.node? id with
    | none => simp [hnode] at accepts
    | some node => exact ⟨node, rfl⟩
  | tail _ child =>
    obtain ⟨node, hnode, hc⟩ := child
    obtain ⟨p, hp, rfl⟩ := List.mem_map.1 hc
    obtain ⟨node', hnode', -⟩ := h.place hnode hp
    exact ⟨node', hnode'⟩

theorem Ready.child (h : a.IsTree) {node : Node} (hr : a.Ready (n + 1) role id)
    (hnode : a.node? id = some node) {p : Role × NodeId} (hp : p ∈ node.kind.children) :
    a.Ready n p.1 p.2 :=
  ⟨hr.deep.child h.single ⟨node, hnode, List.mem_map_of_mem hp⟩, h.place_fits (mem_places hnode hp)⟩

theorem Ready.root (h : a.IsTree) (hr : r ∈ a.definitions) : a.Ready a.nodes.size .item r :=
  ⟨.root hr, h.place_fits (p := (.item, r)) (List.mem_append_left _ (List.mem_map_of_mem hr))⟩

theorem typeTree_stable {m : Nat} (h : (a.typeTree n id).isComplete = true) (le : n ≤ m) :
    a.typeTree m id = a.typeTree n id := by
  induction n generalizing m id with
  | zero => simp [typeTree, Syntax.TypeExpr.isComplete] at h
  | succ n ih =>
    obtain ⟨m, rfl⟩ : ∃ k, m = k + 1 := ⟨m - 1, by omega⟩
    simp only [typeTree] at h ⊢
    cases ht : a.type? id with
    | none => rfl
    | some t =>
      cases t with
      | atom | named => rfl
      | array size element =>
        simp only [ht, Syntax.TypeExpr.isComplete] at h ⊢
        rw [ih h (by omega)]

theorem typeTree_complete (h : a.IsTree) (hr : a.Ready n .type id) :
    (a.typeTree n id).isComplete = true ∧ (a.typeTree n id).ids = a.below n id := by
  induction n generalizing id with
  | zero =>
    obtain ⟨node, hnode, -⟩ := hr.fits
    obtain ⟨m, hm⟩ := hr.deep.pos h.single hnode
    cases hm
  | succ n ih =>
    obtain ⟨⟨position, kind⟩, hnode, fits⟩ := hr.fits
    cases kind with
    | decl | expr => cases fits
    | type t =>
      have ht : a.type? id = some t := by simp [type?, hnode]
      cases t with
      | atom | named =>
        simp [typeTree, ht, below, hnode, Syntax.TypeExpr.isComplete,
          Syntax.TypeExpr.ids, site]
      | array size element =>
        have inner := ih (hr.child h hnode (p := (.type, element)) (by simp))
        simp [typeTree, ht, below, hnode, Syntax.TypeExpr.isComplete,
          Syntax.TypeExpr.ids, site, inner]

theorem exprTree_id (n : Nat) (id : NodeId) : (a.exprTree n id).id = id := by
  cases n with
  | zero => rfl
  | succ n => unfold exprTree; split <;> rfl

theorem declTree_id (n : Nat) (id : NodeId) : (a.declTree n id).id = id := by
  cases n with
  | zero => rfl
  | succ n => unfold declTree; split <;> rfl

theorem get?_signatures (id : NodeId) : a.signatures.get? id = a.signature? id := by
  have upTo : ∀ n, ((List.range n).foldl
      (fun (table : NodeTable Syntax.Signature) id =>
        (a.signature? id).elim table (table.insert id))
      .empty).get? id =
      if id < n then a.signature? id else none := by
    intro n
    induction n with
    | zero => simp
    | succ n ih =>
      rw [List.range_succ, List.foldl_append, List.foldl_cons, List.foldl_nil]
      cases hs : a.signature? n with
      | none =>
        rw [Option.elim_none, ih]
        by_cases hn : id = n
        · simp [hn, hs]
        · exact if_congr (Nat.lt_succ_iff_lt_or_eq.trans (or_iff_left hn)).symm rfl rfl
      | some signature =>
        rw [Option.elim_some, NodeTable.get?_insert]
        by_cases hn : id = n
        · subst hn
          simp [ih, hs]
        · rw [if_neg hn, ih]
          exact if_congr (Nat.lt_succ_iff_lt_or_eq.trans (or_iff_left hn)).symm rfl rfl
  rw [signatures, upTo]
  by_cases hid : id < a.nodes.size
  · simp [hid]
  · simp [hid, signature?, decl?, node?]

def Kind.sort : Kind → Syntax.NodeSort
  | .decl _ => .declaration
  | .expr (.name _) | .expr (.call _ _) => .reference
  | .expr _ => .expression
  | .type _ => .typeExpr

/-- The sort of a node, whatever for a node that does not exist. -/
def sort (a : Arena) (id : NodeId) : Syntax.NodeSort :=
  ((a.node? id).map fun n => n.kind.sort).getD .expression

theorem typeTree_sorted {t : NodeId} (h : (a.typeTree n t).isComplete = true)
    (hid : id ∈ (a.typeTree n t).ids) : a.sort id = .typeExpr := by
  induction n generalizing t with
  | zero => simp [typeTree, Syntax.TypeExpr.isComplete] at h
  | succ n ih =>
    simp only [typeTree] at h hid
    cases ht : a.type? t with
    | none => simp [ht, Syntax.TypeExpr.isComplete] at h
    | some type =>
      have own : a.sort t = .typeExpr := by
        unfold type? at ht
        split at ht
        · rename_i hnode
          simp [sort, hnode, Kind.sort]
        · cases ht
      cases type with
      | atom | named =>
        simp only [ht, Syntax.TypeExpr.ids, List.mem_singleton] at hid
        exact hid ▸ own
      | array size element =>
        simp only [ht, Syntax.TypeExpr.ids, Syntax.TypeExpr.isComplete, List.mem_cons] at h hid
        rcases hid with rfl | hid
        · exact own
        · exact ih h hid

/-- What holds of each node of the trees of an arena. -/
def facts (a : Arena) : Syntax.Facts :=
  (Syntax.complete a.signatures).and (Syntax.sorted a.sort)

/-! ## Trees and places -/

/-- The nodes at the places for this role. -/
def Kind.childrenAs (kind : Kind) (role : Role) : List NodeId :=
  kind.children.filterMap fun p => if p.1 = role then some p.2 else none

theorem Kind.mem_childrenAs {kind : Kind} :
    c ∈ kind.childrenAs role ↔ (role, c) ∈ kind.children := by
  simp only [childrenAs, List.mem_filterMap, Option.ite_none_right_eq_some, Option.some.injEq]
  constructor
  · rintro ⟨p, mem, rfl, rfl⟩
    exact mem
  · exact fun mem => ⟨_, mem, rfl, rfl⟩

/-- Declarations stand before expressions. -/
theorem Kind.flatMap_expr {β : Type} (f : NodeId → List β) (e : Expr) :
    ((Kind.expr e).children.flatMap fun p => f p.2) =
      ((Kind.expr e).childrenAs .item).flatMap f ++ ((Kind.expr e).childrenAs .expr).flatMap f := by
  cases e with
  | ifThen c t e => cases e <;> simp [childrenAs]
  | _ => simp [childrenAs, List.filterMap_map, List.flatMap_map]

theorem Kind.flatMap_decl {β : Type} (f : NodeId → List β) (d : Decl) :
    ((Kind.decl d).children.flatMap fun p => f p.2) =
      ((Kind.decl d).childrenAs .param).flatMap f ++ (((Kind.decl d).childrenAs .type).flatMap f ++
        ((Kind.decl d).childrenAs .expr).flatMap f) := by
  cases d with
  | var x t init => cases init <;> simp [childrenAs]
  | _ => simp [childrenAs, List.filterMap_map, List.flatMap_map]

section

variable {F : Syntax.Facts} {Γ : Syntax.Env}

variable {n : Nat} {id : NodeId}

theorem exprTree_succ {e : Expr} (he : a.expr? id = some e) :
    (a.exprTree (n + 1) id).items = ((Kind.expr e).childrenAs .item).map (a.declTree n) ∧
      (a.exprTree (n + 1) id).parts = ((Kind.expr e).childrenAs .expr).map (a.exprTree n) := by
  simp only [exprTree, he]
  cases e with
  | ifThen c t e =>
    cases e <;> simp [Syntax.Expr.items, Syntax.Expr.parts, Kind.childrenAs]
  | _ =>
    simp [Syntax.Expr.items, Syntax.Expr.parts, Kind.childrenAs, List.filterMap_map]

theorem declTree_succ {d : Decl} (hd : a.decl? id = some d) :
    (a.declTree (n + 1) id).params = ((Kind.decl d).childrenAs .param).map (a.declTree n) ∧
      (a.declTree (n + 1) id).type?.toList = ((Kind.decl d).childrenAs .type).map (a.typeTree n) ∧
      (a.declTree (n + 1) id).body?.toList = ((Kind.decl d).childrenAs .expr).map
        (a.exprTree n) := by
  simp only [declTree, hd]
  cases d with
  | var x t init =>
    cases init <;> simp [Syntax.Decl.params, Syntax.Decl.type?, Syntax.Decl.body?,
      Kind.childrenAs]
  | _ =>
    simp [Syntax.Decl.params, Syntax.Decl.type?, Syntax.Decl.body?, Kind.childrenAs,
      List.filterMap_map]

/-- Facts about the tree of an expression are facts about the trees at its places. -/
theorem everywhere_exprTree {e : Expr} (he : a.expr? id = some e) :
    (a.exprTree (n + 1) id).Everywhere F Γ ↔ F.expr Γ (a.exprTree (n + 1) id) ∧
      (∀ d, (.item, d) ∈ (Kind.expr e).children → (a.declTree n d).Everywhere F Γ) ∧
      ∀ c, (.expr, c) ∈ (Kind.expr e).children → (a.exprTree n c).Everywhere F Γ := by
  obtain ⟨items, parts⟩ := exprTree_succ (n := n) he
  simp only [Syntax.Expr.everywhere_iff (e := a.exprTree (n + 1) id), items, parts,
    List.forall_mem_map, Kind.mem_childrenAs]

theorem everywhere_declTree {d : Decl} (hd : a.decl? id = some d) :
    (a.declTree (n + 1) id).Everywhere F Γ ↔ F.decl Γ (a.declTree (n + 1) id) ∧
      (∀ p, (.param, p) ∈ (Kind.decl d).children → (a.declTree n p).Everywhere F Γ) ∧
      ∀ c, (.expr, c) ∈ (Kind.decl d).children →
        (a.exprTree n c).Everywhere F ((a.declTree (n + 1) id).inner Γ) := by
  obtain ⟨params, -, body⟩ := declTree_succ (n := n) hd
  have mem (e : Syntax.Expr) : e ∈ (a.declTree (n + 1) id).body? ↔
      e ∈ ((Kind.decl d).childrenAs .expr).map (a.exprTree n) := by
    rw [← body, Option.mem_toList, Option.mem_def]
  simp only [Syntax.Decl.everywhere_iff (d := a.declTree (n + 1) id), params, mem,
    List.forall_mem_map, Kind.mem_childrenAs]

end

/-- What is to be shown of the tree of an expression. -/
def GoodExpr (a : Arena) (n : Nat) (id : NodeId) : Prop :=
  (∀ Γ, (a.exprTree n id).Everywhere a.facts Γ) ∧ (a.exprTree n id).ids = a.below n id

/-- What is to be shown of the tree of a declaration. -/
def GoodDecl (a : Arena) (n : Nat) (id : NodeId) : Prop :=
  (∀ Γ, (a.declTree n id).Everywhere a.facts Γ) ∧ (a.declTree n id).ids = a.below n id

theorem goodExpr_succ (h : a.IsTree) (hr : a.Ready (n + 1) .expr id)
    (ihe : ∀ id, a.Ready n .expr id → a.GoodExpr n id)
    (ihd : ∀ id, a.Ready n .item id → a.GoodDecl n id ∧ (a.declTree n id).isParam = false) :
    a.GoodExpr (n + 1) id := by
  obtain ⟨⟨position, kind⟩, hnode, fits⟩ := hr.fits
  cases kind with
  | decl | type => cases fits
  | expr e =>
    have he : a.expr? id = some e := by simp [expr?, hnode]
    have item {d : NodeId} (hd : (.item, d) ∈ (Kind.expr e).children) := ihd d (hr.child h hnode hd)
    have part {c : NodeId} (hc : (.expr, c) ∈ (Kind.expr e).children) := ihe c (hr.child h hnode hc)
    constructor
    · intro Γ
      refine (everywhere_exprTree he).2
        ⟨⟨?_, ?_⟩, fun d hd => (item hd).1.1 Γ, fun c hc => (part hc).1 Γ⟩
      · simp only [exprTree, he]
        cases e with
        | «scoped» ds b =>
          intro t ht
          obtain ⟨d, hd, rfl⟩ := List.mem_map.1 ht
          exact (item (by simp [hd])).2
        | ifThen c t e => cases e <;> trivial
        | _ => trivial
      · change a.sort (a.exprTree (n + 1) id).id = _
        rw [exprTree_id]
        simp only [sort, hnode, exprTree, he]
        cases e with
        | ifThen c t e => cases e <;> rfl
        | _ => rfl
    · obtain ⟨items, parts⟩ := exprTree_succ (n := n) he
      rw [Syntax.Expr.ids_eq, exprTree_id, items, parts, List.flatMap_map, List.flatMap_map,
        below, hnode, Option.elim_some, Kind.flatMap_expr,
        List.flatMap_congr fun d hd => (item (Kind.mem_childrenAs.1 hd)).1.2,
        List.flatMap_congr fun c hc => (part (Kind.mem_childrenAs.1 hc)).2]

theorem goodDecl_succ (h : a.IsTree) (le : n ≤ a.nodes.size) (hrole : role = .item ∨ role = .param)
    (hr : a.Ready (n + 1) role id) (ihe : ∀ id, a.Ready n .expr id → a.GoodExpr n id)
    (ihd : ∀ id, a.Ready n .param id → a.GoodDecl n id ∧ (a.declTree n id).isParam = true) :
    a.GoodDecl (n + 1) id ∧ ((a.declTree (n + 1) id).isParam = true ↔ role = .param) := by
  obtain ⟨⟨position, kind⟩, hnode, fits⟩ := hr.fits
  cases kind with
  | expr | type => rcases hrole with rfl | rfl <;> cases fits
  | decl d =>
    have hd : a.decl? id = some d := by simp [decl?, hnode]
    have param {p : NodeId} (hp : (.param, p) ∈ (Kind.decl d).children) :=
      ihd p (hr.child h hnode hp)
    have type {t : NodeId} (ht : (.type, t) ∈ (Kind.decl d).children) :=
      typeTree_complete h (hr.child h hnode ht)
    have body {c : NodeId} (hc : (.expr, c) ∈ (Kind.decl d).children) := ihe c (hr.child h hnode hc)
    obtain ⟨params, types, bodies⟩ := declTree_succ (n := n) hd
    have typed {t : Syntax.TypeExpr} (ht : (a.declTree (n + 1) id).type? = some t) :
        t.isComplete = true ∧ ∀ id ∈ t.ids, a.sort id = .typeExpr := by
      rw [← Option.mem_toList, types] at ht
      obtain ⟨c, hc, rfl⟩ := List.mem_map.1 ht
      have done := (type (Kind.mem_childrenAs.1 hc)).1
      exact ⟨done, fun id hid => typeTree_sorted done hid⟩
    have signed : a.signatures.get? id = (a.declTree (n + 1) id).signature? := by
      have same {t : NodeId} (ht : (.type, t) ∈ (Kind.decl d).children) :
          a.typeTree a.nodes.size t = a.typeTree n t := typeTree_stable (type ht).1 le
      rw [get?_signatures, signature?, declTree, hd]
      cases d <;> simp [Syntax.Decl.signature?, declTree_id, Function.comp_def] <;>
        exact same (by simp)
    refine ⟨⟨fun Γ => ?_, ?_⟩, ?_⟩
    · refine (everywhere_declTree hd).2
        ⟨⟨?_, ?_, fun t ht => (typed ht).2⟩, fun p hp => (param hp).1.1 Γ,
        fun c hc => (body hc).1 _⟩
      · obtain ⟨signature, hs⟩ : ∃ signature, (a.declTree (n + 1) id).signature? =
            some signature := by
          rw [declTree, hd]
          cases d <;> exact ⟨_, rfl⟩
        refine ⟨signature, hs, ?_, fun t ht => (typed ht).1, fun p hp => ?_⟩
        · rw [declTree_id, signed, hs]
        · rw [params] at hp
          obtain ⟨c, hc, rfl⟩ := List.mem_map.1 hp
          exact (param (Kind.mem_childrenAs.1 hc)).2
      · rw [declTree_id]
        simp [sort, hnode, Kind.sort]
    · rw [Syntax.Decl.ids_eq, declTree_id, params, types, bodies, List.flatMap_map,
        List.flatMap_map, List.flatMap_map, below, hnode, Option.elim_some, Kind.flatMap_decl,
        List.flatMap_congr fun p hp => (param (Kind.mem_childrenAs.1 hp)).1.2,
        List.flatMap_congr fun t ht => (type (Kind.mem_childrenAs.1 ht)).2,
        List.flatMap_congr fun c hc => (body (Kind.mem_childrenAs.1 hc)).2]
    · simp only [declTree, hd]
      rcases hrole with rfl | rfl <;> cases d <;> simp_all [Syntax.Decl.isParam, Role.fits]

theorem trees_good (h : a.IsTree) (le : n ≤ a.nodes.size) :
    (∀ id, a.Ready n .expr id → a.GoodExpr n id) ∧
    ∀ role, role = .item ∨ role = .param → ∀ id, a.Ready n role id →
      a.GoodDecl n id ∧ ((a.declTree n id).isParam = true ↔ role = .param) := by
  induction n with
  | zero =>
    exact ⟨fun id hr => (hr.not_zero h).elim, fun role _ id hr => (hr.not_zero h).elim⟩
  | succ n ih =>
    obtain ⟨ihe, ihd⟩ := ih (by omega)
    refine ⟨fun id hr => goodExpr_succ h hr ihe fun id hr => ?_,
      fun role hrole id hr => goodDecl_succ h (by omega) hrole hr ihe fun id hr => ?_⟩
    · have ⟨good, param⟩ := ihd .item (.inl rfl) id hr
      exact ⟨good, by simpa using param⟩
    · have ⟨good, param⟩ := ihd .param (.inr rfl) id hr
      exact ⟨good, by simpa using param⟩

/-- The trees of a well-formed arena have no gaps. -/
theorem source_good (h : a.IsTree) :
    a.source.Everywhere a.facts ∧ ∀ d ∈ a.source.definitions, d.isParam = false := by
  have good {r : NodeId} (hr : r ∈ a.definitions) :=
    (trees_good h le_rfl).2 .item (.inl rfl) r (.root h hr)
  constructor
  · intro d hd
    obtain ⟨r, hr, rfl⟩ := List.mem_map.1 hd
    exact (good hr).1.1 _
  · intro d hd
    obtain ⟨r, hr, rfl⟩ := List.mem_map.1 hd
    simpa using (good hr).2

/-- Each node of a well-formed arena stands at one place of the trees at most. -/
theorem source_ids_nodup (h : a.IsTree) : (a.source.definitions.flatMap Syntax.Decl.ids).Nodup := by
  have good {r : NodeId} (hr : r ∈ a.definitions) :=
    (trees_good h le_rfl).2 .item (.inl rfl) r (.root h hr)
  have ids : a.source.definitions.flatMap Syntax.Decl.ids =
      a.definitions.flatMap (a.below a.nodes.size) := by
    rw [source, List.flatMap_map]
    exact List.flatMap_congr fun r hr => (good hr).1.2
  rw [ids]
  exact h.single.program_nodup

/-! ## Facts about all nodes -/

/-- A relation between environments and nodes that passes on to the trees at each node's places, in
the light of facts `G`, brings facts that follow from it to the whole program. -/
theorem source_everywhere_along (h : a.IsTree) {F G : Syntax.Facts} {R : Syntax.Env → NodeId → Prop}
    (given : a.source.Everywhere G)
    (root : ∀ id ∈ a.definitions, R (a.source.envOf (a.declTree a.nodes.size id)) id)
    (exprStep : ∀ {Γ n id e}, a.Ready (n + 1) .expr id → a.expr? id = some e →
      (a.exprTree (n + 1) id).Everywhere G Γ → R Γ id → ∀ p ∈ (Kind.expr e).children, R Γ p.2)
    (declStep : ∀ {Γ n role id d}, a.Ready (n + 1) role id → a.decl? id = some d →
      (a.declTree (n + 1) id).Everywhere G Γ → R Γ id →
      (∀ p, (.param, p) ∈ (Kind.decl d).children → R Γ p) ∧
      ∀ c, (.expr, c) ∈ (Kind.decl d).children → R ((a.declTree (n + 1) id).inner Γ) c)
    (expr : ∀ {Γ n id}, a.Ready (n + 1) .expr id → R Γ id → F.expr Γ (a.exprTree (n + 1) id))
    (decl : ∀ {Γ n role id}, a.Ready (n + 1) role id → R Γ id → F.decl Γ (a.declTree (n + 1) id)) :
    a.source.Everywhere F := by
  have trees (n : Nat) :
      (∀ Γ id, a.Ready n .expr id → (a.exprTree n id).Everywhere G Γ → R Γ id →
        (a.exprTree n id).Everywhere F Γ) ∧
      ∀ Γ role id, role = .item ∨ role = .param → a.Ready n role id →
        (a.declTree n id).Everywhere G Γ → R Γ id → (a.declTree n id).Everywhere F Γ := by
    induction n with
    | zero =>
      exact ⟨fun _ id hr => (hr.not_zero h).elim, fun _ role id _ hr => (hr.not_zero h).elim⟩
    | succ n ih =>
      refine ⟨fun Γ id hr hg hR => ?_, fun Γ role id hrole hr hg hR => ?_⟩
      · obtain ⟨⟨position, kind⟩, hnode, fits⟩ := hr.fits
        cases kind with
        | decl | type => cases fits
        | expr e =>
          have he : a.expr? id = some e := by simp [expr?, hnode]
          have step := exprStep hr he hg hR
          obtain ⟨-, items, parts⟩ := (everywhere_exprTree he).1 hg
          exact (everywhere_exprTree he).2 ⟨expr hr hR,
            fun d hd => ih.2 Γ .item d (.inl rfl) (hr.child h hnode hd) (items d hd) (step _ hd),
            fun c hc => ih.1 Γ c (hr.child h hnode hc) (parts c hc) (step _ hc)⟩
      · obtain ⟨⟨position, kind⟩, hnode, fits⟩ := hr.fits
        cases kind with
        | expr | type => rcases hrole with rfl | rfl <;> cases fits
        | decl d =>
          have hd : a.decl? id = some d := by simp [decl?, hnode]
          have step := declStep hr hd hg hR
          obtain ⟨-, params, bodies⟩ := (everywhere_declTree hd).1 hg
          exact (everywhere_declTree hd).2 ⟨decl hr hR,
            fun p hp =>
            ih.2 Γ .param p (.inr rfl) (hr.child h hnode hp) (params p hp) (step.1 p hp),
            fun c hc => ih.1 _ c (hr.child h hnode hc) (bodies c hc) (step.2 c hc)⟩
  intro d hd
  obtain ⟨r, hr, rfl⟩ := List.mem_map.1 hd
  exact (trees _).2 _ .item r (.inl rfl) (.root h hr) (given _ hd) (root r hr)

/-- Facts about each tree of an arena hold everywhere in its program. -/
theorem source_everywhere (h : a.IsTree) {F : Syntax.Facts}
    (expr : ∀ Γ n id, a.Ready (n + 1) .expr id → F.expr Γ (a.exprTree (n + 1) id))
    (decl : ∀ Γ n role id, a.Ready (n + 1) role id → F.decl Γ (a.declTree (n + 1) id)) :
    a.source.Everywhere F :=
  source_everywhere_along (R := fun _ _ => True) h (source_good h).1 (fun _ _ => trivial)
    (fun _ _ _ _ _ _ => trivial) (fun _ _ _ _ => ⟨fun _ _ => trivial, fun _ _ => trivial⟩)
    (fun hr _ => expr _ _ _ hr) (fun hr _ => decl _ _ _ _ hr)

end PinsBackend.Arena
