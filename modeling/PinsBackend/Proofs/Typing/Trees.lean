import PinsBackend.Proofs.Syntax.WellFormed
import PinsBackend.Proofs.Typing.Decision

/-! The types of trees.

The table of a program that is typed without a report holds the derived types of its nodes. So the
rules of trees hold at every tree of the program. -/
namespace PinsBackend

open Typing Assignment

namespace Assignment

variable {a : Arena}

/-- The table of a program without reports holds the derived types. -/
theorem get?_types (tree : a.IsTreeShaped) (named : a.source.resolve.errors = [])
    (typed : (a.source.check a.source.resolve.bindings).errors = #[]) {id : NodeId}
    (reached : a.Reached id) (other : a.type? id = none) :
    (a.source.check a.source.resolve.bindings).types.get? id =
      some (derived a a.source.resolve.bindings id) := by
  have bound := Lexical.bound_of_clean tree named
  have run := check_answers tree bound (assigns_derived tree bound typed).values {} agrees_init
  have recorded := check_recorded tree (closed_of_bound bound) reached other
  obtain ⟨τ, hτ⟩ := Option.isSome_iff_exists.1 recorded
  rw [hτ, run.2.1 id τ hτ]

end Assignment

namespace Arena

variable {a : Arena} {B : NodeTable Binding} {T : NodeId → Ty} {table : NodeTable Ty} {n : Nat}
  {id : NodeId}

section

variable (tree : a.IsTreeShaped) (bound : Lexical.Bound a B) (typed : WellTyped a B T)
  (entries : ∀ {id}, a.Reached id → a.type? id = none → table.get? id = some (T id))

include tree bound typed entries

theorem rule_exprTree {position : Position} {e : Expr} (reached : a.Reached id)
    (hnode : a.node? id = some ⟨position, .expr e⟩) :
    Syntax.Rule B table (a.exprTree (n + 1) id) (T id) := by
  have entry {c : NodeId} (hc : (.expr, c) ∈ (Kind.expr e).children) : table.get? c =
      some (T c) := by
    obtain ⟨e', he'⟩ := tree.expr hnode hc
    obtain ⟨position', hnode'⟩ := node?_of_expr? he'
    exact entries (reached.child ⟨_, hnode, List.mem_map_of_mem hc⟩) (by simp [type?, hnode'])
  have has {c : NodeId} {expected : Ty} (hc : (.expr, c) ∈ (Kind.expr e).children)
      (same : expected.Same (T c)) : Syntax.Has table (a.exprTree n c).id expected :=
    ⟨T c, by rw [exprTree_id]; exact entry hc, same⟩
  have he : a.expr? id = some e := by simp [expr?, hnode]
  have rule := typed.rules reached hnode
  rw [exprTree, he]
  cases e with
  | hole => exact rule
  | literal l => exact rule
  | name x =>
    obtain ⟨d, decl, hb, hd, -, hr⟩ := bound.value reached he
    obtain ⟨d', hb', eq⟩ := rule
    rw [hb] at hb'
    cases hb'
    obtain ⟨position', hnode'⟩ := node?_of_decl? hd
    exact ⟨d, hb, by rw [entries hr (by simp [type?, hnode']), eq]⟩
  | unary op e => exact ⟨has (by simp) rule.1, rule.2⟩
  | binary op l r =>
    refine ⟨T l, T r, ?_, ?_, rule⟩
    · rw [exprTree_id]
      exact entry (by simp)
    · rw [exprTree_id]
      exact entry (by simp)
  | call f args =>
    obtain ⟨params, callee, fit⟩ := rule
    refine ⟨params, ?_, ?_⟩
    · rcases callee with builtin | ⟨d, f, ps, r, body, hb, hd, type⟩
      · exact .inl builtin
      · rcases bound.callee reached he with ⟨b, hb'⟩ | ⟨d', decl, hb', -, -, hr⟩
        · rw [hb] at hb'
          cases hb'
        · rw [hb] at hb'
          cases hb'
          obtain ⟨position', hnode'⟩ := node?_of_decl? hd
          exact .inr ⟨d, hb, by rw [entries hr (by simp [type?, hnode']), type]⟩
    · rw [List.forall₂_map_left_iff, List.forall₂_iff_zip]
      obtain ⟨length, all⟩ := List.forall₂_iff_zip.1 fit.flip
      exact ⟨length, fun {e p} mem =>
        has (by simpa using (List.of_mem_zip mem).1) (all mem)⟩
  | block items =>
    have rule : T id = (items.map T).getLastD .void := rule
    rw [List.getLastD_eq_getLast?, List.getLast?_map] at rule
    simp only [Syntax.Rule, List.getLast?_map]
    cases last : items.getLast? with
    | none => simpa [last] using rule
    | some c =>
      rw [last] at rule
      simp only [Option.map_some, exprTree_id]
      rw [entry (by simpa using List.mem_of_getLast? last)]
      exact congrArg some rule.symm
  | ifThen c t e =>
    cases e with
    | none => exact ⟨has (by simp) rule.1, rule.2⟩
    | some e =>
      obtain ⟨condition, branches⟩ := rule
      refine ⟨has (by simp) condition, T t, T e, ?_, ?_, ?_⟩
      · rw [exprTree_id]
        exact entry (by simp)
      · rw [exprTree_id]
        exact entry (by simp)
      · have sound := typed.sound (reached.child ⟨_, hnode, by simp⟩ : a.Reached t)
        rw [branchType, sound]
        rcases branches with ⟨same, eq⟩ | ⟨other, eq⟩
        · simp [Ty.isCompatible_iff.2 same, eq]
        · rw [← Ty.isCompatible_iff] at other
          simp [other, eq]
  | whileDo c b => exact ⟨has (by simp) rule.1, rule.2⟩
  | forDo c lo hi st b =>
    obtain ⟨⟨x, hx⟩, numbers, void⟩ := rule
    simp only [List.forall_mem_cons] at numbers
    obtain ⟨hc, hlo, hhi, hst, -⟩ := numbers
    refine ⟨?_, has (by simp) hc, has (by simp) hlo,
      has (by simp) hhi, has (by simp) hst, void⟩
    obtain ⟨d, _, hb, -⟩ := bound.value (reached.child ⟨_, hnode, by simp⟩) hx
    rw [exprTree_id]
    exact ⟨d, hb⟩
  | «scoped» ds b =>
    change table.get? (a.exprTree n b).id = some (T id)
    rw [exprTree_id, entry (by simp)]
    exact congrArg some rule.symm
  | assign t v =>
    obtain ⟨-, atomic, same, eq⟩ := rule
    rw [← eq] at atomic same
    refine ⟨?_, atomic, has (by simp) same⟩
    rw [exprTree_id, entry (by simp), eq]

end

/-- A program without placeholders that is typed without a report follows the rules at every tree.
-/
theorem source_wellTyped (tree : a.IsTree) (whole : ∀ id, a.Reached id → a.expr? id ≠ some .hole)
    (named : a.source.resolve.errors = [])
    (typed : (a.source.check a.source.resolve.bindings).errors = #[]) :
    a.source.Everywhere (Syntax.wellTyped a.source.resolve.bindings
      (a.source.check a.source.resolve.bindings).types) := by
  have shaped := tree.isTreeShaped
  have bound := Lexical.bound_of_clean shaped named
  have assigns := assigns_derived shaped bound typed
  have wellTyped := assigns.wellTyped shaped bound whole
  have entries {id : NodeId} := @get?_types a shaped named typed id
  generalize derived a a.source.resolve.bindings = T at assigns wellTyped entries
  generalize (a.source.check a.source.resolve.bindings).types = table at entries ⊢
  refine source_everywhere tree (fun Γ n id ready => ?_) fun Γ n role id ready => ?_
  · have reached := ready.deep.reached
    obtain ⟨⟨position, kind⟩, hnode, fits⟩ := ready.fits
    cases kind with
    | decl | type => cases fits
    | expr e =>
      have he : a.expr? id = some e := by simp [expr?, hnode]
      refine ⟨T id, ?_, ?_, ?_⟩
      · rw [exprTree_id]
        exact entries reached (by simp [type?, hnode])
      · rcases expr_proper shaped bound assigns whole reached he with result | ⟨no, -⟩
        · exact result
        · exact no.elim
      · exact rule_exprTree shaped bound wellTyped entries reached hnode
  · have reached := ready.deep.reached
    rw [declTree]
    cases hd : a.decl? id with
    | none => trivial
    | some d =>
      obtain ⟨position, hnode⟩ := node?_of_decl? hd
      have own := entries reached (by simp [type?, hnode])
      have rule := wellTyped.rules reached hnode
      have value {c : NodeId} (hc : (.expr, c) ∈ (Kind.decl d).children) :
          table.get? (a.exprTree n c).id = some (T c) := by
        obtain ⟨e, he⟩ := shaped.expr hnode hc
        obtain ⟨position', hnode'⟩ := node?_of_expr? he
        rw [exprTree_id]
        exact entries (reached.child ⟨_, hnode, List.mem_map_of_mem hc⟩) (by simp [type?, hnode'])
      cases d with
      | «alias» => trivial
      | param => exact ⟨_, own, value_isData shaped bound assigns hd reached rfl⟩
      | var x t init =>
        cases init with
        | none => exact ⟨_, own, value_isData shaped bound assigns hd reached rfl⟩
        | some init => exact ⟨_, own, rule.2.1, _, value (by simp), rule.2.2⟩
      | function f params result body =>
        obtain ⟨type, atomic, same⟩ := rule
        refine ⟨params.map T, T result, own.trans (congrArg some type), atomic,
          ⟨_, value (by simp), same⟩, ?_⟩
        rw [List.forall₂_map_left_iff, List.forall₂_map_right_iff, List.forall₂_same]
        intro p hp
        obtain ⟨m, sited⟩ : ∃ m, Lexical.Sited a m .param p :=
          Lexical.Sited.of_reached shaped reached hnode (p := (.param, p)) (by simp [hp])
        obtain ⟨x, t, hx⟩ := param_of_sited sited
        obtain ⟨position', hnode'⟩ := node?_of_decl? hx
        rw [declTree_id]
        exact ⟨entries sited.deep.reached (by simp [type?, hnode']),
          value_isData shaped bound assigns hx sited.deep.reached rfl⟩

end Arena

end PinsBackend
