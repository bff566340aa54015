import PinsBackend.Proofs.Typing.Poison

/-! Placeholders in place of expressions.

A placeholder in a program without reports brings no name errors, and type errors only where the
value of a conditional is compared and the error stands in one of its branches. -/
namespace PinsBackend

namespace Arena

/-- The arena with a placeholder in place of a node. -/
def punch (a : Arena) (n : NodeId) : Arena :=
  { a with nodes := a.nodes.modify n fun node => ⟨node.position, .expr .hole⟩ }

variable {a : Arena} {n id : NodeId}

theorem node?_punch (id : NodeId) : (a.punch n).node? id =
    if id = n then (a.node? n).map fun node => ⟨node.position, .expr .hole⟩ else a.node? id := by
  unfold node? punch
  rw [Array.getElem?_modify]
  by_cases same : id = n
  · simp [same]
  · simp [same, Ne.symm same]

theorem node?_punch_of_ne (ne : id ≠ n) : (a.punch n).node? id = a.node? id := by
  rw [node?_punch, if_neg ne]

theorem position_punch (id : NodeId) : (a.punch n).position id = a.position id := by
  rw [position, node?_punch]
  split
  · next same =>
    subst same
    rw [position]
    cases a.node? id <;> rfl
  · rfl

theorem expr?_punch_of_ne (ne : id ≠ n) : (a.punch n).expr? id = a.expr? id := by
  unfold expr?
  rw [node?_punch_of_ne ne]

section

variable (hn : (a.expr? n).isSome)

include hn

theorem expr?_punch_self : (a.punch n).expr? n = some .hole := by
  obtain ⟨e, he⟩ := Option.isSome_iff_exists.1 hn
  obtain ⟨position, hnode⟩ := node?_of_expr? he
  simp [expr?, node?_punch, hnode]

theorem not_expr_punch {id : NodeId} (h : a.expr? id = none) : (a.punch n).expr? id = none := by
  rw [expr?_punch_of_ne, h]
  rintro rfl
  rw [h] at hn
  cases hn

theorem decl?_punch (id : NodeId) : (a.punch n).decl? id = a.decl? id := by
  obtain ⟨e, he⟩ := Option.isSome_iff_exists.1 hn
  obtain ⟨position, hnode⟩ := node?_of_expr? he
  unfold decl?
  by_cases same : id = n
  · simp [node?_punch, same, hnode]
  · rw [node?_punch_of_ne same]

theorem type?_punch (id : NodeId) : (a.punch n).type? id = a.type? id := by
  obtain ⟨e, he⟩ := Option.isSome_iff_exists.1 hn
  obtain ⟨position, hnode⟩ := node?_of_expr? he
  unfold type?
  by_cases same : id = n
  · simp [node?_punch, same, hnode]
  · rw [node?_punch_of_ne same]

theorem typeTree_punch (m : Nat) (id : NodeId) : (a.punch n).typeTree m id = a.typeTree m id := by
  induction m generalizing id with
  | zero => simp [typeTree, site, position_punch]
  | succ m ih =>
    rw [typeTree, typeTree, type?_punch hn]
    simp only [ih, site, position_punch]

theorem signature?_punch (id : NodeId) : (a.punch n).signature? id = a.signature? id := by
  have size : (a.punch n).nodes.size = a.nodes.size := by simp [punch]
  rw [signature?, signature?, decl?_punch hn]
  simp only [typeTree_punch hn, size, site, position_punch]

end

theorem flatMap_modify_sublist {α β : Type} {f : α → α} {g : α → List β}
    (h : ∀ x, (g (f x)).Sublist (g x)) (l : List α) (i : Nat) :
    ((l.modify i f).flatMap g).Sublist (l.flatMap g) := by
  induction l generalizing i with
  | nil => simp
  | cons x l ih =>
    cases i with
    | zero => simpa using (h x).append (List.Sublist.refl (l.flatMap g))
    | succ i => simpa using (List.Sublist.refl (g x)).append (ih i)

/-- The places below the placeholder are gone. -/
theorem places_punch : (a.punch n).places.Sublist a.places := by
  refine (List.Sublist.refl _).append ?_
  rw [punch, Array.toList_modify]
  exact flatMap_modify_sublist (fun _ => List.nil_sublist _) _ _

theorem IsTreeShaped.punch (h : a.IsTreeShaped) (hn : (a.expr? n).isSome) :
    (a.punch n).IsTreeShaped := by
  refine ⟨fun p hp => ?_, h.single.sublist (places_punch.map _)⟩
  have accepts := h.accepts p (places_punch.subset hp)
  by_cases same : p.2 = n
  · obtain ⟨e, he⟩ := Option.isSome_iff_exists.1 hn
    obtain ⟨position, hnode⟩ := node?_of_expr? he
    rw [same, hnode] at accepts
    rw [node?_punch, if_pos same, hnode]
    obtain ⟨role, id⟩ := p
    cases role <;> exact accepts
  · rw [node?_punch_of_ne same]
    exact accepts

theorem child_punch {p c : NodeId} (h : (a.punch n).Child p c) : p ≠ n ∧ a.Child p c := by
  obtain ⟨node, hnode, hc⟩ := h
  by_cases same : p = n
  · rw [node?_punch, if_pos same] at hnode
    obtain ⟨node', -, rfl⟩ := Option.map_eq_some_iff.1 hnode
    simp at hc
  · rw [node?_punch_of_ne same] at hnode
    exact ⟨same, node, hnode, hc⟩

theorem reached_punch (h : (a.punch n).Reached id) : a.Reached id := by
  obtain ⟨root, hroot, path⟩ := h
  exact ⟨root, hroot, Relation.ReflTransGen.mono (fun _ _ hc => (child_punch hc).2) _ _ path⟩

end Arena

namespace Lexical

variable {a : Arena} {n : NodeId}

theorem stands_punch {Γ : List Region} {id : NodeId} (h : Stands (a.punch n) Γ id) :
    Stands a Γ id := by
  induction h with
  | top h => exact .top h
  | inside _ mem ih =>
    have ne := (Arena.child_punch (child_of_mem_inside mem)).1
    refine ih.inside ?_
    rw [Lexical.inside, Arena.node?_punch_of_ne ne] at mem
    exact mem

section

variable (hn : (a.expr? n).isSome) {id : NodeId}

include hn

theorem first?_punch (decls : List NodeId) (name : String) :
    first? (a.punch n) decls name = first? a decls name := by
  simp only [first?, Arena.decl?_punch hn]

theorem meaning?_punch (Γ : List Region) (name : String) :
    meaning? (a.punch n) Γ name = meaning? a Γ name := by
  have region : Region.meaning? (a.punch n) name = Region.meaning? a name := by
    funext r
    simp only [Region.meaning?, first?_punch hn, Arena.decl?_punch hn]
  rw [meaning?, meaning?, region]

theorem duplicates_punch (decls : List NodeId) :
    duplicates (a.punch n) decls = duplicates a decls := by
  simp only [duplicates, duplicate?, first?_punch hn, Arena.decl?_punch hn, Arena.position_punch]

theorem binding?_punch (Γ : List Region) (ne : id ≠ n) :
    binding? (a.punch n) Γ id = binding? a Γ id := by
  simp only [binding?, choice?, Arena.node?_punch_of_ne ne, meaning?_punch hn]

theorem complaints_punch {Γ : List Region} (none : complaints a Γ id = []) :
    complaints (a.punch n) Γ id = [] := by
  by_cases same : id = n
  · unfold complaints
    rw [Arena.node?_punch, if_pos same]
    cases a.node? n <;> simp [reference?]
  · unfold complaints at none ⊢
    simp only [Arena.node?_punch_of_ne same, duplicates_punch hn, unfit, meaning?_punch hn,
      Arena.position_punch] at none ⊢
    exact none

/-- A placeholder brings no name errors. -/
theorem errors_punch (tree : a.IsTreeShaped) (clean : a.source.resolve.errors = []) :
    (a.punch n).source.resolve.errors = [] := by
  have all := List.append_eq_nil_iff.1 ((errors_perm tree).symm.trans (.of_eq clean)).eq_nil
  refine ((errors_perm (tree.punch hn)).trans (.of_eq ?_)).eq_nil
  rw [List.append_eq_nil_iff, duplicates_punch hn]
  refine ⟨all.1, List.flatMap_eq_nil_iff.2 fun p hp => complaints_punch hn ?_⟩
  have stands := stands_punch ((mem_allNodes (tree.punch hn).single).1 hp)
  exact complaints_nil tree clean stands

/-- The other references keep their bindings. -/
theorem get?_bindings_punch (tree : a.IsTreeShaped) (reached : (a.punch n).Reached id)
    (ne : id ≠ n) :
    (a.punch n).source.resolve.bindings.get? id = a.source.resolve.bindings.get? id := by
  obtain ⟨Γ, stands⟩ := reached_iff.1 reached
  rw [get?_bindings (tree.punch hn) stands, get?_bindings tree (stands_punch stands),
    binding?_punch hn Γ ne]

end

end Lexical

namespace Assignment

open Typing Lexical

/-! ## The types around a placeholder -/

theorem Exposed.not_poisoned {b : Arena} {id : NodeId} (h : Exposed b id) : ¬ Poisoned b id := by
  induction h with
  | branch he =>
    intro poisoned
    cases poisoned with
    | hole he' => cases he.symm.trans he'
    | part he' mem =>
      cases he.symm.trans he'
      cases mem
  | @passed id c e he mem _ ih =>
    intro poisoned
    cases poisoned with
    | hole he' =>
      cases he.symm.trans he'
      cases mem
    | @part _ c' _ he' mem' poisoned' =>
      cases he.symm.trans he'
      have same : c' = c := by
        cases e with
        | block items =>
          have last : items.getLast? = some c := by simpa [results] using mem
          have last' : items.getLast? = some c' := by simpa [handing] using mem'
          exact Option.some.inj (last'.symm.trans last)
        | «scoped» ds body =>
          have last : c = body := by simpa [results] using mem
          have last' : c' = body := by simpa [handing] using mem'
          exact last'.trans last.symm
        | ifThen => cases mem'
        | hole | literal | name | unary | binary | call | whileDo | forDo | assign => cases mem
      exact ih (same ▸ poisoned')

open Classical in
/-- The types of a program with placeholders, for those of the program without them. -/
noncomputable def spoilt (b : Arena) (T : NodeId → Ty) (id : NodeId) : Ty :=
  if Poisoned b id then .error else if Exposed b id then .void else T id

section

variable {allowed : Prop}

variable {b : Arena} {T : NodeId → Ty} {id : NodeId} {e : Arena.Expr}

theorem spoilt_of_poisoned (h : Poisoned b id) : spoilt b T id = .error := if_pos h

theorem spoilt_of_exposed (h : Exposed b id) : spoilt b T id = .void := by
  rw [spoilt, if_neg h.not_poisoned, if_pos h]

theorem spoilt_of_clean (sound : ¬ Poisoned b id) (valued : ¬ Exposed b id) :
    spoilt b T id = T id := by
  rw [spoilt, if_neg sound, if_neg valued]

theorem spoilt_of_not_expr (h : b.expr? id = none) : spoilt b T id = T id := by
  apply spoilt_of_clean
  · rintro (he | he)
    · cases h.symm.trans he
    · cases h.symm.trans he
  · rintro (he | he)
    · cases h.symm.trans he
    · cases h.symm.trans he

theorem not_poisoned_of_parts (he : b.expr? id = some e) (notHole : e ≠ .hole)
    (parts : ∀ c ∈ handing e, ¬ Poisoned b c) : ¬ Poisoned b id := by
  intro h
  cases h with
  | hole he' =>
    cases he.symm.trans he'
    exact notHole rfl
  | part he' mem poisoned =>
    cases he.symm.trans he'
    exact parts _ mem poisoned

theorem not_exposed_of_parts (he : b.expr? id = some e)
    (branches : ∀ c t e', e = .ifThen c t (some e') → ¬ Poisoned b t ∧ ¬ Poisoned b e')
    (parts : ∀ c ∈ results e, ¬ Exposed b c) : ¬ Exposed b id := by
  intro h
  cases h with
  | @branch _ c t e' x he' mem poisoned =>
    obtain ⟨hl, hr⟩ := branches c t e' (Option.some.inj (he.symm.trans he'))
    have either : x = t ∨ x = e' := by simpa using mem
    rcases either with rfl | rfl
    · exact hl poisoned
    · exact hr poisoned
  | passed he' mem exposed =>
    cases he.symm.trans he'
    exact parts _ mem exposed

theorem spoilt_proper (h : Proper allowed (T id)) : Proper True (spoilt b T id) := by
  unfold spoilt
  split
  · exact .error trivial
  · split
    · exact .inl (.inr rfl)
    · exact h.mono fun _ => trivial

/-- The type of a conditional whose branches may be poisoned or have no value. -/
theorem spoilt_branches {c t e : NodeId} (he : b.expr? id = some (.ifThen c t (some e)))
    (proper : Proper allowed (T t)) (same : branchType (T t) (T e) = T id) :
    branchType (spoilt b T t) (spoilt b T e) = spoilt b T id := by
  by_cases poisoned : Poisoned b t ∨ Poisoned b e
  · rw [branchType_void (spoilt_proper proper), spoilt_of_exposed]
    · exact poisoned.elim (fun h => .branch he (by simp) h) fun h => .branch he (by simp) h
    · exact poisoned.imp (fun h => .inl (spoilt_of_poisoned h)) fun h => .inl (spoilt_of_poisoned h)
  by_cases exposed : Exposed b t ∨ Exposed b e
  · rw [branchType_void (spoilt_proper proper), spoilt_of_exposed]
    · exact exposed.elim (fun h => .passed he (by simp [results]) h) fun h =>
        .passed he (by simp [results]) h
    · exact exposed.imp (fun h => .inr (spoilt_of_exposed h)) fun h => .inr (spoilt_of_exposed h)
  rw [not_or] at poisoned exposed
  rw [spoilt_of_clean poisoned.1 exposed.1, spoilt_of_clean poisoned.2 exposed.2, same,
    spoilt_of_clean]
  · exact not_poisoned_of_parts he (by simp) (by simp [handing])
  · refine not_exposed_of_parts he (fun c' t' e' eq => ?_) (by simpa [results] using exposed)
    cases eq
    exact poisoned

/-- A block or a scope has the type of its last part. -/
theorem spoilt_passing {c : NodeId} (he : b.expr? id = some e) (notHole : e ≠ .hole)
    (hands : handing e = [c]) (gives : results e = [c]) (same : T c = T id) :
    spoilt b T c = spoilt b T id := by
  by_cases poisoned : Poisoned b c
  · rw [spoilt_of_poisoned poisoned, spoilt_of_poisoned (.part he (by simp [hands]) poisoned)]
  by_cases exposed : Exposed b c
  · rw [spoilt_of_exposed exposed, spoilt_of_exposed (.passed he (by simp [gives]) exposed)]
  rw [spoilt_of_clean poisoned exposed, spoilt_of_clean, same]
  · exact not_poisoned_of_parts he notHole (by simpa [hands] using poisoned)
  · refine not_exposed_of_parts he (fun c t e' eq => ?_) (by simpa [gives] using exposed)
    rw [eq] at hands
    cases hands

end

/-- With an error among the operands an operation is an error, and not reported. -/
theorem binary_poison {op : Syntax.BinaryOp} {left right left' right' τ : Ty}
    {l r l' r' : Syntax.Site} (h : outcome (binaryType op left right l r) = some τ)
    (bad : left' = .error ∨ right' = .error)
    (hl : (op.isComparison = true → right' ≠ .error) → left' = .error ∨ left' = left)
    (hr : (op.isComparison = true ∨ op = .index → left' ≠ .error) → right' = .error ∨
      right' = right) :
    outcome (binaryType op left' right' l' r') = some .error := by
  have either : (left'.isError || right'.isError) = true := by
    rcases bad with rfl | rfl
    · rfl
    · simp [Ty.isError]
  have fit {operand t t' : Ty} (fine : fits operand t = true) (h : t' = .error ∨ t' = t) :
      fits operand t' = true := by
    rcases h with rfl | rfl
    · exact fits_error _
    · exact fine
  have same {operand : Ty} (h : outcome (sameType operand left right l r) = some τ)
      (hl : left' = .error ∨ left' = left) (hr : right' = .error ∨ right' = right) :
      outcome (sameType operand left' right' l' r') = some .error := by
    rw [outcome_sameType] at h ⊢
    split at h
    · next fine =>
      obtain ⟨fitsLeft, fitsRight⟩ := Bool.and_eq_true_iff.1 fine
      rw [fit fitsLeft hl, fit fitsRight hr, Bool.or_assoc, either, Bool.or_true]
      rfl
    · cases h
  unfold binaryType at h ⊢
  split at h
  · next index =>
    subst index
    rw [if_pos rfl]
    rw [outcome_indexType] at h ⊢
    have own := hl (fun comparison => by cases comparison)
    by_cases error : left'.isError = true
    · rw [if_pos error]
    · have same : left' = left := own.resolve_left fun eq => error (eq ▸ rfl)
      have error' : right' = .error := bad.resolve_left fun eq => error (eq ▸ rfl)
      subst same
      rw [if_neg error] at h ⊢
      obtain ⟨parts, array, -⟩ := Option.bind_eq_some_iff.1 h
      rw [array, error', Option.bind_some, fits_error]
      rfl
  · next index =>
    rw [if_neg index]
    split at h
    · next arithmetic =>
      rw [if_pos arithmetic]
      have other : ¬ op.isComparison = true := by
        cases op <;> simp_all [Syntax.BinaryOp.isComparison, Syntax.BinaryOp.isArithmetic]
      exact same h (hl fun comparison => absurd comparison other)
        (hr fun op => absurd op (not_or.2 ⟨other, index⟩))
    · next arithmetic =>
      rw [if_neg arithmetic]
      split at h
      · next logical =>
        rw [if_pos logical]
        have other : ¬ op.isComparison = true := by
          cases op <;> simp_all [Syntax.BinaryOp.isComparison, Syntax.BinaryOp.isLogical]
        exact same h (hl fun comparison => absurd comparison other)
          (hr fun op => absurd op (not_or.2 ⟨other, index⟩))
      · next logical => rw [if_neg logical, outcome_comparisonType, if_pos either]

theorem apply_poison {site site' : Syntax.Site} {name : String} {params : List Ty} {result τ : Ty}
    {args : List NodeId} {T T' : NodeId → Ty} {sites sites' : List Syntax.Site}
    (places : args.length = sites.length) (places' : args.length = sites'.length)
    (h : outcome (applyType site name (.function params result) (args.map T) sites) = some τ)
    (same : ∀ c ∈ args, T' c = .error ∨ T' c = T c) (bad : ∃ c ∈ args, T' c = .error) :
    outcome (applyType site' name (.function params result) (args.map T') sites') =
      some .error := by
  rw [outcome_applyType _ _ _ _ _ _ (by simpa using places)] at h
  rw [outcome_applyType _ _ _ _ _ _ (by simpa using places')]
  split at h
  · next fine =>
    have length : params.length = (args.map T').length := by simpa using fine.1
    have fits' : ((params.zip (args.map T')).all fun p => fits p.1 p.2) = true := by
      rw [List.all_eq_true, List.zip_map_right]
      intro q hq
      obtain ⟨⟨p, c⟩, mem, rfl⟩ := List.mem_map.1 hq
      rcases same c (List.of_mem_zip mem).2 with error | eq
      · simp only [Prod.map, error]
        exact fits_error _
      · have old := List.all_eq_true.1 fine.2 (p, T c)
        rw [List.zip_map_right] at old
        simp only [Prod.map, eq]
        exact old (List.mem_map.2 ⟨(p, c), mem, rfl⟩)
    obtain ⟨c, hc, error⟩ := bad
    have mem : Ty.error ∈ args.map T' := error ▸ List.mem_map_of_mem hc
    have seconds : (params.zip (args.map T')).map Prod.snd = args.map T' :=
      List.map_snd_zip length.ge
    rw [← seconds] at mem
    obtain ⟨p, mem, eq⟩ := List.mem_map.1 mem
    rw [if_pos ⟨length, fits'⟩, if_neg]
    intro sound
    have := List.all_eq_true.1 sound p mem
    simp [eq, Ty.isError] at this
  · cases h

section

variable {c : NodeId} {node : Arena.Node}

variable {a : Arena} {n : NodeId} {T : NodeId → Ty}

theorem site_punch (id : NodeId) : (a.punch n).site id = a.site id := by
  simp only [Arena.site, Arena.position_punch]

variable {id : NodeId} {e : Arena.Expr}

/-- A part whose type is compared is an error or keeps its type. -/
theorem spoilt_compared (shield : Shielded (a.punch n)) (reached : (a.punch n).Reached id)
    (he : (a.punch n).expr? id = some e) (compares : Compares (a.punch n) (.expr e) c) :
    Poisoned (a.punch n) c ∧ spoilt (a.punch n) T c = .error ∨
      ¬ Poisoned (a.punch n) c ∧ spoilt (a.punch n) T c = T c := by
  obtain ⟨position, hnode⟩ := Arena.node?_of_expr? he
  by_cases poisoned : Poisoned (a.punch n) c
  · exact .inl ⟨poisoned, spoilt_of_poisoned poisoned⟩
  · exact .inr ⟨poisoned, spoilt_of_clean poisoned (shield id _ c reached hnode compares)⟩

/-- An expression that hands on no missing type keeps its type. -/
theorem spoilt_own (he : (a.punch n).expr? id = some e) (hole : e ≠ .hole)
    (sound : ∀ c ∈ handing e, ¬ Poisoned (a.punch n) c) (none : results e = []) :
    spoilt (a.punch n) T id = T id := by
  refine spoilt_of_clean (not_poisoned_of_parts he hole sound) (not_exposed_of_parts he ?_ ?_)
  · rintro c t e' rfl
    cases none
  · simp [none]

theorem outcome_condition_spoilt (shield : Shielded (a.punch n)) (reached : (a.punch n).Reached id)
    (he : (a.punch n).expr? id = some e) {τ τ' : Ty} (compares : Compares (a.punch n) (.expr e) c)
    (old : outcome (do let _ ← expect .logical (T c) (a.site c) return τ) = some τ') :
    τ = τ' ∧ fits .logical (spoilt (a.punch n) T c) = true := by
  rw [outcome_condition] at old
  split at old
  · next fine =>
    refine ⟨Option.some.inj old, ?_⟩
    rcases spoilt_compared shield reached he compares with ⟨-, error⟩ | ⟨-, same⟩
    · rw [error, fits_error]
    · rw [same, fine]
  · cases old

variable (tree : a.IsTreeShaped) (hn : (a.expr? n).isSome)

section

include hn

theorem ne_of_expr?_punch (he : (a.punch n).expr? id = some e) (hole : e ≠ .hole) : id ≠ n := by
  rintro rfl
  rw [Arena.expr?_punch_self hn] at he
  exact hole (Option.some.inj he).symm

theorem ne_of_not_poisoned (sound : ¬ Poisoned (a.punch n) id) : id ≠ n := by
  rintro rfl
  exact sound (.hole (Arena.expr?_punch_self hn))

theorem spoilt_declared (none : a.expr? id = none) : spoilt (a.punch n) T id = T id :=
  spoilt_of_not_expr (Arena.not_expr_punch hn none)

/-- If all parts of an expression keep their types, so does its rule. -/
theorem infer_spoilt (he : a.expr? id = some e)
    (parts : ∀ c ∈ (Arena.Kind.expr e).children.map Prod.snd, spoilt (a.punch n) T c = T c) :
    infer a a.source.resolve.bindings (spoilt (a.punch n) T) id e =
      infer a a.source.resolve.bindings T id e := by
  obtain ⟨position, hnode⟩ := Arena.node?_of_expr? he
  refine infer_congr (fun c child => ?_) (fun _ => spoilt_declared hn) hnode
  obtain ⟨_, hc, mem⟩ := child
  cases hnode.symm.trans hc
  exact parts c mem

end

include tree hn

theorem boundVar?_punch (reached : (a.punch n).Reached id) (ne : id ≠ n) :
    (context (a.punch n) (a.punch n).source.resolve.bindings).boundVar? id =
      (context a a.source.resolve.bindings).boundVar? id := by
  simp only [Context.boundVar?, context, get?_bindings_punch hn tree reached ne,
    Arena.get?_signatures, Arena.signature?_punch hn]

/-- What a node asks of its own binding and of the types of its parts stays the same. -/
theorem infer_punch {e : Arena.Expr} (reached : (a.punch n).Reached id) (ne : id ≠ n)
    (loop : ∀ c lo hi st body, e ≠ .forDo c lo hi st body) (store : ∀ t v, e ≠ .assign t v) :
    infer (a.punch n) (a.punch n).source.resolve.bindings T id e =
      infer a a.source.resolve.bindings T id e := by
  have sites : (a.punch n).site = a.site := funext site_punch
  cases e with
  | hole | literal | block | «scoped» => rfl
  | name x => simp only [infer, boundVar?_punch tree hn reached ne]
  | unary op e => simp only [infer, sites]
  | binary op l r => simp only [infer, sites]
  | call f args =>
    simp only [infer, get?_bindings_punch hn tree reached ne, Arena.decl?_punch hn, sites,
      Arena.position_punch]
  | ifThen c t e => cases e <;> simp only [infer, sites]
  | whileDo => simp only [infer, sites]
  | forDo => exact absurd rfl (loop _ _ _ _ _)
  | assign => exact absurd rfl (store _ _)

theorem isLocation_punch (reached : (a.punch n).Reached id) (ne : id ≠ n) :
    isLocation (context (a.punch n) (a.punch n).source.resolve.bindings)
      ((a.punch n).exprTree 1 id) =
      isLocation (context a a.source.resolve.bindings) (a.exprTree 1 id) := by
  rw [Arena.exprTree, Arena.exprTree, Arena.expr?_punch_of_ne ne]
  cases he : a.expr? id with
  | none => rfl
  | some e =>
    cases e with
    | name x => simp only [isLocation, Arena.site, boundVar?_punch tree hn reached ne]
    | binary op l r => cases op <;> rfl
    | ifThen c t e => cases e <;> rfl
    | _ => rfl

variable (bound : Bound a a.source.resolve.bindings)
  (assigns : Assigns a a.source.resolve.bindings T)

include assigns

section

variable (shield : Shielded (a.punch n)) (reached : (a.punch n).Reached id)

include shield reached

theorem spoilt_binary {op : Syntax.BinaryOp} {l r : NodeId}
    (he : (a.punch n).expr? id = some (.binary op l r)) :
    outcome (infer (a.punch n) (a.punch n).source.resolve.bindings (spoilt (a.punch n) T) id
      (.binary op l r)) = some (spoilt (a.punch n) T id) := by
  have ne := ne_of_expr?_punch hn he (by simp)
  have he' := (Arena.expr?_punch_of_ne ne).symm.trans he
  have passes := assigns.infers (Arena.reached_punch reached) he'
  have value {c : NodeId} (compares : Compares (a.punch n) (.expr (.binary op l r)) c) :=
    spoilt_compared (T := T) shield reached he compares
  rw [infer_punch tree hn reached ne (by simp) (by simp)]
  by_cases sound : ¬ Poisoned (a.punch n) l ∧ ¬ Poisoned (a.punch n) r
  · have left := (value (.inl ⟨rfl, fun _ => sound.2⟩)).resolve_left fun h => sound.1 h.1
    have right := (value (.inr ⟨rfl, fun _ => sound.1⟩)).resolve_left fun h => sound.2 h.1
    rw [infer_spoilt hn he' (by simpa using ⟨left.2, right.2⟩),
      spoilt_own he (by simp) (by simpa [handing] using sound) rfl]
    exact passes
  · have poisoned : ∃ c ∈ handing (.binary op l r), Poisoned (a.punch n) c := by
      by_contra none
      exact sound (by simpa [handing] using none)
    obtain ⟨c, mem, poisoned⟩ := poisoned
    rw [spoilt_of_poisoned (.part he mem poisoned)]
    refine binary_poison passes ?_ (fun right => ?_) (fun left => ?_)
    · have either : c = l ∨ c = r := by simpa [handing] using mem
      rcases either with rfl | rfl
      · exact .inl (spoilt_of_poisoned poisoned)
      · exact .inr (spoilt_of_poisoned poisoned)
    · have left := value (c := l)
        (.inl ⟨rfl, fun comparison poisoned => right comparison (spoilt_of_poisoned poisoned)⟩)
      exact left.imp And.right And.right
    · have right := value (c := r)
        (.inr ⟨rfl, fun op poisoned => left op (spoilt_of_poisoned poisoned)⟩)
      exact right.imp And.right And.right

include bound in
theorem spoilt_call {f : String} {args : List NodeId}
    (he : (a.punch n).expr? id = some (.call f args)) :
    outcome (infer (a.punch n) (a.punch n).source.resolve.bindings (spoilt (a.punch n) T) id
      (.call f args)) = some (spoilt (a.punch n) T id) := by
  have ne := ne_of_expr?_punch hn he (by simp)
  have he' := (Arena.expr?_punch_of_ne ne).symm.trans he
  have passes := assigns.infers (Arena.reached_punch reached) he'
  have argument (c : NodeId) (hc : c ∈ args) := spoilt_compared (T := T) shield reached he hc
  rw [infer_punch tree hn reached ne (by simp) (by simp)]
  by_cases sound : ∀ c ∈ args, ¬ Poisoned (a.punch n) c
  · rw [infer_spoilt hn he', spoilt_own he (by simp) sound rfl]
    · exact passes
    · intro c hc
      have hc : c ∈ args := by simpa using hc
      exact ((argument c hc).resolve_left fun h => sound c hc h.1).2
  · push Not at sound
    obtain ⟨c, hc, poisoned⟩ := sound
    obtain ⟨params, result, -, -, eq⟩ :=
      call_applies tree bound assigns (Arena.reached_punch reached) he'
    rw [eq T fun _ _ => rfl] at passes
    rw [eq _ fun _ => spoilt_declared hn, spoilt_of_poisoned (.part he hc poisoned)]
    exact apply_poison (by simp) (by simp) passes
      (fun c hc => (argument c hc).imp And.right And.right) ⟨c, hc, spoilt_of_poisoned poisoned⟩

theorem spoilt_forDo {c lo hi st body : NodeId}
    (he : (a.punch n).expr? id = some (.forDo c lo hi st body)) :
    outcome (infer (a.punch n) (a.punch n).source.resolve.bindings (spoilt (a.punch n) T) id
      (.forDo c lo hi st body)) = some (spoilt (a.punch n) T id) := by
  have he' := (Arena.expr?_punch_of_ne (ne_of_expr?_punch hn he (by simp))).symm.trans he
  have passes := assigns.infers (Arena.reached_punch reached) he'
  rw [outcome_loop] at passes ⊢
  split at passes
  · next fine =>
    have void : .void = T id := Option.some.inj passes
    rw [spoilt_own he (by simp) (by simp [handing]) rfl, ← void, if_pos]
    constructor
    · rcases spoilt_compared shield reached he (c := c) (by simp [Compares]) with
        ⟨-, error⟩ | ⟨sound, same⟩
      · rw [error]
        exact Bool.or_true _
      · have reached' := reached_part reached he (c := c) (by simp)
        rw [boundVar?_punch tree hn reached' (ne_of_not_poisoned hn sound), same]
        exact fine.1
    · intro x hx
      rcases spoilt_compared shield reached he hx with ⟨-, error⟩ | ⟨-, same⟩
      · rw [error, fits_error]
      · rw [same]
        exact fine.2 x hx
  · cases passes

theorem spoilt_assign {t v : NodeId} (he : (a.punch n).expr? id = some (.assign t v)) :
    outcome (infer (a.punch n) (a.punch n).source.resolve.bindings (spoilt (a.punch n) T) id
      (.assign t v)) = some (spoilt (a.punch n) T id) := by
  have he' := (Arena.expr?_punch_of_ne (ne_of_expr?_punch hn he (by simp))).symm.trans he
  have passes := assigns.infers (Arena.reached_punch reached) he'
  simp only [infer] at passes ⊢
  rw [outcome_assignType] at passes ⊢
  rcases spoilt_compared shield reached he (c := t) (.inl rfl) with
    ⟨poisoned, error⟩ | ⟨sound, same⟩
  · rw [error, spoilt_of_poisoned (.part he (by simp [handing]) poisoned)]
    rfl
  · have reached' := reached_part reached he (c := t) (by simp)
    rw [same, isLocation_punch tree hn reached' (ne_of_not_poisoned hn sound)]
    rcases spoilt_compared shield reached he (c := v) (.inr ⟨rfl, sound⟩) with
      ⟨poisoned, error⟩ | ⟨sound', same'⟩
    · rw [error, spoilt_of_poisoned (.part he (by simp [handing]) poisoned), fits_error]
      by_cases bad : (T t).isError = true
      · rw [if_pos bad]
      · rw [if_neg bad] at passes ⊢
        split at passes
        · next fine =>
          rw [(Bool.and_eq_true_iff.1 fine).1]
          rfl
        · cases passes
    · rw [same', spoilt_own he (by simp) (by simpa [handing] using ⟨sound, sound'⟩) rfl]
      exact passes

include bound in
theorem spoilt_ifElse {c t e : NodeId} (he : (a.punch n).expr? id = some (.ifThen c t (some e))) :
    outcome (infer (a.punch n) (a.punch n).source.resolve.bindings (spoilt (a.punch n) T) id
      (.ifThen c t (some e))) = some (spoilt (a.punch n) T id) := by
  have he' := (Arena.expr?_punch_of_ne (ne_of_expr?_punch hn he (by simp))).symm.trans he
  obtain ⟨position, hnode⟩ := Arena.node?_of_expr? he'
  have passes := assigns.infers (Arena.reached_punch reached) he'
  obtain ⟨type, fine⟩ := outcome_condition_spoilt shield reached he (c := c) rfl passes
  have then' : (.expr, t) ∈ (Arena.Kind.expr (.ifThen c t (some e))).children := by
    simp
  obtain ⟨e', ht⟩ := tree.expr hnode then'
  have proper := proper_poisoned tree bound assigns
    (reached_part (Arena.reached_punch reached) he' then') ht
  rw [infer, outcome_condition, fine, if_pos rfl, Option.some.injEq]
  exact spoilt_branches he proper type

include bound

/-- The rules of the expressions around a placeholder, if no missing type is compared. -/
theorem spoilt_infers (he : (a.punch n).expr? id = some e) :
    outcome (infer (a.punch n) (a.punch n).source.resolve.bindings (spoilt (a.punch n) T) id e) =
      some (spoilt (a.punch n) T id) := by
  by_cases hole : e = .hole
  · subst hole
    rw [spoilt_of_poisoned (.hole he)]
    rfl
  have ne := ne_of_expr?_punch hn he hole
  have he' : a.expr? id = some e := (Arena.expr?_punch_of_ne ne).symm.trans he
  have passes := assigns.infers (Arena.reached_punch reached) he'
  have own := spoilt_own (T := T) he hole
  cases e with
  | hole => exact absurd rfl hole
  | literal l =>
    rw [own (by simp [handing]) rfl]
    exact passes
  | name x =>
    rw [infer_punch tree hn reached ne (by simp) (by simp),
      infer_spoilt hn he' (by simp), own (by simp [handing]) rfl]
    exact passes
  | unary op c =>
    rw [outcome_unary]
    rcases spoilt_compared shield reached he (c := c) rfl with ⟨poisoned, error⟩ | ⟨sound, same⟩
    · rw [error, fits_error, spoilt_of_poisoned (.part he (by simp [handing]) poisoned)]
      rfl
    · rw [same, own (by simpa [handing] using sound) rfl]
      rwa [outcome_unary] at passes
  | binary => exact spoilt_binary tree hn assigns shield reached he
  | call => exact spoilt_call tree hn bound assigns shield reached he
  | block items =>
    have old : (items.map T).getLastD .void = T id := Option.some.inj passes
    change some ((items.map (spoilt (a.punch n) T)).getLastD .void) = _
    cases last : items.getLast? with
    | none =>
      obtain rfl := List.getLast?_eq_none_iff.1 last
      rw [own (by simp [handing]) rfl]
      exact passes
    | some c =>
      rw [List.getLastD_eq_getLast?, List.getLast?_map, last] at old ⊢
      have passing := spoilt_passing he hole (by simp [handing, last]) (by simp [results, last]) old
      exact congrArg some passing
  | ifThen c t e =>
    cases e with
    | none =>
      obtain ⟨void, fine⟩ := outcome_condition_spoilt shield reached he (c := c) rfl passes
      rw [infer, outcome_condition, fine, if_pos rfl, void, own (by simp [handing]) rfl]
    | some e => exact spoilt_ifElse tree hn bound assigns shield reached he
  | whileDo c body =>
    obtain ⟨void, fine⟩ := outcome_condition_spoilt shield reached he (c := c) rfl passes
    rw [infer, outcome_condition, fine, if_pos rfl, void, own (by simp [handing]) rfl]
  | forDo => exact spoilt_forDo tree hn assigns shield reached he
  | «scoped» ds body =>
    exact congrArg some (spoilt_passing he hole rfl rfl (Option.some.inj passes))
  | assign => exact spoilt_assign tree hn assigns shield reached he

end

include bound

omit hn assigns in
/-- Written types and declarations are made of no expressions. -/
theorem written_not_expr (reached : a.Reached id) (hnode : a.node? id = some node)
    (mem : c ∈ written a.source.resolve.bindings id node.kind) :
    a.expr? c = none := by
  obtain ⟨position, kind⟩ := node
  have type {c : NodeId} (hc : (.type, c) ∈ kind.children) : a.expr? c = none := by
    obtain ⟨t, ht⟩ := tree.type hnode hc
    obtain ⟨position', hnode'⟩ := Arena.node?_of_type? ht
    simp [Arena.expr?, hnode']
  cases kind with
  | expr => cases mem
  | type t =>
    cases t with
    | atom => cases mem
    | array k element =>
      obtain rfl : c = element := by simpa [written] using mem
      exact type (by simp)
    | named x =>
      have ht : a.type? id = some (.named x) := by simp [Arena.type?, hnode]
      obtain ⟨d, y, t, hb, hd, -⟩ := bound.type reached ht
      obtain rfl : c = d := by simpa [written, hb, Binding.decl?, eq_comm] using mem
      obtain ⟨position', hnode'⟩ := Arena.node?_of_decl? hd
      simp [Arena.expr?, hnode']
  | decl d =>
    cases d with
    | «alias» x t | param x t | var x t =>
      obtain rfl : c = t := by simpa [written] using mem
      exact type (by simp)
    | function f ps r body =>
      have either : c ∈ ps ∨ c = r := by simpa [written] using mem
      rcases either with param | rfl
      · have hc : (.param, c) ∈ (Arena.Kind.decl (.function f ps r body)).children := by
          simp [param]
        obtain ⟨k, sited⟩ := Sited.of_reached tree reached hnode hc
        obtain ⟨x, t, hx⟩ := param_of_sited sited
        obtain ⟨position', hnode'⟩ := Arena.node?_of_decl? hx
        simp [Arena.expr?, hnode']
      · exact type (by simp)

omit assigns in
/-- Written types and declarations keep their types. -/
theorem spoilt_declares {τ : Ty} (reached : (a.punch n).Reached id) (ne : id ≠ n)
    (hnode : a.node? id = some node) (h : Declares a.source.resolve.bindings T id τ node.kind) :
    Declares (a.punch n).source.resolve.bindings (spoilt (a.punch n) T) id τ node.kind := by
  have same := h.congr fun c hc => (spoilt_of_not_expr (b := a.punch n) (T := T)
    (Arena.not_expr_punch hn
      (written_not_expr tree bound (Arena.reached_punch reached) hnode hc))).symm
  obtain ⟨position, kind⟩ := node
  cases kind with
  | expr => exact same
  | decl d => cases d <;> exact same
  | type t =>
    cases t with
    | atom | array => exact same
    | named x =>
      obtain ⟨d, hb, eq⟩ := same
      exact ⟨d, (get?_bindings_punch hn tree reached ne).trans hb, eq⟩

/-- The spoilt types are an assignment, if no missing type is compared. -/
theorem assigns_spoilt (shield : Shielded (a.punch n)) :
    Assigns (a.punch n) (a.punch n).source.resolve.bindings (spoilt (a.punch n) T) := by
  intro id node reached hnode
  cases he : (a.punch n).expr? id with
  | some e =>
    obtain ⟨position, hnode'⟩ := Arena.node?_of_expr? he
    rw [hnode] at hnode'
    cases hnode'
    exact spoilt_infers tree hn bound assigns shield reached he
  | none =>
    have ne : id ≠ n := by
      rintro rfl
      rw [Arena.expr?_punch_self hn] at he
      cases he
    have hnode' := (Arena.node?_punch_of_ne ne).symm.trans hnode
    have passes := assigns id node (Arena.reached_punch reached) hnode'
    have value {c : NodeId} (compares : Compares (a.punch n) node.kind c) :
        spoilt (a.punch n) T c = .error ∨ spoilt (a.punch n) T c = T c := by
      by_cases poisoned : Poisoned (a.punch n) c
      · exact .inl (spoilt_of_poisoned poisoned)
      · exact .inr (spoilt_of_clean poisoned (shield id _ c reached hnode compares))
    have approve {τ : Ty} {c : NodeId} (compares : Compares (a.punch n) node.kind c)
        (fine : (if τ.isError || τ.isAtomic && fits τ (T c) then some () else none) = some ()) :
        (if τ.isError || τ.isAtomic && fits τ (spoilt (a.punch n) T c) then some () else none) =
          some () := by
      rcases value compares with error | same
      · rw [error, fits_error]
        cases bad : τ.isError with
        | true => rfl
        | false =>
          cases atomic : τ.isAtomic with
          | true => rfl
          | false => simp [bad, atomic] at fine
      · rw [same, fine]
    rw [spoilt_of_not_expr he]
    obtain ⟨position, kind⟩ := node
    cases kind with
    | expr e => simp [Arena.expr?, hnode] at he
    | type t => exact spoilt_declares tree hn bound reached ne hnode' passes
    | decl d =>
      refine ⟨spoilt_declares tree hn bound reached ne hnode' passes.1, ?_⟩
      have accepts := passes.2
      cases d with
      | «alias» | param => rfl
      | var x t init =>
        cases init with
        | none => rfl
        | some init =>
          rw [outcome_initial] at accepts ⊢
          exact approve rfl accepts
      | function f ps r body =>
        have result := written_not_expr tree bound (Arena.reached_punch reached) hnode' (c := r)
          (by simp [written])
        rw [outcome_result] at accepts ⊢
        rw [spoilt_of_not_expr (Arena.not_expr_punch hn result)]
        exact approve rfl accepts

end

/-- Put in place of any expression of a program without reports, a placeholder brings no name
errors, and it brings no type errors exactly if no value is compared that is missing for the
placeholder in a branch of a conditional. -/
theorem placeholder_silent_iff_shielded {a : Arena} {n : NodeId} (tree : a.IsTreeShaped)
    (names : a.source.resolve.errors = [])
    (types : (a.source.check a.source.resolve.bindings).errors = #[]) (hn : (a.expr? n).isSome) :
    (a.punch n).source.resolve.errors = [] ∧
    (((a.punch n).source.check (a.punch n).source.resolve.bindings).errors = #[] ↔
      Shielded (a.punch n)) := by
  have bound := bound_of_clean tree names
  have tree' := tree.punch hn
  have names' := errors_punch hn tree names
  have bound' := bound_of_clean tree' names'
  refine ⟨names', fun clean => ?_, fun shield => ?_⟩
  · exact shielded_of_assigns tree' bound' (assigns_derived tree' bound' clean)
  · exact check_clean tree' bound'
      (assigns_spoilt tree hn bound (assigns_derived tree bound types) shield)

/-- `fun main() : integer = if true then 2 else 1` -/
def chooseNumber : Arena where
  nodes := #[
    ⟨.point 1 14, .type (.atom .integer)⟩,
    ⟨.point 1 27, .expr (.literal (.logical true))⟩,
    ⟨.point 1 37, .expr (.literal (.integer 2))⟩,
    ⟨.point 1 44, .expr (.literal (.integer 1))⟩,
    ⟨.point 1 24, .expr (.ifThen 1 2 (some 3))⟩,
    ⟨.point 1 1, .decl (.function "main" [] 0 4)⟩]
  definitions := [5]

/-- A placeholder as the condition is not reported, one as a branch is. -/
theorem placeholder_silent_iff_shielded_chooseNumber :
    Shielded (chooseNumber.punch 1) ∧ ¬ Shielded (chooseNumber.punch 2) := by
  have program : chooseNumber.IsTreeShaped ∧ chooseNumber.source.resolve.errors = [] ∧
      (chooseNumber.source.check chooseNumber.source.resolve.bindings).errors = #[] := by
    decide +kernel
  constructor
  · rw [← (placeholder_silent_iff_shielded (n := 1) program.1 program.2.1 program.2.2 rfl).2]
    decide +kernel
  · rw [← (placeholder_silent_iff_shielded (n := 2) program.1 program.2.1 program.2.2 rfl).2]
    decide +kernel

/-- An error in one branch takes the value of the conditional away, and that is reported. -/
theorem placeholder_cascades :
    chooseNumber.IsTreeShaped ∧ chooseNumber.source.resolve.errors = [] ∧
    (chooseNumber.source.check chooseNumber.source.resolve.bindings).errors = #[] ∧
    (chooseNumber.expr? 2).isSome ∧
    ((chooseNumber.punch 2).source.check (chooseNumber.punch 2).source.resolve.bindings).errors =
      #[.mismatch .integer .void (.point 1 24)] := by
  decide +kernel

end Assignment

end PinsBackend
