import PinsBackend.Proofs.Typing.Rules
import PinsBackend.Proofs.Typing.Soundness

/-! The checker decides the typing rules.

The rules speak of sound types only: they say of each construct which types its parts must have, and
which type it gets. In a program without placeholders every report has a cause in these rules, and
no check is skipped without one. -/
namespace PinsBackend.Assignment

open Relation
open Typing Lexical
open Syntax (OperatorRule)

variable {op : Syntax.BinaryOp} {site : Syntax.Site} {name : String}

/-! ## The rules -/

section

variable (a : Arena) (B : NodeTable Binding) (T : NodeId → Ty)

/-- The types of the parameters and of the result of what a call is bound to. -/
def Callee (id : NodeId) (params : List Ty) (result : Ty) : Prop :=
  (∃ b, B.get? id = some (.builtin b) ∧ b.signature = .function params result) ∨
    ∃ d f ps r body, B.get? id = some (.decl d) ∧ a.decl? d = some (.function f ps r body) ∧
      T d = .function params result

/-- Names of variables and elements of arrays denote places. -/
def IsPlace (id : NodeId) : Prop :=
  (∃ x, a.expr? id = some (.name x)) ∨ ∃ l r, a.expr? id = some (.binary .index l r)

/-- The typing rule of each construct. -/
def Rule (id : NodeId) : Arena.Kind → Prop
  | .type (.atom t) => T id = atomType t
  | .type (.array n element) => 0 < n ∧ T id = .array n (T element)
  | .type (.named _) => ∃ d, B.get? id = some (.decl d) ∧ T id = T d
  | .decl (.alias x t) => T id = .alias x (T t)
  | .decl (.param _ t) | .decl (.var _ t none) => T id = T t
  | .decl (.var _ t (some init)) => T id = T t ∧ (T id).isAtomic = true ∧ (T id).Same (T init)
  | .decl (.function _ params result body) =>
    T id = .function (params.map T) (T result) ∧ (T result).isAtomic = true ∧
      (T result).Same (T body)
  | .expr .hole => False
  | .expr (.literal l) => T id = literalType l
  | .expr (.name _) => ∃ d, B.get? id = some (.decl d) ∧ T id = T d
  | .expr (.unary op e) => (unaryType op).Same (T e) ∧ T id = unaryType op
  | .expr (.binary op l r) => OperatorRule op (T l) (T r) (T id)
  | .expr (.call _ args) =>
    ∃ params, Callee a B T id params (T id) ∧ List.Forall₂ (fun p e => p.Same (T e)) params args
  | .expr (.block items) => T id = (items.map T).getLastD .void
  | .expr (.ifThen c _ none) => Ty.logical.Same (T c) ∧ T id = .void
  | .expr (.ifThen c t (some e)) => Ty.logical.Same (T c) ∧
    ((T t).Same (T e) ∧ T id = T t ∨ ¬ (T t).Same (T e) ∧ T id = .void)
  | .expr (.whileDo c _) => Ty.logical.Same (T c) ∧ T id = .void
  | .expr (.forDo counter low high step _) => (∃ x, a.expr? counter = some (.name x)) ∧
    (∀ e ∈ [counter, low, high, step], Ty.integer.Same (T e)) ∧ T id = .void
  | .expr (.scoped _ body) => T id = T body
  | .expr (.assign target value) => IsPlace a target ∧ (T target).isAtomic = true ∧
    (T target).Same (T value) ∧ T id = T target

/-- Every node of the program has a sound type by the rules. -/
structure WellTyped : Prop where
  sound : ∀ {id}, a.Reached id → (T id).isError = false
  rules : ∀ {id node}, a.Reached id → a.node? id = some node → Rule a B T id node.kind

/-- The type of the first alias refers to the second one. -/
def Mentions (d d' : NodeId) : Prop :=
  ∃ x t ref y, a.decl? d = some (.alias x t) ∧ ReflTransGen a.Child t ref ∧
    a.type? ref = some (.named y) ∧ B.get? ref = some (.decl d')

/-- No alias of the program stands for itself. -/
def Acyclic : Prop := ∀ d, a.Reached d → ¬ TransGen (Mentions a B) d d

end

variable {a : Arena} {B : NodeTable Binding} {T : NodeId → Ty} {τ : Ty} {l r : Syntax.Site}
  {id : NodeId}
  {e : Arena.Expr}

/-! ## The types of declarations -/

section

variable {decl : Arena.Decl}

variable (tree : a.IsTreeShaped) (bound : Bound a B) (assigns : Assigns a B T) {d : NodeId}

include tree bound assigns

theorem type_isData {t : NodeId} {type : Arena.TypeExpr} (reached : a.Reached t)
    (htype : a.type? t = some type) : (T t).isData = true := by
  -- Behind a reference stands a part of the type, so the induction is on the type.
  induction size : sizeOf (T t) using Nat.strongRecOn generalizing t type with
  | ind k ih =>
    obtain ⟨position, hnode⟩ := Arena.node?_of_type? htype
    have rule : Declares B T t (T t) (.type type) := assigns t _ reached hnode
    have written {d : NodeId} {node : Arena.Node} (hd : a.Reached d) (hnode : a.node? d = some node)
        {u : NodeId} (hu : (.type, u) ∈ node.kind.children) (smaller : sizeOf (T u) < k) :
        (T u).isData = true := by
      obtain ⟨type', htype'⟩ := tree.type hnode hu
      exact ih _ smaller (hd.child ⟨_, hnode, List.mem_map_of_mem hu⟩) htype' rfl
    cases type with
    | atom t' =>
      rw [show T t = atomType t' from rule]
      cases t' <;> rfl
    | array n element =>
      obtain ⟨pos, eq⟩ := rule
      have inner := written reached hnode (u := element) (by simp) (by
        rw [← size, eq, Ty.array.sizeOf_spec]
        omega)
      rw [eq, Ty.isData, inner]
      simpa using pos
    | named x =>
      obtain ⟨d, hb, eq⟩ := rule
      obtain ⟨d', y, u, hb', hd, reached'⟩ := bound.type reached htype
      rw [hb] at hb'
      cases hb'
      obtain ⟨position', hnode'⟩ := Arena.node?_of_decl? hd
      have alias' : T d = .alias y (T u) := (assigns d _ reached' hnode').1
      have inner := written reached' hnode' (u := u) (by simp) (by
        rw [← size, eq, alias', Ty.alias.sizeOf_spec]
        omega)
      rw [eq, alias', Ty.isData, inner]

theorem written_isData {u : NodeId} {node : Arena.Node} (reached : a.Reached d)
    (hnode : a.node? d = some node) (hu : (.type, u) ∈ node.kind.children) :
    (T u).isData = true := by
  obtain ⟨type, htype⟩ := tree.type hnode hu
  exact type_isData tree bound assigns (reached.child ⟨_, hnode, List.mem_map_of_mem hu⟩) htype

theorem value_isData (hd : a.decl? d = some decl) (reached : a.Reached d)
    (value : nameKind decl = .var) : (T d).isData = true := by
  obtain ⟨position, hnode⟩ := Arena.node?_of_decl? hd
  have rule := (assigns d _ reached hnode).1
  cases decl with
  | «alias» | function => cases value
  | param x t =>
    rw [show T d = T t from rule]
    exact written_isData tree bound assigns reached hnode (by simp)
  | var x t init =>
    rw [show T d = T t from rule]
    exact written_isData tree bound assigns reached hnode (by simp)

omit tree bound in
theorem function_type {f : String} {ps : List NodeId} {r body : NodeId}
    (hd : a.decl? d = some (.function f ps r body)) (reached : a.Reached d) :
    T d = .function (ps.map T) (T r) := by
  obtain ⟨position, hnode⟩ := Arena.node?_of_decl? hd
  exact (assigns d _ reached hnode).1

theorem decl_isError (hd : a.decl? d = some decl) (reached : a.Reached d) :
    (T d).isError = false := by
  cases decl with
  | «alias» x t =>
    obtain ⟨position, hnode⟩ := Arena.node?_of_decl? hd
    rw [show T d = .alias x (T t) from (assigns d _ reached hnode).1]
    exact Ty.isError_of_isData (written_isData tree bound assigns reached hnode (by simp))
  | function =>
    rw [function_type assigns hd reached]
    rfl
  | param => exact Ty.isError_of_isData (value_isData tree bound assigns hd reached rfl)
  | var => exact Ty.isError_of_isData (value_isData tree bound assigns hd reached rfl)

end

/-! ## The types of expressions -/

/-- The parts of an expression whose errors are its own. -/
def handing : Arena.Expr → List NodeId
  | .unary _ e => [e]
  | .binary _ l r => [l, r]
  | .call _ args => args
  | .block items => items.getLast?.toList
  | .scoped _ body => [body]
  | .assign target value => [target, value]
  | .hole | .literal _ | .name _ | .ifThen _ _ _ | .whileDo _ _ | .forDo _ _ _ _ _ => []

/-- A type of an expression, or an error where errors are allowed. -/
def Proper (allowed : Prop) (τ : Ty) : Prop := τ.IsResult ∨ allowed ∧ τ.isError = true

theorem Proper.allowed {allowed : Prop} (h : Proper allowed τ) (bad : τ.isError = true) :
    allowed := by
  rcases h with result | error
  · rw [result.isError] at bad
    cases bad
  · exact error.1

theorem Proper.error {allowed : Prop} (h : allowed) : Proper allowed .error := .inr ⟨h, rfl⟩

theorem Proper.mono {allowed allowed' : Prop} (h : Proper allowed τ) (imp : allowed → allowed') :
    Proper allowed' τ := Or.imp_right (And.imp_left imp) h

theorem Proper.of_error {allowed : Prop} (h : Proper allowed τ) (bad : τ.isError = true) :
    Proper allowed .error := .error (h.allowed bad)

theorem binary_proper {allowed : Prop} {left right : Ty}
    (h : outcome (binaryType op left right l r) = some τ) (hl : Proper allowed left)
    (hr : Proper allowed right) : Proper allowed τ := by
  have same {operand : Ty} (data : operand.isData = true)
      (h : outcome (sameType operand left right l r) = some τ) : Proper allowed τ := by
    rw [outcome_sameType, Ty.isError_of_isData data] at h
    split at h
    · split at h
      · next bad =>
        cases h
        simp only [Bool.false_or, Bool.or_eq_true] at bad
        exact bad.elim hl.of_error hr.of_error
      · cases h
        exact .inl (.inl data)
    · cases h
  unfold binaryType at h
  split at h
  · rw [outcome_indexType] at h
    split at h
    · next bad =>
      cases h
      exact hl.of_error bad
    · next sound =>
      obtain ⟨⟨n, element⟩, parts, h⟩ := Option.bind_eq_some_iff.1 h
      split at h
      · split at h
        · next bad =>
          cases h
          exact hr.of_error bad
        · cases h
          rcases hl with (data | rfl) | ⟨-, bad⟩
          · exact .inl (.inl (Ty.arrayParts?_eq_some parts data).2.1)
          · cases parts
          · exact absurd bad sound
      · cases h
  · split at h
    · exact same rfl h
    · split at h
      · exact same rfl h
      · rw [outcome_comparisonType] at h
        split at h
        · next bad =>
          cases h
          exact (Bool.or_eq_true_iff.1 bad).elim hl.of_error hr.of_error
        · split at h
          · cases h
            exact .inl (.inl rfl)
          · cases h

theorem apply_proper {allowed : Prop} {params args : List Ty} {result : Ty}
    {sites : List Syntax.Site} (places : args.length = sites.length)
    (h : outcome (applyType site name (.function params result) args sites) = some τ)
    (data : result.isData = true) (hparams : ∀ p ∈ params, p.isError = false)
    (hargs : ∀ arg ∈ args, Proper allowed arg) : Proper allowed τ := by
  rw [outcome_applyType _ _ _ _ _ _ places] at h
  split at h
  · cases h
    split
    · exact .inl (.inl data)
    · next bad =>
      simp only [List.all_eq_true, Bool.and_eq_true, Bool.not_eq_true', not_forall] at bad
      obtain ⟨⟨p, arg⟩, mem, bad⟩ := bad
      obtain ⟨hp, harg⟩ := List.of_mem_zip mem
      have sound := hparams p hp
      exact (hargs arg harg).of_error (by simpa [sound] using bad)
  · cases h

theorem Assigns.infers (assigns : Assigns a B T) (reached : a.Reached id)
    (he : a.expr? id = some e) :
    outcome (infer a B T id e) = some (T id) := by
  obtain ⟨position, hnode⟩ := Arena.node?_of_expr? he
  exact assigns id _ reached hnode

section

variable (tree : a.IsTreeShaped) (bound : Bound a B) (assigns : Assigns a B T) {id : NodeId}

include tree bound assigns

/-- The result and the parameters of a callee have types of values, whatever the arguments are. -/
theorem call_applies {f : String} {args : List NodeId} (reached : a.Reached id)
    (he : a.expr? id = some (.call f args)) : ∃ params result, result.isData = true ∧
      (∀ p ∈ params, p.isData = true) ∧
      ∀ T', (∀ d, a.expr? d = none → T' d = T d) → infer a B T' id (.call f args) =
        applyType (a.site id) f (.function params result) (args.map T') (args.map a.site) := by
  have passes := assigns.infers reached he
  simp only [infer] at passes ⊢
  rcases bound.callee reached he with ⟨b, hb⟩ | ⟨d, decl, hb, hd, -, hr⟩
  · simp only [hb, Builtin.signature]
    refine ⟨b.params, b.result, ?_, ?_, fun _ _ => rfl⟩
    · cases b <;> rfl
    · cases b <;> simp [Builtin.params, Ty.isData]
  · simp only [hb, hd] at passes ⊢
    cases decl with
    | function g ps r body =>
      obtain ⟨position', hnode'⟩ := Arena.node?_of_decl? hd
      refine ⟨ps.map T, T r, ?_, fun p hp => ?_, fun T' same => ?_⟩
      · exact written_isData tree bound assigns hr hnode' (by simp)
      · obtain ⟨q, hq, rfl⟩ := List.mem_map.1 hp
        have child : (.param, q) ∈ (Arena.Kind.decl (.function g ps r body)).children := by
          simp [hq]
        obtain ⟨n, sited⟩ := Sited.of_reached tree hr hnode' child
        obtain ⟨x, t, hx⟩ := param_of_sited sited
        exact value_isData tree bound assigns hx sited.deep.reached rfl
      · rw [same d (by simp [Arena.expr?, hnode']), function_type assigns hd hr]
    | «alias» | param | var =>
      rw [outcome_bind fun _ => .pure _, outcome_report] at passes
      cases passes

/-- The type of an expression whose parts have proper types is proper. -/
theorem infer_proper {allowed : Prop} {position : Position} {e : Arena.Expr}
    (reached : a.Reached id) (hnode : a.node? id = some ⟨position, .expr e⟩)
    (holes : e = .hole → allowed)
    (parts : ∀ c, (.expr, c) ∈ (Arena.Kind.expr e).children →
      Proper (c ∈ handing e → allowed) (T c)) :
    Proper allowed (T id) := by
  have he : a.expr? id = some e := by simp [Arena.expr?, hnode]
  have part {c : NodeId} (hc : (.expr, c) ∈ (Arena.Kind.expr e).children) (mem : c ∈ handing e) :
      Proper allowed (T c) := (parts c hc).mono fun imp => imp mem
  have passes := assigns.infers reached he
  have condition {c : NodeId} {τ : Ty} (h : outcome (do
      let _ ← expect .logical (T c) (a.site c)
      return τ) = some (T id)) : τ = T id := by
    rw [outcome_condition] at h
    split at h
    · exact Option.some.inj h
    · cases h
  cases e with
  | hole =>
    rw [← show Ty.error = T id from Option.some.inj passes]
    exact .error (holes rfl)
  | literal l =>
    rw [← show literalType l = T id from Option.some.inj passes]
    cases l <;> exact .inl (.inl rfl)
  | name x =>
    obtain ⟨d, decl, hb, hd, value, hr⟩ := bound.value reached he
    obtain ⟨d', _, hb', -⟩ := boundVar?_of_name bound reached he
    have same : d' = d := by
      simp only [Context.boundVar?, context, hb, Option.bind_eq_bind, Option.bind_some,
        Binding.decl?] at hb'
      split at hb'
      · exact (Option.some.inj hb').symm
      · exact (Option.some.inj hb').symm
      · cases hb'
    simp only [infer, hb', outcome_pure, Option.some.injEq] at passes
    rw [← passes, same]
    exact .inl (.inl (value_isData tree bound assigns hd hr value))
  | unary op e =>
    rw [outcome_unary] at passes
    split at passes
    · rw [← Option.some.inj passes]
      split
      · next bad => exact (part (c := e) (by simp) (by simp [handing])).of_error bad
      · cases op <;> exact .inl (.inl rfl)
    · cases passes
  | binary op l r =>
    exact binary_proper passes (part (c := l) (by simp) (by simp [handing]))
      (part (c := r) (by simp) (by simp [handing]))
  | call f args =>
    have hargs : ∀ arg ∈ args.map T, Proper allowed arg := by
      intro arg harg
      obtain ⟨c, hc, rfl⟩ := List.mem_map.1 harg
      exact part (by simpa using hc) hc
    obtain ⟨params, result, data, hparams, eq⟩ := call_applies tree bound assigns reached he
    rw [eq T fun _ _ => rfl] at passes
    exact apply_proper (by simp) passes data (fun p hp => Ty.isError_of_isData (hparams p hp)) hargs
  | block items =>
    rw [← show (items.map T).getLastD .void = T id from Option.some.inj passes]
    cases last : items.getLast? with
    | none =>
      obtain rfl := List.getLast?_eq_none_iff.1 last
      exact .inl (.inr rfl)
    | some c =>
      rw [List.getLastD_eq_getLast?, List.getLast?_map, last]
      exact part (by simpa using List.mem_of_getLast? last) (by simp [handing, last])
  | ifThen c t e =>
    cases e with
    | none =>
      rw [← condition passes]
      exact .inl (.inr rfl)
    | some e =>
      rw [← condition passes, branchType]
      split
      · next sound =>
        rcases parts t (by simp) with result | bad
        · exact .inl result
        · simp [bad.2] at sound
      · exact .inl (.inr rfl)
  | whileDo c b =>
    rw [← condition passes]
    exact .inl (.inr rfl)
  | forDo c lo hi st b =>
    rw [outcome_loop] at passes
    split at passes
    · rw [← Option.some.inj passes]
      exact .inl (.inr rfl)
    · cases passes
  | «scoped» ds b =>
    rw [← show T b = T id from Option.some.inj passes]
    exact part (by simp) (by simp [handing])
  | assign t v =>
    have target := part (c := t) (by simp) (by simp [handing])
    simp only [infer] at passes
    rw [outcome_assignType] at passes
    split at passes
    · next bad =>
      rw [← Option.some.inj passes]
      exact target.of_error bad
    · split at passes
      · rw [← Option.some.inj passes]
        split
        · next bad => exact (part (c := v) (by simp) (by simp [handing])).of_error bad
        · exact target
      · cases passes

theorem expr_proper {allowed : Prop}
    (holes : ∀ id, a.Reached id → a.expr? id = some .hole → allowed) (reached : a.Reached id)
    {e : Arena.Expr} (he : a.expr? id = some e) : Proper allowed (T id) := by
  refine Arena.Reached.induction tree.single (P := fun id => ∀ e, a.expr? id = some e →
    Proper allowed (T id)) (fun id reached ih e he => ?_) reached e he
  obtain ⟨position, hnode⟩ := Arena.node?_of_expr? he
  refine infer_proper tree bound assigns reached hnode (fun h => holes id reached (h ▸ he))
    fun c hc => ?_
  obtain ⟨e', he'⟩ := tree.expr hnode hc
  exact (ih c ⟨_, hnode, List.mem_map_of_mem hc⟩ e' he').mono fun allowed _ => allowed

end

/-! ## Checks of sound types -/

theorem fits_iff {expected found : Ty} (he : expected.isError = false)
    (hf : found.isError = false) :
    fits expected found = true ↔ expected.Same found := by
  rw [fits, he, hf, Bool.or_self, Bool.false_or, Ty.isCompatible_iff]

theorem condition_iff {c : NodeId} {τ' : Ty} (sound : (T c).isError = false) :
    outcome (do
      let _ ← expect .logical (T c) (a.site c)
      return τ) = some τ' ↔ Ty.logical.Same (T c) ∧ τ' = τ := by
  rw [outcome_condition, ← fits_iff rfl sound]
  cases fits .logical (T c) <;> simp [eq_comm]

theorem sameType_iff {operand left right : Ty} (ho : operand.isError = false)
    (hl : left.isError = false) (hr : right.isError = false) :
    outcome (sameType operand left right l r) = some τ ↔
      operand.Same left ∧ operand.Same right ∧ τ = operand := by
  rw [outcome_sameType, ho, hl, hr, ← fits_iff ho hl, ← fits_iff ho hr]
  cases fits operand left <;> cases fits operand right <;> simp [eq_comm]

theorem binaryType_iff {left right : Ty} (hl : left.isError = false) (hr : right.isError = false) :
    outcome (binaryType op left right l r) = some τ ↔ OperatorRule op left right τ := by
  unfold binaryType OperatorRule
  split
  · rw [outcome_indexType, hl, ← fits_iff rfl hr]
    simp only [Bool.false_eq_true, ↓reduceIte, hr]
    cases left.arrayParts? with
    | none => simp
    | some parts =>
      obtain ⟨n, element⟩ := parts
      cases fits .integer right <;> simp
  · split
    · exact sameType_iff rfl hl hr
    · split
      · exact sameType_iff rfl hl hr
      · rw [outcome_comparisonType, hl, hr, ← Ty.isCompatible_iff]
        cases left.isAtomic <;> cases left.isCompatible right <;> simp [eq_comm]

theorem applyType_iff {params : List Ty} {result : Ty} {args : List NodeId}
    (hparams : ∀ p ∈ params, p.isError = false) (hargs : ∀ e ∈ args, (T e).isError = false) :
    outcome (applyType site name (.function params result) (args.map T) (args.map a.site)) =
      some τ ↔
      List.Forall₂ (fun p e => p.Same (T e)) params args ∧ τ = result := by
  have sound : ((params.zip (args.map T)).all fun p => !p.1.isError && !p.2.isError) = true := by
    simp only [List.all_eq_true, Bool.and_eq_true, Bool.not_eq_true']
    intro p hp
    obtain ⟨param, arg⟩ := List.of_mem_zip hp
    obtain ⟨e, he, eq⟩ := List.mem_map.1 arg
    exact ⟨hparams _ param, eq ▸ hargs e he⟩
  have agree : (params.length = (args.map T).length ∧
      ((params.zip (args.map T)).all fun p => fits p.1 p.2) = true) ↔
      List.Forall₂ (fun p e => p.Same (T e)) params args := by
    rw [← List.forall₂_map_right_iff (f := T) (R := fun p t => Ty.Same p t), List.forall₂_iff_zip]
    refine and_congr_right fun _ => ?_
    simp only [List.all_eq_true]
    refine ⟨fun all p t mem => ?_, fun all p mem => ?_⟩
    · obtain ⟨param, arg⟩ := List.of_mem_zip mem
      obtain ⟨e, he, rfl⟩ := List.mem_map.1 arg
      exact (fits_iff (hparams p param) (hargs e he)).1 (all _ mem)
    · obtain ⟨param, arg⟩ := List.of_mem_zip mem
      obtain ⟨e, he, eq⟩ := List.mem_map.1 arg
      exact (fits_iff (hparams _ param) (eq ▸ hargs e he)).2 (all mem)
  rw [outcome_applyType _ _ _ _ _ _ (by simp), sound, ← agree]
  by_cases h : params.length = (args.map T).length ∧
      ((params.zip (args.map T)).all fun p => fits p.1 p.2) = true
  · rw [if_pos h]
    simp only [h, and_self, true_and, ↓reduceIte, Option.some.injEq, eq_comm]
  · rw [if_neg h]
    simp only [h, false_and, reduceCtorEq]

/-- What is known of an assignment of sound types before the rules are looked at. -/
structure Solid (a : Arena) (B : NodeTable Binding) (T : NodeId → Ty) : Prop where
  sound : ∀ {id}, a.Reached id → (T id).isError = false
  function : ∀ {d f ps r body}, a.Reached d → a.decl? d = some (.function f ps r body) →
    T d = .function (ps.map T) (T r)
  call : ∀ {id f args d}, a.Reached id → a.expr? id = some (.call f args) →
    B.get? id = some (.decl d) →
    ∃ f ps r body, a.decl? d = some (.function f ps r body)

theorem boundVar?_isSome (bound : Bound a B) (solid : Solid a B T) (reached : a.Reached id)
    (he : a.expr? id = some e) : ((context a B).boundVar? id).isSome = true ↔ ∃ x, e = .name x := by
  constructor
  · intro some
    obtain ⟨d, hb⟩ := Option.isSome_iff_exists.1 some
    simp only [Context.boundVar?, context, Option.bind_eq_bind, Option.bind_eq_some_iff] at hb
    obtain ⟨b, hb, d', hd', signature⟩ := hb
    obtain ⟨position, hnode⟩ := Arena.node?_of_expr? he
    obtain ⟨node, r, hnode', href⟩ := bound.only reached hb
    rw [hnode] at hnode'
    cases hnode'
    cases e with
    | name x => exact ⟨x, rfl⟩
    | call f args =>
      cases b with
      | builtin b => cases hd'
      | decl d =>
        cases hd'
        obtain ⟨f, ps, r, body, hd⟩ := solid.call reached he hb
        simp [Arena.get?_signatures, Arena.signature?, hd] at signature
    | ifThen c t e => cases e <;> cases href
    | _ => cases href
  · rintro ⟨x, rfl⟩
    obtain ⟨d, _, hb, -⟩ := boundVar?_of_name bound reached he
    simp [hb]

theorem isLocation_iff (bound : Bound a B) (solid : Solid a B T) (reached : a.Reached id)
    (he : a.expr? id = some e) :
    isLocation (context a B) (a.exprTree 1 id) = true ↔ IsPlace a id := by
  have variable' := boundVar?_isSome bound solid reached he
  rw [Arena.exprTree, he, IsPlace, he]
  cases e with
  | name x => simpa [isLocation, Arena.site] using variable'
  | binary op l r => cases op <;> simp [isLocation]
  | ifThen c t e => cases e <;> simp [isLocation]
  | _ => simp [isLocation]

/-- Of sound types a node's checks ask what its rule says. -/
theorem passes_iff (tree : a.IsTreeShaped) (bound : Bound a B) (solid : Solid a B T)
    {position : Position} {kind : Arena.Kind} (reached : a.Reached id)
    (hnode : a.node? id = some ⟨position, kind⟩) (notHole : kind ≠ .expr .hole) :
    Passes a B T id (T id) kind ↔ Rule a B T id kind := by
  have part {c : NodeId} (hc : c ∈ kind.children.map Prod.snd) : a.Reached c :=
    reached.child ⟨_, hnode, hc⟩
  have sound {c : NodeId} (hc : c ∈ kind.children.map Prod.snd) : (T c).isError = false :=
    solid.sound (part hc)
  have expr {c : NodeId} (hc : (.expr, c) ∈ kind.children) : ∃ e, a.expr? c = some e :=
    tree.expr hnode hc
  rcases kind with d | e | t
  · cases d with
    | «alias» | param => exact and_iff_left rfl
    | var x t init =>
      cases init with
      | none => exact and_iff_left rfl
      | some init =>
        refine and_congr_right fun _ => ?_
        have hi := sound (c := init) (by simp)
        rw [outcome_initial, solid.sound reached, ← fits_iff (solid.sound reached) hi]
        simp
    | function f ps r b =>
      refine and_congr_right fun _ => ?_
      have hr := sound (c := r) (by simp)
      have hb := sound (c := b) (by simp)
      rw [outcome_result, hr, ← fits_iff hr hb]
      simp
  · have he : a.expr? id = some e := by simp [Arena.expr?, hnode]
    change outcome (infer a B T id e) = some (T id) ↔ Rule a B T id (.expr e)
    cases e with
    | hole => exact absurd rfl notHole
    | literal l => simp [infer, Rule, eq_comm]
    | name x =>
      obtain ⟨d, _, hb, -⟩ := bound.value reached he
      have hv : (context a B).boundVar? id = some d := by
        have some := (boundVar?_isSome bound solid reached he).2 ⟨x, rfl⟩
        simp only [Context.boundVar?, context, hb, Option.bind_eq_bind, Option.bind_some,
          Binding.decl?] at some ⊢
        split at some
        · rfl
        · rfl
        · cases some
      simp [infer, Rule, hv, hb, eq_comm]
    | unary op e =>
      have he := sound (c := e) (by simp)
      have hop : (unaryType op).isError = false := by cases op <;> rfl
      rw [outcome_unary, he, Rule, ← fits_iff hop he]
      cases fits (unaryType op) (T e) <;> simp [eq_comm]
    | binary op l r =>
      exact binaryType_iff (sound (by simp)) (sound (by simp))
    | call f args =>
      have hargs : ∀ e ∈ args, (T e).isError = false := fun e he =>
        sound (by simpa using he)
      simp only [infer, Rule]
      rcases bound.callee reached he with ⟨b, hb⟩ | ⟨d, decl, hb, hd, -, hr⟩
      · have hparams : ∀ p ∈ b.params, p.isError = false := by
          cases b <;> simp [Builtin.params, Ty.isError]
        simp only [hb, Builtin.signature]
        rw [applyType_iff hparams hargs]
        simp [Callee, hb, Builtin.signature, and_comm, eq_comm]
      · obtain ⟨g, ps, r, body, hd⟩ := solid.call reached he hb
        have own := solid.function hr hd
        have hparams : ∀ p ∈ ps.map T, p.isError = false := by
          intro p hp
          obtain ⟨q, hq, rfl⟩ := List.mem_map.1 hp
          obtain ⟨position', hnode'⟩ := Arena.node?_of_decl? hd
          exact solid.sound (hr.child ⟨_, hnode', by simp [hq]⟩)
        simp only [hb, hd, own]
        rw [applyType_iff hparams hargs]
        simp [Callee, hb, hd, own, and_comm, eq_comm]
    | block items => simp [infer, Rule, eq_comm]
    | ifThen c t e =>
      have hc := sound (c := c) (by simp)
      cases e with
      | none => exact condition_iff hc
      | some e =>
        have ht := sound (c := t) (by simp)
        refine (condition_iff hc).trans (and_congr_right fun _ => ?_)
        rw [branchType, ht, ← Ty.isCompatible_iff]
        cases (T t).isCompatible (T e) <;> simp
    | whileDo c b => exact condition_iff (sound (by simp))
    | forDo c lo hi st b =>
      have hc := sound (c := c) (by simp)
      obtain ⟨e, he⟩ := expr (c := c) (by simp)
      have counter := boundVar?_isSome bound solid (part (by simp)) he
      have integers : (∀ e ∈ [c, lo, hi, st], fits .integer (T e) = true) ↔
          ∀ e ∈ [c, lo, hi, st], Ty.integer.Same (T e) := by
        refine forall₂_congr fun e mem => fits_iff rfl (sound ?_)
        simp only [List.mem_cons, List.not_mem_nil, or_false] at mem
        rcases mem with rfl | rfl | rfl | rfl <;> simp
      rw [outcome_loop, hc, Bool.or_false]
      simp only [Rule, he, Option.some.injEq]
      rw [← counter, ← integers, ← and_assoc]
      by_cases h : ((context a B).boundVar? c).isSome = true ∧
          ∀ e ∈ [c, lo, hi, st], fits .integer (T e) = true
      · rw [if_pos h, Option.some.injEq, eq_comm]
        exact (and_iff_right h).symm
      · rw [if_neg h]
        exact iff_of_false (by simp) fun all => h all.1
    | «scoped» ds b => simp [infer, Rule, eq_comm]
    | assign t v =>
      have ht := sound (c := t) (by simp)
      have hv := sound (c := v) (by simp)
      obtain ⟨e, he⟩ := expr (c := t) (by simp)
      have place := isLocation_iff bound solid (part (c := t) (by simp)) he
      simp only [infer]
      rw [outcome_assignType, ht, hv, Rule, ← place, ← fits_iff ht hv]
      cases isLocation (context a B) (a.exprTree 1 t) <;> cases (T t).isAtomic <;>
        cases fits (T t) (T v) <;> simp [eq_comm]
  · cases t with
    | atom | array | named => exact Iff.rfl

/-! ## The decision -/

theorem Assigns.solid (tree : a.IsTreeShaped) (bound : Bound a B) (assigns : Assigns a B T)
    (whole : ∀ id, a.Reached id → a.expr? id ≠ some .hole) : Solid a B T where
  sound := by
    intro id reached
    obtain ⟨⟨position, kind⟩, hnode⟩ := tree.node reached
    cases kind with
    | decl d =>
      have hd : a.decl? id = some d := by simp [Arena.decl?, hnode]
      exact decl_isError tree bound assigns hd reached
    | type t =>
      have ht : a.type? id = some t := by simp [Arena.type?, hnode]
      exact Ty.isError_of_isData (type_isData tree bound assigns reached ht)
    | expr e =>
      have he : a.expr? id = some e := by simp [Arena.expr?, hnode]
      rcases expr_proper tree bound assigns whole reached he with result | bad
      · exact result.isError
      · exact bad.1.elim
  function reached hd := function_type assigns hd reached
  call := by
    intro id f args d reached he hb
    obtain ⟨position, hnode⟩ := Arena.node?_of_expr? he
    have passes : outcome (infer a B T id (.call f args)) = some (T id) :=
      assigns id _ reached hnode
    simp only [infer, hb] at passes
    split at passes
    · next f ps r body hd => exact ⟨f, ps, r, body, hd⟩
    · rw [outcome_bind fun _ => .pure _, outcome_report] at passes
      cases passes

theorem WellTyped.solid (h : WellTyped a B T) : Solid a B T where
  sound := h.sound
  function reached hd := by
    obtain ⟨position, hnode⟩ := Arena.node?_of_decl? hd
    exact (h.rules reached hnode).1
  call := by
    intro id f args d reached he hb
    obtain ⟨position, hnode⟩ := Arena.node?_of_expr? he
    obtain ⟨params, callee, -⟩ : Rule a B T id (.expr (.call f args)) := h.rules reached hnode
    rcases callee with ⟨b, hb', -⟩ | ⟨d', f, ps, r, body, hb', hd, -⟩
    · rw [hb] at hb'
      cases hb'
    · rw [hb] at hb'
      cases hb'
      exact ⟨f, ps, r, body, hd⟩

theorem not_hole (whole : ∀ id, a.Reached id → a.expr? id ≠ some .hole) {node : Arena.Node}
    (reached : a.Reached id) (hnode : a.node? id = some node) : node.kind ≠ .expr .hole := by
  intro hole
  refine whole id reached ?_
  obtain ⟨position, kind⟩ := node
  simp only at hole
  simp [Arena.expr?, hnode, hole]

theorem Assigns.wellTyped (tree : a.IsTreeShaped) (bound : Bound a B) (assigns : Assigns a B T)
    (whole : ∀ id, a.Reached id → a.expr? id ≠ some .hole) : WellTyped a B T := by
  have solid := assigns.solid tree bound whole
  refine ⟨solid.sound, fun {id node} reached hnode => ?_⟩
  exact (passes_iff tree bound solid reached hnode (not_hole whole reached hnode)).1
    (assigns id node reached hnode)

/-- A reference within a type stands for a part of it. -/
theorem sizeOf_below (assigns : Assigns a B T) (tree : a.IsTreeShaped) {t ref : NodeId}
    {type : Arena.TypeExpr} (reached : a.Reached t) (htype : a.type? t = some type)
    (path : ReflTransGen a.Child t ref) : sizeOf (T ref) ≤ sizeOf (T t) := by
  induction path using ReflTransGen.head_induction_on generalizing type with
  | refl => exact Nat.le_refl _
  | @head t c child _ ih =>
    have child' := child
    obtain ⟨node, hnode, hc⟩ := child
    obtain ⟨position, hnode'⟩ := Arena.node?_of_type? htype
    rw [hnode] at hnode'
    cases hnode'
    cases type with
    | atom | named => simp at hc
    | array n element =>
      obtain rfl : c = element := by simpa using hc
      obtain ⟨-, eq⟩ : Declares B T t (T t) (.type (.array n c)) := assigns t _ reached hnode
      obtain ⟨type', htype'⟩ := tree.type (c := c) hnode (by simp)
      have inner := ih (reached.child child') htype'
      rw [eq, Ty.array.sizeOf_spec]
      omega

theorem mentions_smaller (tree : a.IsTreeShaped) (bound : Bound a B) (assigns : Assigns a B T)
    {d d' : NodeId} (reached : a.Reached d) (h : Mentions a B d d') :
    a.Reached d' ∧ sizeOf (T d') < sizeOf (T d) := by
  obtain ⟨x, t, ref, y, hd, path, href, hb⟩ := h
  obtain ⟨position, hnode⟩ := Arena.node?_of_decl? hd
  have own : T d = .alias x (T t) := (assigns d _ reached hnode).1
  have child : (.type, t) ∈ (Arena.Kind.decl (.alias x t)).children := by simp
  have reached' : a.Reached t := reached.child ⟨_, hnode, List.mem_map_of_mem child⟩
  obtain ⟨type, htype⟩ := tree.type hnode child
  have inner := sizeOf_below assigns tree reached' htype path
  obtain ⟨position'', hnode''⟩ := Arena.node?_of_type? href
  obtain ⟨e, hb', eq⟩ : Declares B T ref (T ref) (.type (.named y)) :=
    assigns ref _ (reached'.of_below path) hnode''
  obtain ⟨e', _, _, hb'', -, reached''⟩ := bound.type (reached'.of_below path) href
  rw [hb] at hb' hb''
  cases hb'
  cases hb''
  refine ⟨reached'', ?_⟩
  rw [own, Ty.alias.sizeOf_spec, ← eq]
  omega

/-- Types are finite, so aliases do not stand for themselves. -/
theorem Assigns.acyclic (tree : a.IsTreeShaped) (bound : Bound a B) (assigns : Assigns a B T) :
    Acyclic a B := by
  intro d reached cycle
  have smaller {d' : NodeId} (path : TransGen (Mentions a B) d d') :
      a.Reached d' ∧ sizeOf (T d') < sizeOf (T d) := by
    induction path with
    | single h => exact mentions_smaller tree bound assigns reached h
    | tail _ h ih =>
      obtain ⟨reached', less⟩ := mentions_smaller tree bound assigns ih.1 h
      exact ⟨reached', less.trans ih.2⟩
  exact Nat.lt_irrefl _ (smaller cycle).2

/-- For a program without name errors and without placeholders, the checker reports nothing exactly
if no alias stands for itself and all nodes can be given sound types by the rules. -/
theorem checker_decides_rules (tree : a.IsTreeShaped) (names : a.source.resolve.errors = [])
    (whole : ∀ id, a.Reached id → a.expr? id ≠ some .hole) :
    (a.source.check a.source.resolve.bindings).errors = #[] ↔
      Acyclic a a.source.resolve.bindings ∧ ∃ T, WellTyped a a.source.resolve.bindings T := by
  have bound := bound_of_clean tree names
  rw [check_clean_iff tree bound]
  constructor
  · rintro ⟨T, assigns⟩
    exact ⟨assigns.acyclic tree bound, T, assigns.wellTyped tree bound whole⟩
  · rintro ⟨-, T, typed⟩
    refine ⟨T, fun id node reached hnode => ?_⟩
    exact (passes_iff tree bound typed.solid reached hnode (not_hole whole reached hnode)).2
      (typed.rules reached hnode)

/-- `typ pair : arr[2] integer; var p : pair; fun main() : integer = p[1] = value` -/
def storeInPair (value : Syntax.Literal) : Arena where
  nodes := #[
    ⟨.point 1 19, .type (.atom .integer)⟩,
    ⟨.point 1 12, .type (.array 2 0)⟩,
    ⟨.point 1 1, .decl (.alias "pair" 1)⟩,
    ⟨.point 2 9, .type (.named "pair")⟩,
    ⟨.point 2 1, .decl (.var "p" 3 none)⟩,
    ⟨.point 3 24, .expr (.name "p")⟩,
    ⟨.point 3 26, .expr (.literal (.integer 1))⟩,
    ⟨.point 3 24, .expr (.binary .index 5 6)⟩,
    ⟨.point 3 31, .expr (.literal value)⟩,
    ⟨.point 3 24, .expr (.assign 7 8)⟩,
    ⟨.point 3 14, .type (.atom .integer)⟩,
    ⟨.point 3 1, .decl (.function "main" [] 10 9)⟩]
  definitions := [2, 4, 11]

theorem checker_decides_rules_storeInPair :
    (Acyclic (storeInPair (.integer 5)) (storeInPair (.integer 5)).source.resolve.bindings ∧
      ∃ T, WellTyped (storeInPair (.integer 5))
        (storeInPair (.integer 5)).source.resolve.bindings T) ∧
    ¬ (Acyclic (storeInPair (.string "5")) (storeInPair (.string "5")).source.resolve.bindings ∧
      ∃ T, WellTyped (storeInPair (.string "5")) (storeInPair (.string "5")).source.resolve.bindings
        T) := by
  have whole (value : Syntax.Literal) (id : NodeId) (_ : (storeInPair value).Reached id) :
      (storeInPair value).expr? id ≠ some .hole := by
    intro hole
    obtain ⟨position, hnode⟩ := Arena.node?_of_expr? hole
    have mem := Array.mem_of_getElem? hnode
    simp [storeInPair] at mem
  constructor
  · rw [← checker_decides_rules (by decide +kernel) (by decide +kernel) (whole _)]
    decide +kernel
  · rw [← checker_decides_rules (by decide +kernel) (by decide +kernel) (whole _)]
    decide +kernel

end PinsBackend.Assignment
