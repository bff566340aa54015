import PinsBackend.Proofs.Typing.Decision

/-! Where errors of types go.

The type of an expression is an error exactly if a placeholder hands its error on to it, part by
part. Errors are compared with nothing. A conditional with an alternative does not hand errors on:
with a branch that is an error it has no value, and `void` is compared like other types. -/
namespace PinsBackend.Assignment

open Typing Lexical

variable {e : Arena.Expr} {c : NodeId}

/-- A placeholder, or an expression that hands on the error of a part. -/
inductive Poisoned (a : Arena) : NodeId → Prop
  | hole {id : NodeId} (h : a.expr? id = some .hole) : Poisoned a id
  | part {id c : NodeId} {e : Arena.Expr} (h : a.expr? id = some e) (mem : c ∈ handing e)
      (poisoned : Poisoned a c) : Poisoned a id

/-- The parts one of which gives an expression its value. -/
def results : Arena.Expr → List NodeId
  | .block items => items.getLast?.toList
  | .ifThen _ t (some e) => [t, e]
  | .scoped _ body => [body]
  | _ => []

/-- An expression without a value, for an error in a branch of a conditional. -/
inductive Exposed (a : Arena) : NodeId → Prop
  | branch {id c t e b : NodeId} (h : a.expr? id = some (.ifThen c t (some e))) (mem : b ∈ [t, e])
      (poisoned : Poisoned a b) : Exposed a id
  | passed {id c : NodeId} {e : Arena.Expr} (h : a.expr? id = some e) (mem : c ∈ results e)
      (exposed : Exposed a c) : Exposed a id

/-- The type of the part is compared with another type. Operands whose other operand is an error are
not always compared, and values not with an error as the target. -/
def Compares (a : Arena) : Arena.Kind → NodeId → Prop
  | .expr (.unary _ e), c => c = e
  | .expr (.binary op l r), c => c = l ∧ (op.isComparison = true → ¬ Poisoned a r) ∨
      c = r ∧ (op.isComparison = true ∨ op = .index → ¬ Poisoned a l)
  | .expr (.call _ args), c => c ∈ args
  | .expr (.ifThen condition _ _), c | .expr (.whileDo condition _), c => c = condition
  | .expr (.forDo counter low high step _), c => c ∈ [counter, low, high, step]
  | .expr (.assign target value), c => c = target ∨ c = value ∧ ¬ Poisoned a target
  | .decl (.var _ _ (some init)), c => c = init
  | .decl (.function _ _ _ body), c => c = body
  | _, _ => False

/-- No type is compared that is missing for an error in a branch. -/
def Shielded (a : Arena) : Prop :=
  ∀ id node c, a.Reached id → a.node? id = some node → Compares a node.kind c → ¬ Exposed a c

/-! ## Errors among types -/

section

variable {op : Syntax.BinaryOp} {τ : Ty}

variable {left right : Ty} {l r : Syntax.Site}

theorem fits_error (expected : Ty) : fits expected .error = true := by simp [fits, Ty.isError]

theorem fits_void {expected : Ty} (data : expected.isData = true) :
    fits expected .void = false := by
  cases h : fits expected .void with
  | false => rfl
  | true =>
    have same := (fits_iff (Ty.isError_of_isData data) rfl).1 h
    rw [same.isData] at data
    cases data

theorem binary_error (h : outcome (binaryType op left right l r) = some τ)
    (bad : left = .error ∨ right = .error) : τ = .error := by
  have either : (left.isError || right.isError) = true := by
    rcases bad with rfl | rfl
    · rfl
    · simp [Ty.isError]
  have same {operand : Ty} (h : outcome (sameType operand left right l r) = some τ) : τ =
      .error := by
    rw [outcome_sameType] at h
    split at h
    · rw [if_pos (by rw [Bool.or_assoc, either, Bool.or_true])] at h
      exact (Option.some.inj h).symm
    · cases h
  unfold binaryType at h
  split at h
  · rw [outcome_indexType] at h
    split at h
    · exact (Option.some.inj h).symm
    · next sound =>
      obtain ⟨parts, -, h⟩ := Option.bind_eq_some_iff.1 h
      rw [Bool.or_eq_true_iff] at either
      have bad : right.isError = true := either.resolve_left sound
      rw [if_pos bad] at h
      split at h
      · exact (Option.some.inj h).symm
      · cases h
  · split at h
    · exact same h
    · split at h
      · exact same h
      · rw [outcome_comparisonType, if_pos either] at h
        exact (Option.some.inj h).symm

/-- Operands that have no value are compared, unless the other operand is an error. -/
theorem binary_void (h : outcome (binaryType op left right l r) = some τ) :
    (left = .void → op.isComparison = true ∧ right.isError = true) ∧
    (right = .void → (op.isComparison = true ∨ op = .index) ∧ left.isError = true) := by
  have same {operand : Ty} (data : operand.isData = true)
      (h : outcome (sameType operand left right l r) = some τ) : left ≠ .void ∧ right ≠ .void := by
    rw [outcome_sameType] at h
    split at h
    · next fine =>
      obtain ⟨fitsLeft, fitsRight⟩ := Bool.and_eq_true_iff.1 fine
      constructor
      · rintro rfl
        rw [fits_void data] at fitsLeft
        cases fitsLeft
      · rintro rfl
        rw [fits_void data] at fitsRight
        cases fitsRight
    · cases h
  unfold binaryType at h
  split at h
  · next index =>
    rw [outcome_indexType] at h
    split at h
    · next bad =>
      refine ⟨fun void => ?_, fun _ => ⟨.inr index, bad⟩⟩
      rw [void] at bad
      cases bad
    · obtain ⟨parts, array, h⟩ := Option.bind_eq_some_iff.1 h
      constructor
      · rintro rfl
        cases array
      · rintro rfl
        rw [fits_void rfl] at h
        cases h
  · split at h
    · obtain ⟨hl, hr⟩ := same rfl h
      exact ⟨fun void => absurd void hl, fun void => absurd void hr⟩
    · split at h
      · obtain ⟨hl, hr⟩ := same rfl h
        exact ⟨fun void => absurd void hl, fun void => absurd void hr⟩
      · have comparison : op.isComparison = true := by
          cases op <;> simp_all [Syntax.BinaryOp.isComparison, Syntax.BinaryOp.isArithmetic,
            Syntax.BinaryOp.isLogical]
        rw [outcome_comparisonType] at h
        split at h
        · next bad =>
          rw [Bool.or_eq_true_iff] at bad
          constructor
          · rintro rfl
            exact ⟨comparison, bad.resolve_left (by simp [Ty.isError])⟩
          · rintro rfl
            exact ⟨.inl comparison, bad.resolve_right (by simp [Ty.isError])⟩
        · split at h
          · next fine =>
            obtain ⟨atomic, same⟩ := Bool.and_eq_true_iff.1 fine
            have data := Ty.isData_of_isAtomic atomic
            have data' := (Ty.isCompatible_iff.1 same).isData.symm.trans data
            constructor
            · rintro rfl
              cases data
            · rintro rfl
              cases data'
          · cases h

theorem apply_error {site : Syntax.Site} {name : String} {params args : List Ty} {result : Ty}
    {sites : List Syntax.Site} (places : args.length = sites.length)
    (h : outcome (applyType site name (.function params result) args sites) = some τ)
    (bad : .error ∈ args) : τ = .error := by
  rw [outcome_applyType _ _ _ _ _ _ places] at h
  split at h
  · next fine =>
    rw [if_neg] at h
    · exact (Option.some.inj h).symm
    · intro sound
      have seconds : (params.zip args).map Prod.snd = args := List.map_snd_zip fine.1.ge
      rw [← seconds] at bad
      obtain ⟨p, mem, eq⟩ := List.mem_map.1 bad
      have := List.all_eq_true.1 sound p mem
      simp [eq, Ty.isError] at this
  · cases h

/-- A conditional has no value if one of its branches has none. -/
theorem branchType_void {allowed : Prop} (proper : Proper allowed left)
    (h : (left = .error ∨ left = .void) ∨ right = .error ∨ right = .void) :
    branchType left right = .void := by
  unfold branchType
  split
  · next agree =>
    obtain ⟨sound, same⟩ := Bool.and_eq_true_iff.1 agree
    rcases proper with (data | void) | ⟨-, bad⟩
    · have data' := (Ty.isCompatible_iff.1 same).isData.symm.trans data
      rcases h with (rfl | rfl) | (rfl | rfl)
      · cases data
      · cases data
      · cases data'
      · cases data'
    · exact void
    · simp [bad] at sound
  · rfl

end

/-! ## Errors and missing values in programs with an assignment -/

theorem handing_children (mem : c ∈ handing e) : (.expr, c) ∈ (Arena.Kind.expr e).children := by
  cases e with
  | unary | binary | «scoped» | assign => simpa [handing] using mem
  | call => simpa [handing] using mem
  | block items =>
    have last : items.getLast? = some c := by simpa [handing] using mem
    simpa using List.mem_of_getLast? last
  | hole | literal | name | ifThen | whileDo | forDo => cases mem

theorem results_children (mem : c ∈ results e) : (.expr, c) ∈ (Arena.Kind.expr e).children := by
  cases e with
  | block items => exact handing_children mem
  | «scoped» ds b => exact handing_children mem
  | ifThen i t e =>
    cases e with
    | none => cases mem
    | some e =>
      have either : c = t ∨ c = e := by simpa [results] using mem
      simp only [Arena.Kind.children, Option.toList_some, List.map_cons, List.map_nil,
        List.mem_cons, Prod.mk.injEq, true_and, List.not_mem_nil, or_false]
      exact .inr either
  | hole | literal | name | unary | binary | call | whileDo | forDo | assign => cases mem

theorem compares_children {a : Arena} {kind : Arena.Kind} (h : Compares a kind c) :
    (.expr, c) ∈ kind.children := by
  cases kind with
  | type => exact h.elim
  | decl d =>
    cases d with
    | «alias» | param => exact h.elim
    | var x t init =>
      cases init with
      | none => exact h.elim
      | some init =>
        obtain rfl : c = init := h
        simp
    | function f ps r b =>
      obtain rfl : c = b := h
      simp
  | expr e =>
    cases e with
    | unary op e =>
      obtain rfl : c = e := h
      simp
    | binary op l r =>
      rcases h with ⟨rfl, -⟩ | ⟨rfl, -⟩ <;> simp
    | call f args =>
      have mem : c ∈ args := h
      simpa using mem
    | ifThen i | whileDo i =>
      obtain rfl : c = i := h
      simp
    | forDo i lo hi st b =>
      have mem : c ∈ [i, lo, hi, st] := h
      simp only [List.mem_cons, List.not_mem_nil, or_false] at mem
      rcases mem with rfl | rfl | rfl | rfl <;> simp
    | assign t v => rcases h with rfl | ⟨rfl, -⟩ <;> simp
    | hole | literal | name | block | «scoped» => exact h.elim

section

variable {c : NodeId}

variable {a : Arena} {B : NodeTable Binding} {T : NodeId → Ty} {id : NodeId} {e : Arena.Expr}

theorem reached_part (reached : a.Reached id) (he : a.expr? id = some e)
    (hc : (.expr, c) ∈ (Arena.Kind.expr e).children) : a.Reached c := by
  obtain ⟨position, hnode⟩ := Arena.node?_of_expr? he
  exact reached.child ⟨_, hnode, List.mem_map_of_mem hc⟩

variable (tree : a.IsTreeShaped) (bound : Bound a B) (assigns : Assigns a B T)

include tree bound assigns

/-- Poisoned expressions are errors. -/
theorem poisoned_error (h : Poisoned a id) (reached : a.Reached id) : T id = .error := by
  induction h with
  | hole he => exact (Option.some.inj (assigns.infers reached he)).symm
  | @part id c e he mem _ ih =>
    have passes := assigns.infers reached he
    have bad := ih (reached_part reached he (handing_children mem))
    cases e with
    | unary op c' =>
      obtain rfl : c = c' := by simpa [handing] using mem
      rw [outcome_unary, bad, fits_error, if_pos rfl] at passes
      exact (Option.some.inj passes).symm
    | binary op l r =>
      have either : c = l ∨ c = r := by simpa [handing] using mem
      refine binary_error passes ?_
      rcases either with rfl | rfl
      · exact .inl bad
      · exact .inr bad
    | call f args =>
      obtain ⟨params, result, -, -, eq⟩ := call_applies tree bound assigns reached he
      rw [eq T fun _ _ => rfl] at passes
      exact apply_error (by simp) passes (bad ▸ List.mem_map_of_mem mem)
    | block items =>
      have last : items.getLast? = some c := by simpa [handing] using mem
      have value : (items.map T).getLastD .void = T id := Option.some.inj passes
      rw [← value, List.getLastD_eq_getLast?, List.getLast?_map, last]
      exact bad
    | «scoped» ds b =>
      obtain rfl : c = b := by simpa [handing] using mem
      exact (Option.some.inj passes).symm.trans bad
    | assign t v =>
      simp only [infer] at passes
      rw [outcome_assignType] at passes
      split at passes
      · exact (Option.some.inj passes).symm
      · next sound =>
        have either : c = t ∨ c = v := by simpa [handing] using mem
        have value : T v = .error := by
          rcases either with rfl | rfl
          · rw [bad] at sound
            exact absurd rfl sound
          · exact bad
        rw [value] at passes
        split at passes
        · exact (Option.some.inj passes).symm
        · cases passes
    | hole | literal | name | ifThen | whileDo | forDo => cases mem

/-- Only poisoned expressions are errors. -/
theorem proper_poisoned (reached : a.Reached id) (he : a.expr? id = some e) :
    Proper (Poisoned a id) (T id) := by
  refine Arena.Reached.induction tree.single (P := fun id => ∀ e, a.expr? id = some e →
    Proper (Poisoned a id) (T id)) (fun id reached ih e he => ?_) reached e he
  obtain ⟨position, hnode⟩ := Arena.node?_of_expr? he
  refine infer_proper tree bound assigns reached hnode (fun hole => .hole (hole ▸ he))
    fun c hc => ?_
  obtain ⟨e', he'⟩ := tree.expr hnode hc
  exact (ih c ⟨_, hnode, List.mem_map_of_mem hc⟩ e' he').mono fun poisoned mem =>
    .part he mem poisoned

theorem exposed_void (h : Exposed a id) (reached : a.Reached id) : T id = .void := by
  have conditional {id c t e : NodeId} (reached : a.Reached id)
      (he : a.expr? id = some (.ifThen c t (some e)))
      (none : (T t = .error ∨ T t = .void) ∨ T e = .error ∨ T e = .void) : T id = .void := by
    have passes := assigns.infers reached he
    obtain ⟨position, hnode⟩ := Arena.node?_of_expr? he
    have child : (.expr, t) ∈ (Arena.Kind.expr (.ifThen c t (some e))).children := by
      simp
    obtain ⟨e', he'⟩ := tree.expr hnode child
    have proper := proper_poisoned tree bound assigns (reached_part reached he child) he'
    simp only [infer] at passes
    rw [outcome_condition, branchType_void proper none] at passes
    split at passes
    · exact (Option.some.inj passes).symm
    · cases passes
  induction h with
  | @branch id c t e b he mem poisoned =>
    have bad := poisoned_error tree bound assigns poisoned
      (reached_part reached he (results_children (by simpa [results] using mem)))
    refine conditional reached he ?_
    have either : b = t ∨ b = e := by simpa using mem
    rcases either with rfl | rfl
    · exact .inl (.inl bad)
    · exact .inr (.inl bad)
  | @passed id c e he mem _ ih =>
    have none := ih (reached_part reached he (results_children mem))
    have passes := assigns.infers reached he
    cases e with
    | block items =>
      have last : items.getLast? = some c := by simpa [results] using mem
      have value : (items.map T).getLastD .void = T id := Option.some.inj passes
      rw [← value, List.getLastD_eq_getLast?, List.getLast?_map, last]
      exact none
    | «scoped» ds b =>
      obtain rfl : c = b := by simpa [results] using mem
      exact (Option.some.inj passes).symm.trans none
    | ifThen i t e =>
      cases e with
      | none => cases mem
      | some e =>
        refine conditional reached he ?_
        have either : c = t ∨ c = e := by simpa [results] using mem
        rcases either with rfl | rfl
        · exact .inl (.inr none)
        · exact .inr (.inr none)
    | hole | literal | name | unary | binary | call | whileDo | forDo | assign => cases mem

theorem isError_of_not_poisoned (reached : a.Reached id) (he : a.expr? id = some e)
    (hc : (.expr, c) ∈ (Arena.Kind.expr e).children) (clean : ¬ Poisoned a c) :
    (T c).isError = false := by
  obtain ⟨position, hnode⟩ := Arena.node?_of_expr? he
  obtain ⟨e', he'⟩ := tree.expr hnode hc
  rw [Bool.eq_false_iff]
  exact fun bad =>
    clean ((proper_poisoned tree bound assigns (reached_part reached he hc) he').allowed bad)

/-- A part without a type is not compared. -/
theorem expr_compares (reached : a.Reached id) (he : a.expr? id = some e)
    (compares : Compares a (.expr e) c) : T c ≠ .void := by
  intro void
  have passes := assigns.infers reached he
  have sound {c : NodeId} := isError_of_not_poisoned tree bound assigns (c := c) reached he
  have condition {c : NodeId} {τ : Ty} (void : T c = .void) : outcome (do
      let _ ← expect .logical (T c) (a.site c)
      return τ) = none := by rw [outcome_condition, void, fits_void rfl, if_neg (by simp)]
  cases e with
  | unary op e =>
    obtain rfl : c = e := compares
    have data : (unaryType op).isData = true := by cases op <;> rfl
    rw [outcome_unary, void, fits_void data] at passes
    cases passes
  | binary op l r =>
    rcases compares with ⟨rfl, clean⟩ | ⟨rfl, clean⟩
    · obtain ⟨comparison, bad⟩ := (binary_void passes).1 void
      rw [sound (by simp) (clean comparison)] at bad
      cases bad
    · obtain ⟨op, bad⟩ := (binary_void passes).2 void
      rw [sound (by simp) (clean op)] at bad
      cases bad
  | call f args =>
    obtain ⟨params, result, -, hparams, eq⟩ := call_applies tree bound assigns reached he
    rw [eq T fun _ _ => rfl, outcome_applyType _ _ _ _ _ _ (by simp)] at passes
    split at passes
    · next fine =>
      have mem : T c ∈ args.map T := List.mem_map_of_mem compares
      have seconds : (params.zip (args.map T)).map Prod.snd = args.map T :=
        List.map_snd_zip fine.1.ge
      rw [← seconds] at mem
      obtain ⟨p, mem, eq⟩ := List.mem_map.1 mem
      have fits := List.all_eq_true.1 fine.2 p mem
      rw [eq, void, fits_void (hparams _ (List.of_mem_zip mem).1)] at fits
      cases fits
    · cases passes
  | ifThen i t e =>
    obtain rfl : c = i := compares
    cases e with
    | none => exact absurd passes (by rw [infer, condition void]; simp)
    | some e => exact absurd passes (by rw [infer, condition void]; simp)
  | whileDo i b =>
    obtain rfl : c = i := compares
    exact absurd passes (by rw [infer, condition void]; simp)
  | forDo i lo hi st b =>
    rw [outcome_loop] at passes
    split at passes
    · next fine =>
      have fits := fine.2 c compares
      rw [void, fits_void rfl] at fits
      cases fits
    · cases passes
  | assign t v =>
    simp only [infer] at passes
    rw [outcome_assignType] at passes
    rcases compares with rfl | ⟨rfl, clean⟩
    · simp [void, Ty.isError, Ty.isAtomic, Ty.unaliased] at passes
    · rw [sound (by simp) clean, if_neg (by simp), void] at passes
      split at passes
      · next fine =>
        obtain ⟨place, fits⟩ := Bool.and_eq_true_iff.1 fine
        rw [fits_void (Ty.isData_of_isAtomic (Bool.and_eq_true_iff.1 place).2)] at fits
        cases fits
      · cases passes
  | hole | literal | name | block | «scoped» => exact compares

/-- In a program with an assignment no missing type is compared. -/
theorem shielded_of_assigns : Shielded a := by
  intro id node c reached hnode compares exposed
  have void : T c = .void := exposed_void tree bound assigns exposed
    (reached.child ⟨_, hnode, List.mem_map_of_mem (compares_children compares)⟩)
  obtain ⟨position, kind⟩ := node
  cases kind with
  | expr e =>
    have he : a.expr? id = some e := by simp [Arena.expr?, hnode]
    exact expr_compares tree bound assigns reached he compares void
  | type t => exact compares
  | decl d =>
    have passes := assigns id _ reached hnode
    cases d with
    | «alias» | param => exact compares
    | var x t init =>
      cases init with
      | none => exact compares
      | some init =>
        obtain rfl : c = init := compares
        have hd : a.decl? id = some (.var x t (some c)) := by simp [Arena.decl?, hnode]
        have data := value_isData tree bound assigns hd reached rfl
        have rule := passes.2
        rw [outcome_initial, void, fits_void data,
          Ty.isError_of_isData data] at rule
        simp at rule
    | function f ps r b =>
      obtain rfl : c = b := compares
      have data := written_isData tree bound assigns reached hnode (u := r) (by simp)
      have rule := passes.2
      rw [outcome_result, void, fits_void data,
        Ty.isError_of_isData data] at rule
      simp at rule

end

end PinsBackend.Assignment
