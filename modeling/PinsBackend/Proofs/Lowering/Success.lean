import PinsBackend.Proofs.Kinds.Labels
import PinsBackend.Proofs.Layout.Success

/-! Programs that have code.

Every table that is looked into while code is made answers for all nodes of an analysed program, so
that code is missing only if the bytes of an element or the depth of a function cannot be counted.
-/
namespace PinsBackend

namespace Syntax

/-- Names and elements of arrays can be assigned. -/
def Expr.isTarget : Expr → Bool
  | .name _ _ => true
  | .binary _ .index _ _ => true
  | _ => false

/-- What is assigned can be assigned. -/
def assignable : Facts where
  expr _ e :=
    match e with
    | .forDo _ counter _ _ _ _ => counter.isTarget = true
    | .assign _ target _ => target.isTarget = true
    | _ => True
  decl _ _ := True

end Syntax

namespace Ir.Lowering

/-- Lowering fails only with an overflow, and only if the sizes of the program do not fit. -/
structure Settles {α : Type} (fits : Prop) (x : LowerM α) : Prop where
  fails : ∀ {s e s'}, x s = .error e s' → ∃ o, e = .overflow o ∧ ¬ fits

variable {α β : Type} {fits : Prop}

theorem Settles.pure (a : α) : Settles fits (pure a : LowerM α) := ⟨fun h => by cases h⟩

theorem Settles.bind {x : LowerM α} {f : α → LowerM β} (hx : Settles fits x)
    (hf : ∀ {s a s'}, x s = .ok a s' → Settles fits (f a)) : Settles fits (x >>= f) := by
  refine ⟨fun h => ?_⟩
  rcases bind_eq_error.1 h with h | ⟨a, s₁, ha, h⟩
  · exact hx.fails h
  · exact (hf ha).fails h

theorem Settles.fresh : Settles fits fresh := ⟨fun h => by cases h⟩

theorem Settles.label : Settles fits label := ⟨fun h => by cases h⟩

theorem Settles.get : Settles fits (get : LowerM State) := ⟨fun h => by cases h⟩

theorem Settles.modify (f : State → State) : Settles fits (modify f : LowerM PUnit) :=
  ⟨fun h => by cases h⟩

section

variable {access : Access}

variable {ctx : Context} {id : NodeId} {τ : Ty}

theorem Settles.typeOf (type : ctx.types.get? id = some τ) : Settles fits (typeOf ctx id) := by
  refine ⟨fun h => ?_⟩
  simp only [Lowering.typeOf, type] at h
  cases h

theorem Settles.addressOf (reached : ctx.layout.accesses.get? id = some access) :
    Settles fits (addressOf ctx id) := by
  refine ⟨fun h => ?_⟩
  simp only [Lowering.addressOf, reached] at h
  cases access <;> cases h

theorem Settles.nameValue (reached : ctx.layout.accesses.get? id = some access)
    (type : ctx.types.get? id = some τ) : Settles fits (nameValue ctx id) :=
  .bind (.addressOf reached) fun _ => .bind (.typeOf type) fun _ => .pure _

theorem Settles.arrayOf {parts : Int × Ty} (type : ctx.types.get? id = some τ)
    (array : τ.arrayParts? = some parts) : Settles fits (arrayOf ctx id) := by
  refine .bind (.typeOf type) fun found => ?_
  obtain ⟨same, -⟩ := typeOf_eq_ok.1 found
  rw [type] at same
  cases same
  rw [array]
  exact .pure _

/-- The elements of an array that fits fit too. -/
theorem Settles.element {type : Ty} {length : Int} (array : τ.arrayParts? = some (length, type))
    (data : τ.isData = true) (small : fits → Word.Fits (τ.extent * Word.bytes))
    (base index : Expr) :
    Settles fits (element base index length type) := by
  refine ⟨fun h => ?_⟩
  obtain ⟨pos, part, extent, -⟩ := Ty.arrayParts?_eq_some array data
  unfold Lowering.element at h
  cases size : type.sizeInWords.bind fun words => Word.mul words Word.bytes with
  | ok size' =>
    rw [size] at h
    cases h
  | error o =>
    rw [size] at h
    cases h
    refine ⟨o, rfl, fun hf => ?_⟩
    have whole := small hf
    have le : type.extent ≤ τ.extent := by
      rw [extent]
      exact Nat.le_mul_of_pos_left _ (by omega)
    have one : Word.Fits (type.extent * Word.bytes) := by
      simp only [Word.Fits, Word.bytes] at whole ⊢
      omega
    rw [Ty.sizeInWords_eq_ok part one] at size
    change Word.mul type.extent Word.bytes = .error o at size
    rw [Word.mul, if_pos one] at size
    cases size

theorem Settles.staticLink {here callee : Nat} (near : callee ≤ here + 1)
    (small : fits → here < 18446744073709551615) : Settles fits (staticLink here callee) := by
  refine ⟨fun h => ?_⟩
  unfold Lowering.staticLink at h
  by_cases one : callee = 1
  · rw [if_pos one] at h
    cases h
  · rw [if_neg one, Word.succ] at h
    by_cases room : here < 18446744073709551615
    · simp only [room, ↓reduceIte, Nat.not_lt.2 near] at h
      cases h
    · simp only [room, ↓reduceIte] at h
      cases h
      exact ⟨_, rfl, fun hf => room (small hf)⟩

end

end Ir.Lowering

namespace Kinds

open Syntax Ir Layout
open Lowering hiding expr exprs decl decls literal block isParameter

section

variable {source : Source} {ctx : Lowering.Context} {t : Tables} {sort : NodeId → NodeSort}
  {Γ : Env}
  {site : Site}

/-- A name has an access and a type. -/
theorem Analysed.name_settles (h : Analysed source ctx t sort) {x : String}
    (facts : (found source ctx t sort).expr Γ (.name site x)) :
    (∃ access, ctx.layout.accesses.get? site.id = some access) ∧
      ∃ τ, ctx.types.get? site.id = some τ := by
  obtain ⟨-, -, -, ⟨τ, type, -⟩, ⟨_, _, _, access, -, -, -, -, reached⟩, -⟩ := facts
  rw [h.describes.access] at reached
  exact ⟨⟨access, reached⟩, τ, type⟩

/-- An indexed expression has the type of an array. -/
theorem indexed_type {l r : Syntax.Expr}
    (facts : (found source ctx t sort).expr Γ (.binary site .index l r))
    (left : l.Everywhere (found source ctx t sort) Γ) :
    ∃ τ parts, ctx.types.get? l.id = some τ ∧ τ.arrayParts? = some parts ∧ τ.isData = true := by
  obtain ⟨-, -, -, ⟨τ, -, -, τ', _, type, -, ⟨n, array⟩, -⟩, -⟩ := facts
  obtain ⟨τ'', type', result, -⟩ := left.here.2.2.2.1
  rw [type] at type'
  cases type'
  refine ⟨τ', _, type, array, ?_⟩
  rcases result with data | rfl
  · exact data
  · cases array

/-- A call is bound to a built-in, or to a function with a frame that is not too deep. -/
theorem Analysed.callee_settles (h : Analysed source ctx t sort) {f : String}
    {args : List Syntax.Expr} (facts : (found source ctx t sort).expr Γ (.call site f args)) :
    Settles (source.Fits ctx.types) (callee ctx Γ.length site.id) := by
  obtain ⟨-, -, reference, ⟨τ, -, -, params, type, -⟩, -, scope, -⟩ := facts
  rcases reference with ⟨b, bound, -⟩ | ⟨d, bound, reach⟩
  · refine ⟨fun failed => ?_⟩
    simp only [callee, bound] at failed
    cases failed
  obtain ⟨Γ', decl, suffix, declared, rfl, isFunction⟩ : source.IsFunction Γ d := by
    refine reach.resolve_left ?_
    rintro ⟨-, Γ', decl, declared, rfl, isVariable⟩
    obtain ⟨τ', type', data⟩ := h.variable_type declared isVariable
    rcases type with ⟨b, bound', -⟩ | ⟨d, bound', type⟩
    · rw [bound] at bound'
      cases bound'
    · rw [bound] at bound'
      cases bound'
      rw [type] at type'
      cases type'
      cases data
  cases decl with
  | function site' f' params' result body =>
    obtain ⟨frame, laid, of⟩ := (h.decl_facts declared).2.2.2.2.1
    rw [h.describes.frame] at laid
    have laid : ctx.layout.frames.get? (Decl.id (.function site' f' params' result body)) =
      some frame := laid
    have near : frame.depth ≤ Γ.length + 1 := by
      rw [of.deep]
      exact Nat.succ_le_succ suffix.length_le
    have link : Settles (source.Fits ctx.types) (staticLink Γ.length frame.depth) :=
      .staticLink near fun fits => fits.depth scope
    refine ⟨fun failed => ?_⟩
    simp only [callee, bound, laid] at failed
    exact (link.bind fun _ => .pure _).fails failed
  | _ => cases isFunction

/-- The variable of a declaration has an access. -/
theorem Analysed.own_access (h : Analysed source ctx t sort) (scope : source.Scope Γ) {d : Decl}
    (own : IsOwn source Γ d) : ∃ access, ctx.layout.accesses.get? d.id = some access := by
  rw [← h.describes.access]
  rcases own with mem | global
  · cases Γ with
    | nil => cases mem
    | cons l Γ =>
      obtain ⟨-, access⟩ := h.slot_access (i := 0) (l := l) scope rfl (List.mem_append_right _ mem)
      exact ⟨_, access⟩
  · exact ⟨_, h.global_access global⟩

mutual

theorem expr_settles (h : Analysed source ctx t sort) :
    (e : Syntax.Expr) → {Γ : Env} → e.Everywhere (found source ctx t sort) Γ →
    e.Everywhere assignable Γ → Settles (source.Fits ctx.types) (Lowering.expr ctx Γ.length e)
  | .absent _, _, facts, _ | .hole _, _, facts, _ => by
    obtain ⟨_, -, -, rule⟩ := facts.here.2.2.2.1
    cases rule
  | .literal _ _, _, _, _ => .pure _
  | .name site x, _, facts, _ => by
    obtain ⟨⟨access, reached⟩, τ, type⟩ := h.name_settles facts
    exact .nameValue reached type
  | .unary _ _ e, _, facts, targets => .bind (expr_settles h e facts.2 targets.2) fun _ => .pure _
  | .binary site op l r, _, facts, targets => by
    have left := expr_settles h l facts.2.1 targets.2.1
    have right := expr_settles h r facts.2.2 targets.2.2
    have short {conjunction : Bool} : Settles (source.Fits ctx.types) (do
        let left ← Lowering.expr ctx _ l
        let right ← Lowering.expr ctx _ r
        return shortCircuit conjunction left right (← fresh) (← label) (← label)) :=
      .bind left fun _ => .bind right fun _ => .bind .fresh fun _ => .bind .label fun _ =>
        .bind .label fun _ => .pure _
    cases hop : form op with
    | direct op' =>
      simp only [Lowering.expr, hop]
      exact .bind left fun _ => .bind right fun _ => .pure _
    | conjunction =>
      simp only [Lowering.expr, hop]
      exact short
    | disjunction =>
      simp only [Lowering.expr, hop]
      exact short
    | index =>
      obtain rfl : op = .index := by cases op <;> simp_all [form]
      obtain ⟨τ, parts, type, array, data⟩ := indexed_type facts.1 facts.2.1
      simp only [Lowering.expr, form]
      refine .bind (.arrayOf type array) fun found => ?_
      have same := (arrayOf_eq_ok found).1
      rw [type, Option.bind_some, array] at same
      cases same
      exact .bind left fun _ => .bind right fun _ =>
        .bind (.element array data (fun fits => fits.type type) _ _) fun _ => .pure _
  | .call site f args, _, facts, targets =>
    .bind (h.callee_settles facts.1) fun _ =>
      .bind (arguments_settles h args facts.2 targets.2) fun _ => .pure _
  | .block _ es, _, facts, targets => .bind (exprs_settles h es facts.2 targets.2) fun _ => .pure _
  | .ifThen _ c b, _, facts, targets =>
    .bind (expr_settles h c facts.2.1 targets.2.1) fun _ =>
      .bind (expr_settles h b facts.2.2 targets.2.2) fun _ =>
      .bind .label fun _ => .bind .label fun _ => .pure _
  | .ifElse _ c b e, _, facts, targets =>
    .bind (expr_settles h c facts.2.1 targets.2.1) fun _ =>
      .bind (expr_settles h b facts.2.2.1 targets.2.2.1) fun _ => .bind .label fun _ =>
        .bind .label fun _ =>
      .bind (expr_settles h e facts.2.2.2 targets.2.2.2) fun _ => .bind .label fun _ =>
        .bind .fresh fun _ =>
      .pure _
  | .whileDo _ c b, _, facts, targets =>
    .bind .label fun _ => .bind .label fun _ => .bind .label fun _ =>
      .bind (expr_settles h c facts.2.1 targets.2.1) fun _ =>
        .bind (expr_settles h b facts.2.2 targets.2.2) fun _ =>
      .pure _
  | .forDo _ c lo hi st b, _, ⟨_, fc, flo, fhi, fst, fb⟩, ⟨target, tc, tlo, thi, tst, tb⟩ =>
    .bind (location_settles h c target fc tc) fun _ => .bind (expr_settles h lo flo tlo) fun _ =>
      .bind (expr_settles h hi fhi thi) fun _ => .bind (expr_settles h st fst tst) fun _ =>
      .bind (expr_settles h b fb tb) fun _ => .bind .fresh fun _ => .bind .fresh fun _ =>
      .bind .label fun _ => .bind .label fun _ => .bind .label fun _ => .pure _
  | .scoped site ds b, Γ, facts, targets => by
    have stands : Stands source (found source ctx t sort) Γ Γ.length (.expr (.scoped site ds b)) :=
      ⟨rfl, facts⟩
    obtain ⟨-, own⟩ := stands_decls stands
    exact .bind (decls_settles h ds facts.2.1 targets.2.1 own) fun _ =>
      .bind (expr_settles h b facts.2.2 targets.2.2) fun _ => .pure _
  | .assign _ target v, _, facts, targets =>
    .bind (expr_settles h v facts.2.2 targets.2.2) fun _ =>
      .bind (location_settles h target targets.1 facts.2.1 targets.2.1) fun _ =>
        .bind .fresh fun _ => .pure _

theorem exprs_settles (h : Analysed source ctx t sort) : (es : List Syntax.Expr) → {Γ : Env} →
    Expr.EverywhereList (found source ctx t sort) Γ es → Expr.EverywhereList assignable Γ es →
    Settles (source.Fits ctx.types) (Lowering.exprs ctx Γ.length es)
  | [], _, _, _ => .pure _
  | e :: es, _, facts, targets =>
    .bind (expr_settles h e facts.1 targets.1) fun _ =>
      .bind (exprs_settles h es facts.2 targets.2) fun _ => .pure _

theorem arguments_settles (h : Analysed source ctx t sort) : (es : List Syntax.Expr) → {Γ : Env} →
    Expr.EverywhereList (found source ctx t sort) Γ es → Expr.EverywhereList assignable Γ es →
    Settles (source.Fits ctx.types) (arguments ctx Γ.length es)
  | [], _, _, _ => .pure _
  | e :: es, _, facts, targets =>
    .bind (expr_settles h e facts.1 targets.1) fun _ => .bind .fresh fun _ =>
      .bind (arguments_settles h es facts.2 targets.2) fun _ => .pure _

theorem location_settles (h : Analysed source ctx t sort) :
    (e : Syntax.Expr) → {Γ : Env} → e.isTarget = true →
    e.Everywhere (found source ctx t sort) Γ → e.Everywhere assignable Γ →
    Settles (source.Fits ctx.types) (location ctx Γ.length e)
  | .name site x, _, _, facts, _ => by
    obtain ⟨⟨access, reached⟩, -⟩ := h.name_settles facts
    exact .bind (.addressOf reached) fun _ => .pure _
  | .binary site op l r, _, target, facts, targets => by
    obtain rfl : op = .index := by cases op <;> first | rfl | cases target
    obtain ⟨τ, parts, type, array, data⟩ := indexed_type facts.1 facts.2.1
    simp only [location]
    refine .bind (.arrayOf type array) fun found => ?_
    have same := (arrayOf_eq_ok found).1
    rw [type, Option.bind_some, array] at same
    cases same
    exact .bind (expr_settles h l facts.2.1 targets.2.1) fun _ =>
      .bind (expr_settles h r facts.2.2 targets.2.2) fun _ =>
      .bind (.element array data (fun fits => fits.type type) _ _) fun _ => .pure _

theorem decl_settles (h : Analysed source ctx t sort) :
    (d : Decl) → {Γ : Env} → {depth : Nat} → d.Everywhere (found source ctx t sort) Γ →
    d.Everywhere assignable Γ → (d.isVar = true → depth = Γ.length ∧ IsOwn source Γ d) →
    Settles (source.Fits ctx.types) (Lowering.decl ctx depth d)
  | .absent _, _, _, _, _, _ | .alias _ _ _, _, _, _, _, _ | .param _ _ _, _, _, _, _, _
  | .var _ _ _ none, _, _, _, _, _ => .pure _
  | .var site x type (some init), _, _, facts, targets, own => by
    obtain ⟨rfl, mine⟩ := own rfl
    obtain ⟨access, reached⟩ := h.own_access facts.1.2.2.2.2.2.1 mine
    exact .bind (.addressOf reached) fun _ => .bind (expr_settles h init facts.2 targets.2) fun _ =>
      .pure _
  | .function site f params result body, Γ, depth, facts, targets, _ => by
    obtain ⟨frame, laid, of⟩ := facts.1.2.2.2.2.1
    rw [h.describes.frame] at laid
    have inner := expr_settles h body facts.2.2 targets.2.2
    have deep : (Decl.level site params body :: Γ).length = frame.depth := of.deep.symm
    rw [deep] at inner
    simp only [Lowering.decl, laid]
    exact .bind .get fun _ => .bind (.modify _) fun _ => .bind inner fun _ =>
      .bind (.modify _) fun _ =>
      .pure _

theorem decls_settles (h : Analysed source ctx t sort) :
    (ds : List Decl) → {Γ : Env} → {depth : Nat} →
    Decl.EverywhereList (found source ctx t sort) Γ ds → Decl.EverywhereList assignable Γ ds →
    (∀ d ∈ ds, d.isVar = true → depth = Γ.length ∧ IsOwn source Γ d) →
    Settles (source.Fits ctx.types) (Lowering.decls ctx depth ds)
  | [], _, _, _, _, _ => .pure _
  | d :: ds, _, _, facts, targets, own =>
    .bind (decl_settles h d facts.1 targets.1 (own d (by simp))) fun _ =>
      .bind (decls_settles h ds facts.2 targets.2 fun d hd => own d (by simp [hd])) fun _ => .pure _

end

end

end Kinds
end PinsBackend
