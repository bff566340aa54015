import PinsBackend.Proofs.Canonical.Correspondence

/-! Linear code is canonical: splitting leaves calls directly under a move or an `eval` and no
statement inside an expression. -/
namespace PinsBackend.Ir

namespace Expr

variable {e : Expr}

@[simp] theorem isFlat_const (v : Value) : (Expr.const v).isFlat = true := rfl

@[simp] theorem isFlat_temp (t : Temp) : (Expr.temp t).isFlat = true := rfl

@[simp] theorem isFlat_mem (a : Expr) : (Expr.mem a).isFlat = a.isFlat := rfl

@[simp] theorem isFlat_checkIndex (i : Expr) (n : Int) :
    (Expr.checkIndex i n).isFlat = i.isFlat := by
  simp [isFlat, effects]

@[simp] theorem isFlat_binop (op : BinOp) (l r : Expr) :
    (Expr.binop op l r).isFlat = (l.isFlat && r.isFlat) := by
  simp [isFlat, effects, Bool.and_assoc, Bool.and_left_comm]

theorem isFlat_call (l : String) (args : List Expr) : (Expr.call l args).isFlat = false := by
  simp [isFlat, effects]

theorem isFlat_eseq (s : Stmt) (e : Expr) : (Expr.eseq s e).isFlat = false := by
  simp [isFlat, effects]

theorem ne_call_of_isFlat (h : e.isFlat = true) (l : String) (args : List Expr) :
    e ≠ .call l args := by
  rintro rfl
  simp [isFlat_call] at h

/-- Flat expressions pass nothing. -/
theorem events_of_isFlat : (e : Expr) → e.isFlat = true → e.events = []
  | .const _, _ | .data _, _ | .temp _, _ => rfl
  | .mem a, h => events_of_isFlat a (by simpa using h)
  | .checkIndex i _, h => events_of_isFlat i (by simpa using h)
  | .binop _ l r, h => by
    rw [isFlat_binop, Bool.and_eq_true] at h
    rw [events, events_of_isFlat l h.1, events_of_isFlat r h.2, List.append_nil]
  | .call l args, h => by simp [isFlat_call] at h
  | .eseq s e, h => by simp [isFlat_eseq] at h

theorem labels_of_isFlat (h : e.isFlat = true) : e.labels = [] := by
  simp [labels, events_of_isFlat e h]

theorem labels_of_isCanonical (h : (e.isFlat || e.isFlatCall) = true) : e.labels = [] := by
  rcases Bool.or_eq_true_iff.1 h with h | h
  · exact labels_of_isFlat h
  · cases e with
    | call l args =>
      have none : eventsList args = [] := by
        rw [eventsList_eq, List.flatMap_eq_nil_iff]
        exact fun a ha => events_of_isFlat a (List.all_eq_true.1 h a ha)
      simp [labels, events, none, Event.label?]
    | _ => cases h

end Expr

namespace Canonical

/-! ## Flat expressions are left as they are -/

theorem keep_nop (e : Expr) (n : Temp) : keep (.nop, e) .nop n = .ok (.nop, e) n := rfl

mutual

theorem expr_of_isFlat : (e : Expr) → e.isFlat = true → ∀ whole n, expr whole e n = .ok (.nop, e) n
  | .const _, _, _, _ | .data _, _, _, _ | .temp _, _, _, _ => rfl
  | .mem a, flat, _, n => by
    rw [expr, bind_apply, expr_of_isFlat a (by simpa using flat)]
    rfl
  | .checkIndex i _, flat, _, n => by
    rw [expr, bind_apply, expr_of_isFlat i (by simpa using flat)]
    rfl
  | .binop _ l r, flat, _, n => by
    rw [Expr.isFlat_binop, Bool.and_eq_true] at flat
    simp only [expr, bind_apply, expr_of_isFlat l flat.1, expr_of_isFlat r flat.2]
    rfl
  | .call l args, flat, _, _ => by simp [Expr.isFlat_call] at flat
  | .eseq s e, flat, _, _ => by simp [Expr.isFlat_eseq] at flat

theorem exprs_of_isFlat : (es : List Expr) → (∀ e ∈ es, e.isFlat = true) → ∀ n,
    exprs es n = .ok (es.map fun e => (.nop, e)) n
  | [], _, _ => rfl
  | e :: es, flat, n => by
    obtain ⟨first, rest⟩ := List.forall_mem_cons.1 flat
    simp only [exprs, bind_apply, expr_of_isFlat e first, exprs_of_isFlat es rest]
    rfl

end

theorem keepAll_nop (es : List Expr) (n : Temp) :
    keepAll (es.map fun e => (.nop, e)) n = .ok (.nop, es) n := by
  induction es with
  | nil => rfl
  | cons e es ih =>
    simp only [List.map_cons, keepAll, bind_apply, ih, keep_nop]
    rfl

end Canonical

/-- In canonical code a label is defined by a statement. -/
theorem mem_of_mem_labels {body : List Stmt} (canonical : ∀ s ∈ body, s.isCanonical = true)
    {l : String} (h : l ∈ labelsOf body) : .label l ∈ body := by
  simp only [labelsOf, List.mem_filterMap, List.mem_flatMap] at h
  obtain ⟨event, ⟨s, hs, hevent⟩, label⟩ := h
  have own : l ∈ s.labels := List.mem_filterMap.2 ⟨event, hevent, label⟩
  have canonical := canonical s hs
  cases s with
  | label m =>
    obtain rfl : l = m := by simpa using own
    exact hs
  | eval e => simp [Expr.labels_of_isCanonical canonical] at own
  | cjump c _ _ => simp [Expr.labels_of_isFlat canonical] at own
  | jump m => simp at own
  | seq ss => cases canonical
  | move dst src =>
    cases dst with
    | temp t => simp [Expr.labels_of_isCanonical canonical] at own
    | mem a =>
      obtain ⟨ha, hsrc⟩ := Bool.and_eq_true_iff.1 canonical
      simp [Expr.labels_of_isFlat ha, Expr.labels_of_isFlat hsrc] at own
    | _ => cases canonical

namespace Canonical

/-- All statements of split code are canonical. -/
def AllCanonical (s : Stmt) : Prop := ∀ st ∈ s.code, st.isCanonical = true

theorem AllCanonical.nop : AllCanonical .nop := by simp [AllCanonical, Stmt.nop]

theorem AllCanonical.andThen {a b : Stmt} (ha : AllCanonical a) (hb : AllCanonical b) :
    AllCanonical (a.andThen b) := by
  intro st h
  rw [Stmt.code_andThen, List.mem_append] at h
  exact h.elim (ha st) (hb st)

theorem AllCanonical.move {dst src : Expr} (h : (Stmt.move dst src).isCanonical = true) :
    AllCanonical (.move dst src) := by
  intro st hst
  rw [Stmt.code_move, List.mem_singleton] at hst
  rwa [hst]

/-- An operand whose statement is canonical and whose remainder is flat. -/
def Good (part : Stmt × Expr) : Prop := AllCanonical part.1 ∧ part.2.isFlat = true

theorem keep_canonical {part part' : Stmt × Expr} {after : Stmt} {n n' : Temp}
    (h : keep part after n = .ok part' n') (hp : Good part) (ha : AllCanonical after) :
    Good part' := by
  obtain ⟨s, r⟩ := part
  obtain ⟨s', r'⟩ := part'
  rcases keep_cases h with ⟨-, rfl, rfl, -⟩ | ⟨-, rfl, rfl, -⟩
  · exact ⟨hp.1.andThen ha, hp.2⟩
  · have save : AllCanonical (.move (.temp n) r) := .move (by simp [Stmt.isCanonical, hp.2])
    exact ⟨hp.1.andThen (save.andThen ha), rfl⟩

theorem keepAll_canonical {parts : List (Stmt × Expr)} {n n' : Temp} {s : Stmt} {rs : List Expr}
    (h : keepAll parts n = .ok (s, rs) n') (hp : ∀ part ∈ parts, Good part) :
    AllCanonical s ∧ ∀ r ∈ rs, r.isFlat = true := by
  induction parts generalizing s rs n' with
  | nil =>
    cases h
    exact ⟨.nop, by simp⟩
  | cons part parts ih =>
    simp only [keepAll, bind_eq_ok, pure_eq_ok, Prod.mk.injEq] at h
    obtain ⟨⟨after, values⟩, m, hrest, ⟨before, value⟩, m', hkeep, ⟨rfl, rfl⟩, rfl⟩ := h
    obtain ⟨rest, flat⟩ := ih hrest fun q hq => hp q (by simp [hq])
    have first := keep_canonical hkeep (hp part (by simp)) rest
    exact ⟨first.1, List.forall_mem_cons.2 ⟨first.2, flat⟩⟩

theorem keepBoth_canonical {left right : Stmt × Expr} {n n' : Temp} {s : Stmt} {l r : Expr}
    (h : keepBoth left right n = .ok (s, l, r) n') (hl : Good left) (hr : Good right) :
    AllCanonical s ∧ l.isFlat = true ∧ r.isFlat = true := by
  have parts : ∀ part ∈ [left, right], Good part := by
    intro part hpart
    rcases List.mem_cons.1 hpart with rfl | hpart
    · exact hl
    · exact List.mem_singleton.1 hpart ▸ hr
  obtain ⟨hs, flat⟩ := keepAll_canonical (keepAll_two h) parts
  exact ⟨hs, flat l (by simp), flat r (by simp)⟩

/-- A remainder that may be a call if the caller has a place for it. -/
def Rest (whole : Bool) (r : Expr) : Prop :=
  r.isFlat = true ∨ whole = true ∧ r.isFlatCall = true

theorem Rest.flat {r : Expr} (h : Rest false r) : r.isFlat = true :=
  h.resolve_right fun h => by cases h.1

mutual

theorem expr_canonical : (e : Expr) → ∀ {whole n s r n'}, expr whole e n = .ok (s, r) n' →
    AllCanonical s ∧ Rest whole r
  | .const _, _, _, _, _, _, h | .data _, _, _, _, _, _, h | .temp _, _, _, _, _, _, h => by
    cases h
    exact ⟨.nop, .inl rfl⟩
  | .mem a, _, _, _, _, _, h | .checkIndex a _, _, _, _, _, _, h => by
    simp only [expr, bind_eq_ok, pure_eq_ok, Prod.mk.injEq] at h
    obtain ⟨⟨s₁, r₁⟩, _, ha, ⟨s₂, r₂⟩, _, hk, ⟨rfl, rfl⟩, rfl⟩ := h
    obtain ⟨hs, hr⟩ := expr_canonical a ha
    have kept := keep_canonical hk ⟨hs, hr.flat⟩ .nop
    exact ⟨kept.1, .inl (by simpa using kept.2)⟩
  | .binop op l r, _, _, _, _, _, h => by
    simp only [expr, bind_eq_ok, pure_eq_ok, Prod.mk.injEq] at h
    obtain ⟨⟨s₁, r₁⟩, _, hl, ⟨s₂, r₂⟩, _, hr, ⟨s₃, a, b⟩, _, hk, ⟨rfl, rfl⟩, rfl⟩ := h
    obtain ⟨hs₁, hr₁⟩ := expr_canonical l hl
    obtain ⟨hs₂, hr₂⟩ := expr_canonical r hr
    obtain ⟨hs, ha, hb⟩ := keepBoth_canonical hk ⟨hs₁, hr₁.flat⟩ ⟨hs₂, hr₂.flat⟩
    exact ⟨hs, .inl (by simp [ha, hb])⟩
  | .call label args, whole, _, _, _, _, h => by
    simp only [expr, bind_eq_ok] at h
    obtain ⟨parts, _, hparts, ⟨s₁, rs⟩, _, hk, h⟩ := h
    obtain ⟨hs, flat⟩ := keepAll_canonical hk (exprs_canonical args hparts)
    have flatCall : (Expr.call label rs).isFlatCall = true := List.all_eq_true.2 flat
    cases whole with
    | true =>
      simp only [↓reduceIte, pure_eq_ok, Prod.mk.injEq] at h
      obtain ⟨⟨rfl, rfl⟩, rfl⟩ := h
      exact ⟨hs, .inr ⟨rfl, flatCall⟩⟩
    | false =>
      simp only [Bool.false_eq_true, ↓reduceIte, bind_eq_ok, fresh_eq_ok, pure_eq_ok,
        Prod.mk.injEq] at h
      obtain ⟨t, _, -, ⟨rfl, rfl⟩, rfl⟩ := h
      exact ⟨hs.andThen (.move (by simp [Stmt.isCanonical, flatCall])), .inl rfl⟩
  | .eseq st e, whole, _, _, _, _, h => by
    simp only [expr, bind_eq_ok, pure_eq_ok, Prod.mk.injEq] at h
    obtain ⟨before, _, hst, ⟨s₁, r₁⟩, _, he, ⟨rfl, rfl⟩, rfl⟩ := h
    obtain ⟨hs, hr⟩ := expr_canonical e he
    exact ⟨(stmt_canonical st hst).andThen hs, hr⟩

theorem exprs_canonical : (es : List Expr) → ∀ {n parts n'}, exprs es n = .ok parts n' →
    ∀ part ∈ parts, Good part
  | [], _, _, _, h => by
    cases h
    simp
  | e :: es, _, _, _, h => by
    simp only [exprs, bind_eq_ok, pure_eq_ok] at h
    obtain ⟨⟨s, r⟩, _, he, rest, _, hes, rfl, rfl⟩ := h
    obtain ⟨hs, hr⟩ := expr_canonical e he
    exact List.forall_mem_cons.2 ⟨⟨hs, hr.flat⟩, exprs_canonical es hes⟩

theorem stmt_canonical : (st : Stmt) → ∀ {n s n'}, stmt st n = .ok s n' → AllCanonical s
  | .seq ss, _, _, _, h => by
    simp only [stmt, bind_eq_ok, pure_eq_ok] at h
    obtain ⟨ss', _, hss, rfl, rfl⟩ := h
    exact stmts_canonical ss hss
  | .jump _, _, _, _, h | .label _, _, _, _, h => by
    cases h
    intro st hst
    cases List.mem_singleton.1 hst
    rfl
  | .cjump c l m, _, _, _, h => by
    simp only [stmt, bind_eq_ok, pure_eq_ok] at h
    obtain ⟨⟨s₁, r⟩, _, hc, rfl, rfl⟩ := h
    obtain ⟨hs, hr⟩ := expr_canonical c hc
    refine hs.andThen fun st hst => ?_
    rw [Stmt.code_cjump, List.mem_singleton] at hst
    simpa [hst, Stmt.isCanonical] using hr.flat
  | .move dst src, _, _, _, h => by
    simp only [stmt] at h
    exact move_canonical dst h (fun h => expr_canonical src h) (fun h => expr_canonical src h)
  | .eval e, _, _, _, h => by
    simp only [stmt, bind_eq_ok, pure_eq_ok] at h
    obtain ⟨⟨s₁, r⟩, _, he, rfl, rfl⟩ := h
    obtain ⟨hs, hr⟩ := expr_canonical e he
    by_cases leaf : r.isLeaf = true
    · simpa only [leaf, ↓reduceIte] using hs
    · simp only [leaf, Bool.false_eq_true, ↓reduceIte]
      refine hs.andThen fun st hst => ?_
      rw [Stmt.code_eval (by simpa using leaf), List.mem_singleton] at hst
      rcases hr with hr | hr <;> simp [hst, Stmt.isCanonical, hr]

theorem stmts_canonical : (ss : List Stmt) → ∀ {n ss' n'}, stmts ss n = .ok ss' n' →
    AllCanonical (.seq ss')
  | [], _, _, _, h => by
    cases h
    exact .nop
  | s :: ss, _, _, _, h => by
    simp only [stmts, bind_eq_ok, pure_eq_ok] at h
    obtain ⟨first, _, hs, rest, _, hss, rfl, rfl⟩ := h
    intro st hst
    rw [Stmt.code_seq, Stmt.codeList_cons, List.mem_append] at hst
    exact hst.elim (stmt_canonical s hs st) (stmts_canonical ss hss st)

theorem move_canonical : (dst : Expr) → ∀ {call value n s n'},
    move call value dst n = .ok s n' →
    (∀ {m s r m'}, call m = .ok (s, r) m' → AllCanonical s ∧ Rest true r) →
    (∀ {m s r m'}, value m = .ok (s, r) m' → AllCanonical s ∧ Rest false r) → AllCanonical s
  | .temp t, _, _, _, _, _, h, hc, _ => by
    simp only [move, bind_eq_ok, pure_eq_ok] at h
    obtain ⟨⟨s₁, r⟩, _, hcall, rfl, rfl⟩ := h
    obtain ⟨hs, hr⟩ := hc hcall
    refine hs.andThen (.move ?_)
    rcases hr with hr | hr <;> simp [Stmt.isCanonical, hr]
  | .mem a, _, _, _, _, _, h, _, hv => by
    simp only [move, bind_eq_ok, pure_eq_ok] at h
    obtain ⟨⟨s₁, r₁⟩, _, ha, ⟨s₂, r₂⟩, _, hval, ⟨s₃, a', src⟩, _, hk, rfl, rfl⟩ := h
    obtain ⟨hs₁, hr₁⟩ := expr_canonical a ha
    obtain ⟨hs₂, hr₂⟩ := hv hval
    obtain ⟨hs, flat, flat'⟩ := keepBoth_canonical hk ⟨hs₁, hr₁.flat⟩ ⟨hs₂, hr₂.flat⟩
    exact hs.andThen (.move (by simp [Stmt.isCanonical, flat, flat']))
  | .eseq st e, _, _, _, _, _, h, hc, hv => by
    simp only [move, bind_eq_ok, pure_eq_ok] at h
    obtain ⟨before, _, hst, rest, _, he, rfl, rfl⟩ := h
    intro x hx
    rw [Stmt.code_seq, Stmt.codeList_cons, Stmt.codeList_cons, Stmt.codeList_nil, List.append_nil,
      List.mem_append] at hx
    exact hx.elim (stmt_canonical st hst x) (move_canonical e he hc hv x)
  | .const _, _, _, _, _, _, h, _, _ | .data _, _, _, _, _, _, h, _, _
  | .binop _ _ _, _, _, _, _, _, h, _, _ | .call _ _, _, _, _, _, _, h, _, _
  | .checkIndex _ _, _, _, _, _, _, h, _, _ => by simp [move, throw_apply] at h

end

end Canonical
end PinsBackend.Ir
