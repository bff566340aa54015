import PinsBackend.Proofs.Canonical.Correspondence
import PinsBackend.Proofs.Canonical.Shape

/-! Code that splitting leaves as it is: the canonical chunks without idle statements.

A flat expression needs no statement and no temporary, so that canonical statements come out as they
went in. Conversely only canonical statements come out. Split code mentions no temporary that has no
successor, and can therefore be split again. -/
namespace PinsBackend.Ir

variable {c' : Chunk (List Stmt)}

namespace Canonical

variable {e : Expr} {s : Stmt} {part : Stmt × Expr}

/-! ## Flat code is left as it is -/

/-- A call with flat arguments stays where a call may stay. -/
theorem expr_of_isFlatCall (flat : e.isFlatCall = true) (n : Temp) :
    expr true e n = .ok (.nop, e) n := by
  cases e with
  | call l args =>
    simp only [expr, bind_apply, exprs_of_isFlat args (List.all_eq_true.1 flat), keepAll_nop]
    rfl
  | _ => cases flat

theorem expr_of_isWhole (h : (e.isFlat || e.isFlatCall) = true) (n : Temp) :
    expr true e n = .ok (.nop, e) n := by
  rcases Bool.or_eq_true_iff.1 h with flat | flat
  · exact expr_of_isFlat e flat true n
  · exact expr_of_isFlatCall flat n

theorem stmt_of_isCanonical (canonical : s.isCanonical = true) (busy : isIdle s = false)
    (n : Temp) : stmt s n = .ok s n := by
  cases s with
  | jump l | label l => rfl
  | seq ss => cases canonical
  | cjump c l k =>
    rw [stmt, bind_apply, expr_of_isFlat c canonical]
    rfl
  | eval e =>
    have leaf : e.isLeaf = false := busy
    simp only [stmt, bind_apply, expr_of_isWhole canonical, leaf]
    rfl
  | move dst src =>
    cases dst with
    | temp t =>
      rw [stmt, move, bind_apply, expr_of_isWhole canonical]
      rfl
    | mem a =>
      obtain ⟨address, source⟩ := Bool.and_eq_true_iff.1 canonical
      simp only [stmt, move, bind_apply, expr_of_isFlat a address, expr_of_isFlat src source]
      rfl
    | _ => cases canonical

variable {ss : List Stmt} {body : Stmt} {n n' : Temp}

theorem stmts_of_isCanonical (h : ∀ s ∈ ss, s.isCanonical = true ∧ isIdle s = false) (n : Temp) :
    stmts ss n = .ok ss n := by
  induction ss with
  | nil => rfl
  | cons s ss ih =>
    obtain ⟨⟨canonical, busy⟩, rest⟩ := List.forall_mem_cons.1 h
    simp only [stmts, bind_apply, stmt_of_isCanonical canonical busy, ih rest]
    rfl

theorem codeList_of_isCanonical (h : ∀ s ∈ ss, s.isCanonical = true ∧ isIdle s = false) :
    Stmt.codeList ss = ss := by
  induction ss with
  | nil => rfl
  | cons s ss ih =>
    obtain ⟨⟨canonical, busy⟩, rest⟩ := List.forall_mem_cons.1 h
    have alone : s.code = [s] := by
      cases s with
      | seq ss => cases canonical
      | eval e => exact Stmt.code_eval busy
      | _ => rfl
    rw [Stmt.codeList_cons, alone, ih rest]
    rfl

/-! ## The temporaries of split code -/

theorem firstFree_of_below (small : body.effects.Below Temp.last) :
    ∃ n, firstFree body = .ok n := by
  unfold firstFree Stmt.maxTemp?
  split
  · exact ⟨_, rfl⟩
  · next t greatest =>
    have mem := (List.max?_eq_some_iff.1 greatest).1
    have lt : t < Temp.last := (List.mem_append.1 mem).elim (small.1 t) (small.2 t)
    exact ⟨_, if_pos lt⟩

theorem firstFree_le_last (h : firstFree body = .ok n) : n ≤ Temp.last := by
  unfold firstFree at h
  split at h
  · cases h
    decide
  · next t _ =>
    split at h
    · next lt =>
      cases h
      exact Nat.max_le.2 ⟨lt, by decide⟩
    · cases h

theorem below_andThen {a b : Stmt} (ha : a.effects.Below n) (hb : b.effects.Below n) :
    (a.andThen b).effects.Below n := by
  unfold Stmt.andThen
  split
  · exact hb
  · split
    · exact ha
    · simp [Stmt.effects, Stmt.effectsList, ha, hb]

/-- Temporaries up to `n'` are in use where those up to `n` were, and each has a number. -/
structure Extends (n n' : Temp) : Prop where
  le : n ≤ n'
  last : n ≤ Temp.last → n' ≤ Temp.last

theorem Extends.refl (n : Temp) : Extends n n := ⟨Nat.le_refl n, id⟩

theorem Extends.trans {m : Temp} (h : Extends n m) (k : Extends m n') : Extends n n' :=
  ⟨Nat.le_trans h.le k.le, k.last ∘ h.last⟩

/-- An operand that mentions only temporaries below `n`. -/
def Within (n : Temp) (part : Stmt × Expr) : Prop :=
  part.1.effects.Below n ∧ part.2.effects.Below n

theorem Within.mono {m : Temp} (h : Within n part) (le : n ≤ m) : Within m part :=
  ⟨h.1.mono le, h.2.mono le⟩

theorem fresh_extends {t : Temp} (h : fresh n = .ok t n') : Extends n n' ∧ t < n' := by
  obtain ⟨lt, rfl, rfl⟩ := fresh_eq_ok.1 h
  exact ⟨⟨Nat.le_succ _, fun _ => lt⟩, Nat.lt_succ_self _⟩

theorem below_move_temp {t : Temp} (ht : t < n) (he : e.effects.Below n) :
    (Stmt.move (.temp t) e).effects.Below n :=
  below_move.2 ⟨by simp [Expr.effects, Effects.Below, ht], he⟩

theorem keep_within {part' : Stmt × Expr} {after : Stmt} (h : keep part after n = .ok part' n')
    (hp : Within n part) (ha : after.effects.Below n) : Extends n n' ∧ Within n' part' := by
  unfold keep at h
  split at h
  · cases h
    exact ⟨.refl _, below_andThen hp.1 ha, hp.2⟩
  · simp only [bind_eq_ok, pure_eq_ok] at h
    obtain ⟨t, m, hfresh, rfl, rfl⟩ := h
    obtain ⟨more, lt⟩ := fresh_extends hfresh
    refine ⟨more, ?_, by simp [Expr.effects, Effects.Below, lt]⟩
    exact below_andThen (hp.1.mono more.le)
      (below_andThen (below_move_temp lt (hp.2.mono more.le)) (ha.mono more.le))

theorem keepAll_within {parts : List (Stmt × Expr)} {rs : List Expr}
    (h : keepAll parts n = .ok (s, rs) n') (hp : ∀ part ∈ parts, Within n part) :
    Extends n n' ∧ s.effects.Below n' ∧ (Expr.effectsList rs).Below n' := by
  induction parts generalizing s rs n' with
  | nil =>
    cases h
    exact ⟨.refl _, Effects.below_empty _, Effects.below_empty _⟩
  | cons part parts ih =>
    simp only [keepAll, bind_eq_ok, pure_eq_ok, Prod.mk.injEq] at h
    obtain ⟨⟨after, values⟩, m, hrest, ⟨before, value⟩, m', hkeep, ⟨rfl, rfl⟩, rfl⟩ := h
    obtain ⟨first, others⟩ := List.forall_mem_cons.1 hp
    obtain ⟨more, hafter, hvalues⟩ := ih hrest others
    obtain ⟨more', within⟩ := keep_within hkeep (first.mono more.le) hafter
    exact ⟨more.trans more', within.1, Effects.below_union.2 ⟨within.2, hvalues.mono more'.le⟩⟩

theorem keepBoth_within {left right : Stmt × Expr} {l r : Expr}
    (h : keepBoth left right n = .ok (s, l, r) n') (hl : Within n left) (hr : Within n right) :
    Extends n n' ∧ s.effects.Below n' ∧ l.effects.Below n' ∧ r.effects.Below n' := by
  have parts : ∀ part ∈ [left, right], Within n part := by simpa using ⟨hl, hr⟩
  obtain ⟨more, hs, values⟩ := keepAll_within (keepAll_two h) parts
  simp only [Expr.effectsList, Effects.below_union] at values
  exact ⟨more, hs, values.1, values.2.1⟩

mutual

theorem expr_within : (e : Expr) → ∀ {whole n s r n'}, expr whole e n = .ok (s, r) n' →
    e.effects.Below n → Extends n n' ∧ Within n' (s, r)
  | .const _, _, _, _, _, _, h, hb | .data _, _, _, _, _, _, h, hb | .temp _, _, _, _, _,
    _, h, hb => by
    cases h
    exact ⟨.refl _, Effects.below_empty _, hb⟩
  | .mem a, _, _, _, _, _, h, hb => by
    simp only [expr, bind_eq_ok, pure_eq_ok, Prod.mk.injEq] at h
    obtain ⟨⟨s₁, r₁⟩, _, ha, ⟨s₂, r₂⟩, _, hk, ⟨rfl, rfl⟩, rfl⟩ := h
    obtain ⟨more, within⟩ := expr_within a ha hb
    obtain ⟨more', kept⟩ := keep_within hk within (Effects.below_empty _)
    exact ⟨more.trans more', kept⟩
  | .checkIndex i k, _, _, _, _, _, h, hb => by
    simp only [expr, bind_eq_ok, pure_eq_ok, Prod.mk.injEq] at h
    obtain ⟨⟨s₁, r₁⟩, _, hi, ⟨s₂, r₂⟩, _, hk, ⟨rfl, rfl⟩, rfl⟩ := h
    simp only [Expr.effects, Effects.below_union] at hb
    obtain ⟨more, within⟩ := expr_within i hi hb.1
    obtain ⟨more', kept⟩ := keep_within hk within (Effects.below_empty _)
    exact ⟨more.trans more', kept.1, Effects.below_union.2 ⟨kept.2, by simp [Effects.Below]⟩⟩
  | .binop op l r, _, _, _, _, _, h, hb => by
    simp only [expr, bind_eq_ok, pure_eq_ok, Prod.mk.injEq] at h
    obtain ⟨⟨s₁, r₁⟩, _, hl, ⟨s₂, r₂⟩, _, hr, ⟨s₃, a, b⟩, _, hk, ⟨rfl, rfl⟩, rfl⟩ := h
    simp only [Expr.effects, Effects.below_union] at hb
    obtain ⟨more, left⟩ := expr_within l hl hb.1.1
    obtain ⟨more', right⟩ := expr_within r hr (hb.1.2.mono more.le)
    obtain ⟨more'', hs, ha, hb⟩ := keepBoth_within hk (left.mono more'.le) right
    refine ⟨(more.trans more').trans more'', hs, ?_⟩
    exact Effects.below_union.2 ⟨Effects.below_union.2 ⟨ha, hb⟩, by simp [Effects.Below]⟩
  | .call label args, whole, _, _, _, _, h, hb => by
    simp only [expr, bind_eq_ok] at h
    obtain ⟨parts, _, hparts, ⟨s₁, rs⟩, _, hk, h⟩ := h
    simp only [Expr.effects, Effects.below_union] at hb
    obtain ⟨more, each⟩ := exprs_within args hparts hb.1
    obtain ⟨more', hs, values⟩ := keepAll_within hk each
    have call {m : Temp} (le : _ ≤ m) : (Expr.call label rs).effects.Below m :=
      Effects.below_union.2 ⟨values.mono le, by simp [Effects.Below]⟩
    cases whole with
    | true =>
      simp only [↓reduceIte, pure_eq_ok, Prod.mk.injEq] at h
      obtain ⟨⟨rfl, rfl⟩, rfl⟩ := h
      exact ⟨more.trans more', hs, call (Nat.le_refl _)⟩
    | false =>
      simp only [Bool.false_eq_true, ↓reduceIte, bind_eq_ok, pure_eq_ok, Prod.mk.injEq] at h
      obtain ⟨t, _, hfresh, ⟨rfl, rfl⟩, rfl⟩ := h
      obtain ⟨more'', lt⟩ := fresh_extends hfresh
      refine ⟨(more.trans more').trans more'', ?_, by simp [Expr.effects, Effects.Below, lt]⟩
      exact below_andThen (hs.mono more''.le) (below_move_temp lt (call more''.le))
  | .eseq st e, _, _, _, _, _, h, hb => by
    simp only [expr, bind_eq_ok, pure_eq_ok, Prod.mk.injEq] at h
    obtain ⟨before, _, hst, ⟨s₁, r₁⟩, _, he, ⟨rfl, rfl⟩, rfl⟩ := h
    simp only [Expr.effects, Effects.below_union] at hb
    obtain ⟨more, hbefore⟩ := stmt_within st hst hb.1.1
    obtain ⟨more', within⟩ := expr_within e he (hb.1.2.mono more.le)
    exact ⟨more.trans more', below_andThen (hbefore.mono more'.le) within.1, within.2⟩

theorem exprs_within : (es : List Expr) → ∀ {n parts n'}, exprs es n = .ok parts n' →
    (Expr.effectsList es).Below n → Extends n n' ∧ ∀ part ∈ parts, Within n' part
  | [], _, _, _, h, _ => by
    cases h
    exact ⟨.refl _, by simp⟩
  | e :: es, _, _, _, h, hb => by
    simp only [exprs, bind_eq_ok, pure_eq_ok] at h
    obtain ⟨⟨s, r⟩, _, he, rest, _, hes, rfl, rfl⟩ := h
    simp only [Expr.effectsList, Effects.below_union] at hb
    obtain ⟨more, first⟩ := expr_within e he hb.1
    obtain ⟨more', others⟩ := exprs_within es hes (hb.2.mono more.le)
    exact ⟨more.trans more', List.forall_mem_cons.2 ⟨first.mono more'.le, others⟩⟩

theorem stmt_within : (st : Stmt) → ∀ {n s n'}, stmt st n = .ok s n' → st.effects.Below n →
    Extends n n' ∧ s.effects.Below n'
  | .seq ss, _, _, _, h, hb => by
    simp only [stmt, bind_eq_ok, pure_eq_ok] at h
    obtain ⟨ss', _, hss, rfl, rfl⟩ := h
    exact stmts_within ss hss hb
  | .jump _, _, _, _, h, hb | .label _, _, _, _, h, hb => by
    cases h
    exact ⟨.refl _, hb⟩
  | .cjump c l k, _, _, _, h, hb => by
    simp only [stmt, bind_eq_ok, pure_eq_ok] at h
    obtain ⟨⟨s₁, r⟩, _, hc, rfl, rfl⟩ := h
    simp only [Stmt.effects, Effects.below_union] at hb
    obtain ⟨more, within⟩ := expr_within c hc hb.1
    refine ⟨more, below_andThen within.1 (Effects.below_union.2 ⟨within.2, ?_⟩)⟩
    simp [Effects.Below]
  | .move dst src, _, _, _, h, hb => by
    simp only [stmt] at h
    have ⟨hd, hs⟩ := below_move.1 hb
    exact move_within dst h hd (fun le k => expr_within src k (hs.mono le))
      (fun le k => expr_within src k (hs.mono le))
  | .eval e, _, _, _, h, hb => by
    simp only [stmt, bind_eq_ok, pure_eq_ok] at h
    obtain ⟨⟨s₁, r⟩, _, he, rfl, rfl⟩ := h
    obtain ⟨more, within⟩ := expr_within e he hb
    by_cases leaf : r.isLeaf = true
    · simpa only [leaf, ↓reduceIte] using ⟨more, within.1⟩
    · simpa only [leaf, Bool.false_eq_true, ↓reduceIte] using ⟨more,
        below_andThen within.1 within.2⟩

theorem stmts_within : (ss : List Stmt) → ∀ {n ss' n'}, stmts ss n = .ok ss' n' →
    (Stmt.effectsList ss).Below n → Extends n n' ∧ (Stmt.effectsList ss').Below n'
  | [], _, _, _, h, hb => by
    cases h
    exact ⟨.refl _, hb⟩
  | s :: ss, _, _, _, h, hb => by
    simp only [stmts, bind_eq_ok, pure_eq_ok] at h
    obtain ⟨first, _, hs, rest, _, hss, rfl, rfl⟩ := h
    simp only [Stmt.effectsList, Effects.below_union] at hb
    obtain ⟨more, hfirst⟩ := stmt_within s hs hb.1
    obtain ⟨more', hrest⟩ := stmts_within ss hss (hb.2.mono more.le)
    exact ⟨more.trans more', Effects.below_union.2 ⟨hfirst.mono more'.le, hrest⟩⟩

theorem move_within : (dst : Expr) → ∀ {call value n s n'}, move call value dst n = .ok s n' →
    dst.effects.Below n →
    (∀ {m s r m'}, n ≤ m → call m = .ok (s, r) m' → Extends m m' ∧ Within m' (s, r)) →
    (∀ {m s r m'}, n ≤ m → value m = .ok (s, r) m' → Extends m m' ∧ Within m' (s, r)) →
    Extends n n' ∧ s.effects.Below n'
  | .temp t, _, _, _, _, _, h, hb, hc, _ => by
    simp only [move, bind_eq_ok, pure_eq_ok] at h
    obtain ⟨⟨s₁, r⟩, _, hcall, rfl, rfl⟩ := h
    obtain ⟨more, within⟩ := hc (Nat.le_refl _) hcall
    exact ⟨more, below_andThen within.1 (below_move.2 ⟨hb.mono more.le, within.2⟩)⟩
  | .mem a, _, _, _, _, _, h, hb, _, hv => by
    simp only [move, bind_eq_ok, pure_eq_ok] at h
    obtain ⟨⟨s₁, r₁⟩, _, ha, ⟨s₂, r₂⟩, _, hval, ⟨s₃, a', src⟩, _, hk, rfl, rfl⟩ := h
    obtain ⟨more, address⟩ := expr_within a ha hb
    obtain ⟨more', source⟩ := hv more.le hval
    obtain ⟨more'', hs, ha', hsrc⟩ := keepBoth_within hk (address.mono more'.le) source
    exact ⟨(more.trans more').trans more'', below_andThen hs (below_move.2 ⟨ha', hsrc⟩)⟩
  | .eseq st e, _, _, _, _, _, h, hb, hc, hv => by
    simp only [move, bind_eq_ok, pure_eq_ok] at h
    obtain ⟨before, _, hst, rest, _, he, rfl, rfl⟩ := h
    simp only [Expr.effects, Effects.below_union] at hb
    obtain ⟨more, hbefore⟩ := stmt_within st hst hb.1.1
    obtain ⟨more', hrest⟩ := move_within e he (hb.1.2.mono more.le)
      (fun le => hc (Nat.le_trans more.le le)) (fun le => hv (Nat.le_trans more.le le))
    refine ⟨more.trans more', ?_⟩
    simp [Stmt.effects, Stmt.effectsList, hbefore.mono more'.le, hrest]
  | .const _, _, _, _, _, _, h, _, _, _ | .data _, _, _, _, _, _, h, _, _, _
  | .binop _ _ _, _, _, _, _, _, h, _, _, _ | .call _ _, _, _, _, _, _, h, _, _, _
  | .checkIndex _ _, _, _, _, _, _, h, _, _, _ => by simp [move, throw_apply] at h

end

theorem linearize_below (h : linearize body = .ok ss) : (Stmt.seq ss).effects.Below Temp.last := by
  simp only [linearize, except_bind_eq_ok] at h
  obtain ⟨n, hn, h⟩ := h
  split at h
  · next s n' split =>
    cases h
    obtain ⟨more, below⟩ := stmt_within body split (firstFree_below hn).2
    have below := Stmt.flatten_below s (below.mono (more.last (firstFree_le_last hn)))
    exact Stmt.effectsList_below.2 fun st hst => below st (List.mem_filter.1 hst).1
  · cases h

/-! ## Fixed points -/

/-- What comes out of splitting is canonical and not idle. -/
theorem linearize_canonical (h : linearize body = .ok ss) :
    ∀ s ∈ ss, s.isCanonical = true ∧ isIdle s = false := by
  simp only [linearize, except_bind_eq_ok] at h
  obtain ⟨n, -, h⟩ := h
  split at h
  · next s n' split =>
    cases h
    intro st hst
    exact ⟨stmt_canonical body split st hst, by simpa using (List.mem_filter.1 hst).2⟩
  · cases h

theorem linearize_of_canonical (small : (Stmt.seq ss).effects.Below Temp.last)
    (h : ∀ s ∈ ss, s.isCanonical = true ∧ isIdle s = false) : linearize (.seq ss) = .ok ss := by
  obtain ⟨n, hn⟩ := firstFree_of_below small
  have split : stmt (.seq ss) n = .ok (.seq ss) n := by
    rw [stmt, bind_apply, stmts_of_isCanonical h]
    rfl
  have code : (Stmt.seq ss).code = ss := codeList_of_isCanonical h
  simp only [linearize, hn, bind, Except.bind, split]
  exact congrArg Except.ok code

theorem linearize_eq_self_iff (small : (Stmt.seq ss).effects.Below Temp.last) :
    linearize (.seq ss) = .ok ss ↔ ∀ s ∈ ss, s.isCanonical = true ∧ isIdle s = false :=
  ⟨linearize_canonical, linearize_of_canonical small⟩

end Canonical

theorem Chunk.recanonical_eq_ok {c : Chunk (List Stmt)} :
    c.recanonical = .ok c' ↔ c'.frame = c.frame ∧
      Canonical.linearize (.seq c.body) = .ok c'.body := by
  simp only [Chunk.recanonical, except_bind_eq_ok, pure, Except.pure, Except.ok.injEq]
  constructor
  · rintro ⟨body, h, rfl⟩
    exact ⟨rfl, h⟩
  · rintro ⟨frame, h⟩
    exact ⟨c'.body, h, by rw [← frame]⟩

theorem Chunk.canonical_eq_ok {c : Chunk Stmt} :
    c.canonical = .ok c' ↔ c'.frame = c.frame ∧ Canonical.linearize c.body = .ok c'.body := by
  simp only [Chunk.canonical, except_bind_eq_ok, pure, Except.pure, Except.ok.injEq]
  constructor
  · rintro ⟨body, h, rfl⟩
    exact ⟨rfl, h⟩
  · rintro ⟨frame, h⟩
    exact ⟨c'.body, h, by rw [← frame]⟩

/-- **Splitting stops after one pass.** A chunk whose temporaries all have a successor is a fixed
point exactly if it is canonical and no statement of it evaluates a leaf. Every chunk that splitting
gives is one. -/
theorem recanonical_fixed_points :
    (∀ c : Chunk (List Stmt), (Stmt.seq c.body).effects.Below Temp.last →
      (c.recanonical = .ok c ↔ c.isCanonical = true ∧ ∀ e, .eval e ∈ c.body → e.isLeaf = false)) ∧
    ∀ (c : Chunk Stmt) (l : Chunk (List Stmt)), c.canonical = .ok l → l.recanonical = .ok l := by
  constructor
  · intro c small
    rw [Chunk.recanonical_eq_ok, Canonical.linearize_eq_self_iff small, forall₂_and,
      Chunk.isCanonical, List.all_eq_true]
    have busy : (∀ s ∈ c.body, Canonical.isIdle s = false) ↔
        ∀ e, .eval e ∈ c.body → e.isLeaf = false := by
      refine ⟨fun h e he => h _ he, fun h s hs => ?_⟩
      cases s with
      | eval e => exact h e hs
      | _ => rfl
    rw [busy]
    exact and_iff_right rfl
  · intro c l h
    obtain ⟨-, body⟩ := Chunk.canonical_eq_ok.1 h
    refine Chunk.recanonical_eq_ok.2 ⟨rfl, ?_⟩
    exact Canonical.linearize_of_canonical (Canonical.linearize_below body)
      (Canonical.linearize_canonical body)

/-- A word is read before a call in the operand to its right changes it. -/
def readThenCall : Chunk Stmt where
  frame := { label := "f", depth := 1, parameterCount := 0, parametersSize := 8 }
  body := .seq [.eval (.const (.int 9)), .move (.temp Temp.rv)
    (.binop .add (.mem (.temp Temp.fp)) (.call "g" [.temp Temp.fp, .call "h" [.const (.int 0)]]))]

theorem recanonical_fixed_points_readThenCall :
    ∃ l, readThenCall.canonical = .ok l ∧ l.body.length = 4 ∧ l.recanonical = .ok l ∧
      (Stmt.seq l.body).effects.Below Temp.last ∧
      l.isCanonical = true ∧ ∀ e, .eval e ∈ l.body → e.isLeaf = false := by
  have canonical : readThenCall.canonical = .ok _ := rfl
  obtain ⟨exact, again⟩ := recanonical_fixed_points
  have fixed := again _ _ canonical
  have small := Canonical.linearize_below (Chunk.canonical_eq_ok.1 canonical).2
  exact ⟨_, canonical, rfl, fixed, small, (exact _ small).1 fixed⟩

end PinsBackend.Ir
