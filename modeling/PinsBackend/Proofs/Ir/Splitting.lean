import PinsBackend.Proofs.Ir.Events
import PinsBackend.Proofs.Monad

/-! What splitting code gives, apart from its meaning: fresh temporaries, and the same events in the
same order. -/
namespace PinsBackend.Ir

namespace Effects

/-- `a` does nothing that `b` may not do. -/
structure Le (a b : Effects) : Prop where
  call : a.call = true → b.call = true
  store : a.store = true → b.store = true
  trap : a.trap = true → b.trap = true
  jump : a.jump = true → b.jump = true
  writes : ∀ t ∈ a.writes, t ∈ b.writes

theorem Le.refl (a : Effects) : a.Le a := ⟨id, id, id, id, fun _ h => h⟩

theorem Le.trans {a b c : Effects} (h : a.Le b) (k : b.Le c) : a.Le c :=
  ⟨k.call ∘ h.call, k.store ∘ h.store, k.trap ∘ h.trap, k.jump ∘ h.jump,
    fun t ht => k.writes t (h.writes t ht)⟩

theorem le_union_left (a b : Effects) : a.Le (a ∪ b) := by
  constructor <;> simp +contextual

theorem le_union_right (a b : Effects) : b.Le (a ∪ b) := by
  constructor <;> simp +contextual

theorem empty_le (a : Effects) : Le {} a := by
  constructor <;> simp

theorem union_le {a b c : Effects} (h : a.Le c) (k : b.Le c) : (a ∪ b).Le c := by
  constructor
  · intro hc
    rcases Bool.or_eq_true_iff.1 hc with hc | hc
    · exact h.call hc
    · exact k.call hc
  · intro hc
    rcases Bool.or_eq_true_iff.1 hc with hc | hc
    · exact h.store hc
    · exact k.store hc
  · intro hc
    rcases Bool.or_eq_true_iff.1 hc with hc | hc
    · exact h.trap hc
    · exact k.trap hc
  · intro hc
    rcases Bool.or_eq_true_iff.1 hc with hc | hc
    · exact h.jump hc
    · exact k.jump hc
  · intro t ht
    rcases List.mem_append.1 ht with ht | ht
    · exact h.writes t ht
    · exact k.writes t ht

/-- Only temporaries below `n` are mentioned. -/
def Below (n : Temp) (fx : Effects) : Prop :=
  (∀ t ∈ fx.reads, t < n) ∧ ∀ t ∈ fx.writes, t < n

@[simp] theorem below_union {n : Temp} {a b : Effects} :
    (a ∪ b).Below n ↔ a.Below n ∧ b.Below n := by
  simp only [Below, union_reads, union_writes, List.mem_append]
  constructor
  · rintro ⟨hr, hw⟩
    exact ⟨⟨fun t h => hr t (.inl h), fun t h => hw t (.inl h)⟩,
      ⟨fun t h => hr t (.inr h), fun t h => hw t (.inr h)⟩⟩
  · rintro ⟨⟨hr, hw⟩, ⟨hr', hw'⟩⟩
    exact ⟨fun t h => h.elim (hr t) (hr' t), fun t h => h.elim (hw t) (hw' t)⟩

@[simp] theorem below_empty (n : Temp) : Below n {} := by simp [Below]

theorem Below.mono {n m : Temp} {fx : Effects} (h : fx.Below n) (le : n ≤ m) : fx.Below m :=
  ⟨fun t ht => Nat.lt_of_lt_of_le (h.1 t ht) le, fun t ht => Nat.lt_of_lt_of_le (h.2 t ht) le⟩

end Effects

namespace Stmt

mutual

theorem flatten_le : (s : Stmt) → ∀ st ∈ s.flatten, st.effects.Le s.effects
  | .seq ss => by simpa [flatten, effects] using flattenList_le ss
  | .move _ _ | .eval _ | .jump _ | .cjump _ _ _ | .label _ => by
    intro st h
    simp only [flatten, List.mem_singleton] at h
    exact h ▸ .refl _

theorem flattenList_le : (ss : List Stmt) → ∀ st ∈ flattenList ss, st.effects.Le (effectsList ss)
  | [] => by simp [flattenList]
  | s :: ss => by
    intro st h
    simp only [flattenList, List.mem_append] at h
    rcases h with h | h
    · exact (flatten_le s st h).trans (Effects.le_union_left _ _)
    · exact (flattenList_le ss st h).trans (Effects.le_union_right _ _)

end

theorem effectsList_below {n : Temp} {ss : List Stmt} :
    (effectsList ss).Below n ↔ ∀ st ∈ ss, st.effects.Below n := by
  induction ss with
  | nil => simp [effectsList]
  | cons s ss ih => simp [effectsList, ih]

mutual

theorem flatten_below {n : Temp} : (s : Stmt) → s.effects.Below n →
    ∀ st ∈ s.flatten, st.effects.Below n
  | .seq ss, h => flattenList_below ss h
  | .move _ _, h | .eval _, h | .jump _, h | .cjump _ _ _, h | .label _, h => by
    simpa [flatten] using h

theorem flattenList_below {n : Temp} : (ss : List Stmt) → (effectsList ss).Below n →
    ∀ st ∈ flattenList ss, st.effects.Below n
  | [], _ => by simp [flattenList]
  | s :: ss, h => by
    simp only [effectsList, Effects.below_union] at h
    intro st hst
    simp only [flattenList, List.mem_append] at hst
    exact hst.elim (flatten_below s h.1 st) (flattenList_below ss h.2 st)

end

theorem code_le {s st : Stmt} (h : st ∈ s.code) : st.effects.Le s.effects :=
  flatten_le s st (List.mem_filter.1 h).1

mutual

theorem effects_of_isNop : (s : Stmt) → s.isNop = true → s.effects.Le {}
  | .seq ss, h => effectsList_of_allNop ss (by simpa [isNop] using h)
  | .move _ _, h | .eval _, h | .jump _, h | .cjump _ _ _, h | .label _, h => by simp [isNop] at h

theorem effectsList_of_allNop : (ss : List Stmt) → allNop ss = true → (effectsList ss).Le {}
  | [], _ => .refl _
  | s :: ss, h => by
    simp only [allNop, Bool.and_eq_true] at h
    exact Effects.union_le (effects_of_isNop s h.1) (effectsList_of_allNop ss h.2)

end

theorem andThen_le {a b : Stmt} {fx : Effects} (h : a.effects.Le fx) (k : b.effects.Le fx) :
    (a.andThen b).effects.Le fx := by
  unfold andThen
  split
  · exact k
  · split
    · exact h
    · exact Effects.union_le h (Effects.union_le k (Effects.empty_le _))

theorem mem_writes_andThen {a b : Stmt} {t : Temp} (h : t ∈ (a.andThen b).effects.writes) :
    t ∈ a.effects.writes ∨ t ∈ b.effects.writes := by
  have le : (a.andThen b).effects.Le (a.effects ∪ b.effects) :=
    andThen_le (Effects.le_union_left _ _) (Effects.le_union_right _ _)
  simpa using le.writes t h

end Stmt

namespace Canonical

variable {m : Temp}

/-- What is left of an operand when its statement was lifted out. -/
structure Residual (r : Expr) : Prop where
  events : r.events = []
  writes : r.effects.writes = []

theorem Residual.temp (t : Temp) : Residual (.temp t) := ⟨rfl, rfl⟩

variable {r : Expr} {n n' : Temp} {s : Stmt} {parts : List (Stmt × Expr)} {events : List Event}
  {rs : List Expr}

theorem Residual.ne_call (h : Residual r) (l : String) (args : List Expr) : r ≠ .call l args := by
  rintro rfl
  simpa [Expr.events] using h.events

def WritesBelow (n : Temp) (s : Stmt) : Prop := ∀ t ∈ s.effects.writes, t < n

theorem WritesBelow.mono (h : WritesBelow n s) (le : n ≤ m) :
    WritesBelow m s := fun t ht => Nat.lt_of_lt_of_le (h t ht) le

theorem WritesBelow.nop (n : Temp) : WritesBelow n .nop := by
  simp [WritesBelow, Stmt.nop, Stmt.effects, Stmt.effectsList]

theorem WritesBelow.andThen {a b : Stmt} (ha : WritesBelow n a) (hb : WritesBelow n b) :
    WritesBelow n (a.andThen b) := fun t ht =>
  (Stmt.mem_writes_andThen ht).elim (ha t) (hb t)

theorem WritesBelow.move {t : Temp} (ht : t < n) (h : r.effects.writes = []) :
    WritesBelow n (.move (.temp t) r) := by
  simp [WritesBelow, Stmt.effects, h, ht]

theorem fresh_eq_ok {t : Temp} : fresh n = .ok t n' ↔ n < Temp.last ∧ t = n ∧ n' = n + 1 := by
  unfold fresh
  split
  · next h => simp [h, eq_comm]
  · next h => simp [h]

/-- The two ways to put a statement behind an operand. -/
theorem keep_cases {s r after s' r' n n'} (h : keep (s, r) after n = .ok (s', r') n') :
    (commutes after r = true ∧ s' = s.andThen after ∧ r' = r ∧ n' = n) ∨
    (commutes after r = false ∧
      s' = s.andThen ((Stmt.move (.temp n) r).andThen after) ∧ r' = .temp n ∧ n' = n + 1) := by
  unfold keep at h
  split at h
  · next c =>
    simp only [pure_eq_ok, Prod.mk.injEq] at h
    obtain ⟨⟨rfl, rfl⟩, rfl⟩ := h
    exact .inl ⟨c, rfl, rfl, rfl⟩
  · next c =>
    simp only [bind_eq_ok, fresh_eq_ok, pure_eq_ok, Prod.mk.injEq] at h
    obtain ⟨t, m, ⟨-, rfl, rfl⟩, ⟨rfl, rfl⟩, rfl⟩ := h
    exact .inr ⟨by simpa using c, rfl, rfl, rfl⟩

/-- What holds of a statement and the residual operands it prepares. -/
structure Prepares (n n' : Temp) (events : List Event) (s : Stmt) : Prop where
  le : n ≤ n'
  writes : WritesBelow n' s
  events : s.events = events

theorem keep_prepares {s r after s' r' n n'} (h : keep (s, r) after n = .ok (s', r') n')
    (hs : WritesBelow n s) (hr : Residual r) (ha : WritesBelow n after) :
    Prepares n n' (s.events ++ after.events) s' ∧ Residual r' := by
  rcases keep_cases h with ⟨-, rfl, rfl, rfl⟩ | ⟨-, rfl, rfl, rfl⟩
  · exact ⟨⟨Nat.le_refl _, hs.andThen ha, Stmt.events_andThen _ _⟩, hr⟩
  · have move : WritesBelow (n + 1) (.move (.temp n) r) := .move (Nat.lt_succ_self n) hr.writes
    refine ⟨⟨Nat.le_succ n, ?_, ?_⟩, .temp n⟩
    · exact (hs.mono (Nat.le_succ n)).andThen (move.andThen (ha.mono (Nat.le_succ n)))
    · simp [Stmt.events_andThen, Stmt.events, Expr.events, hr.events]

theorem keepAll_prepares {n s rs n'} (h : keepAll parts n = .ok (s, rs) n')
    (hp : ∀ part ∈ parts, WritesBelow n part.1 ∧ Residual part.2) :
    Prepares n n' (parts.flatMap fun part => part.1.events) s ∧ ∀ r ∈ rs, Residual r := by
  induction parts generalizing s rs n' with
  | nil =>
    simp only [keepAll, pure_eq_ok, Prod.mk.injEq] at h
    obtain ⟨⟨rfl, rfl⟩, rfl⟩ := h
    exact ⟨⟨Nat.le_refl _, .nop _, rfl⟩, by simp⟩
  | cons part parts ih =>
    simp only [keepAll, bind_eq_ok, pure_eq_ok, Prod.mk.injEq] at h
    obtain ⟨⟨after, values⟩, m, hrest, ⟨before, value⟩, m', hkeep, ⟨rfl, rfl⟩, rfl⟩ := h
    have ⟨hs, hr⟩ := hp part (by simp)
    have ⟨rest, hvalues⟩ := ih hrest fun q hq => hp q (by simp [hq])
    have ⟨first, hvalue⟩ := keep_prepares hkeep (hs.mono rest.le) hr rest.writes
    refine ⟨⟨Nat.le_trans rest.le first.le, first.writes, ?_⟩, ?_⟩
    · rw [first.events, rest.events, List.flatMap_cons]
    · intro r hr
      rcases List.mem_cons.1 hr with rfl | hr
      · exact hvalue
      · exact hvalues r hr

theorem keepAll_one {part : Stmt × Expr} {s r n n'} (h : keep part .nop n = .ok (s, r) n') :
    keepAll [part] n = .ok (s, [r]) n' := by
  simp only [keepAll, bind_eq_ok, pure_eq_ok, Prod.mk.injEq]
  exact ⟨_, _, ⟨rfl, rfl⟩, _, _, h, ⟨rfl, rfl⟩, rfl⟩

theorem keepAll_two {left right : Stmt × Expr} {s l r n n'}
    (h : keepBoth left right n = .ok (s, l, r) n') :
    keepAll [left, right] n = .ok (s, [l, r]) n' := by
  simp only [keepBoth, bind_eq_ok, pure_eq_ok, Prod.mk.injEq] at h
  obtain ⟨⟨after, r'⟩, m, hright, ⟨before, l'⟩, m', hleft, ⟨rfl, rfl, rfl⟩, rfl⟩ := h
  rw [keepAll, bind_eq_ok]
  exact ⟨_, _, keepAll_one hright, by
    simp only [bind_eq_ok, pure_eq_ok]; exact ⟨_, _, hleft, rfl, rfl⟩⟩

/-- What holds of an expression that was split. With `whole` a call may be left. -/
structure Splits (whole : Bool) (n n' : Temp) (events : List Event) (s : Stmt) (r : Expr) :
    Prop where
  le : n ≤ n'
  writes : WritesBelow n' s
  events : s.events ++ r.events = events
  still : r.effects.writes = []
  residual : whole = false → r.events = []

theorem Splits.leaf {whole : Bool} {e : Expr} (h : e.isLeaf = true) :
    Splits whole n n e.events .nop e := by
  refine ⟨Nat.le_refl _, .nop _, rfl, ?_, fun _ => ?_⟩
  · cases e <;> simp_all [Expr.isLeaf, Expr.effects]
  · cases e <;> simp_all [Expr.isLeaf, Expr.events]

theorem Splits.toResidual (h : Splits false n n' events s r) : Residual r :=
  ⟨h.residual rfl, h.still⟩

theorem Splits.events_stmt (h : Splits false n n' events s r) : s.events = events := by
  rw [← h.events, h.residual rfl, List.append_nil]

/-- What holds of a list of operands that were split. -/
structure SplitsAll (n n' : Temp) (events : List Event) (parts : List (Stmt × Expr)) :
    Prop where
  le : n ≤ n'
  each : ∀ part ∈ parts, WritesBelow n' part.1 ∧ Residual part.2
  events : (parts.flatMap fun part => part.1.events) = events

theorem Splits.one (h : Splits false n n' events s r) : SplitsAll n n' events [(s, r)] :=
  ⟨h.le, by simpa using ⟨h.writes, h.toResidual⟩, by simpa using h.events_stmt⟩

theorem Splits.cons {events' : List Event} (h : Splits false n m events s r)
    (k : SplitsAll m n' events' parts) : SplitsAll n n' (events ++ events') ((s, r) :: parts) := by
  refine ⟨Nat.le_trans h.le k.le, ?_, ?_⟩
  · intro part hp
    rcases List.mem_cons.1 hp with rfl | hp
    · exact ⟨h.writes.mono k.le, h.toResidual⟩
    · exact k.each part hp
  · rw [List.flatMap_cons, h.events_stmt, k.events]

/-- Operands that were split and then kept in order. -/
theorem SplitsAll.keepAll (h : SplitsAll n m events parts) (k : keepAll parts m = .ok (s, rs) n') :
    Prepares n n' events s ∧ ∀ r ∈ rs, Residual r := by
  have ⟨p, hr⟩ := keepAll_prepares k h.each
  exact ⟨⟨Nat.le_trans h.le p.le, p.writes, p.events.trans h.events⟩, hr⟩

theorem effectsList_writes (h : ∀ r ∈ rs, Residual r) : (Expr.effectsList rs).writes = [] := by
  induction rs with
  | nil => rfl
  | cons r rs ih =>
    simp [Expr.effectsList, (h r (by simp)).writes, ih fun q hq => h q (by simp [hq])]

theorem eventsList_residual (h : ∀ r ∈ rs, Residual r) : Expr.eventsList rs = [] := by
  rw [Expr.eventsList_eq, List.flatMap_eq_nil_iff]
  exact fun r hr => (h r hr).events

theorem below_move {dst src : Expr} :
    (Stmt.move dst src).effects.Below n ↔ dst.effects.Below n ∧ src.effects.Below n := by
  cases dst with
  | temp t => simp [Stmt.effects, Expr.effects, Effects.Below, and_left_comm]
  | mem a =>
    have store : ({ store := true } : Effects).Below n := by simp [Effects.Below]
    simp [Stmt.effects, Expr.effects, store]
  | _ => simp only [Stmt.effects, Effects.below_union]

mutual

theorem expr_splits : (e : Expr) → ∀ {whole n s r n'}, expr whole e n = .ok (s, r) n' →
    e.effects.Below n → Splits whole n n' e.events s r
  | .const _, whole, n, s, r, n', h, _ | .data _, whole, n, s, r, n', h, _
  | .temp _, whole, n, s, r, n', h, _ => by
    simp only [expr, pure_eq_ok, Prod.mk.injEq] at h
    obtain ⟨⟨rfl, rfl⟩, rfl⟩ := h
    exact .leaf rfl
  | .mem a, whole, n, s, r, n', h, hb => by
    simp only [expr, bind_eq_ok, pure_eq_ok, Prod.mk.injEq] at h
    obtain ⟨⟨s₁, r₁⟩, m, ha, ⟨s₂, r₂⟩, m', hk, ⟨rfl, rfl⟩, rfl⟩ := h
    have ⟨p, hr⟩ := (expr_splits a ha hb).one.keepAll (keepAll_one hk)
    have hr₂ := hr r₂ (by simp)
    exact ⟨p.le, p.writes, by simp [Expr.events, p.events, hr₂.events],
      by simpa [Expr.effects] using hr₂.writes, fun _ => by simp [Expr.events, hr₂.events]⟩
  | .checkIndex i k, whole, n, s, r, n', h, hb => by
    simp only [expr, bind_eq_ok, pure_eq_ok, Prod.mk.injEq] at h
    obtain ⟨⟨s₁, r₁⟩, m, ha, ⟨s₂, r₂⟩, m', hk, ⟨rfl, rfl⟩, rfl⟩ := h
    simp only [Expr.effects, Effects.below_union] at hb
    have ⟨p, hr⟩ := (expr_splits i ha hb.1).one.keepAll (keepAll_one hk)
    have hr₂ := hr r₂ (by simp)
    exact ⟨p.le, p.writes, by simp [Expr.events, p.events, hr₂.events],
      by simpa [Expr.effects] using hr₂.writes, fun _ => by simp [Expr.events, hr₂.events]⟩
  | .binop op l r, whole, n, s, res, n', h, hb => by
    simp only [expr, bind_eq_ok, pure_eq_ok, Prod.mk.injEq] at h
    obtain ⟨⟨s₁, r₁⟩, m₁, hl, ⟨s₂, r₂⟩, m₂, hr, ⟨s₃, l', r'⟩, m₃, hk, ⟨rfl, rfl⟩, rfl⟩ := h
    simp only [Expr.effects, Effects.below_union] at hb
    have left := expr_splits l hl hb.1.1
    have right := expr_splits r hr (hb.1.2.mono left.le)
    have ⟨p, res⟩ := (left.cons right.one).keepAll (keepAll_two hk)
    have hl' := res l' (by simp)
    have hr' := res r' (by simp)
    exact ⟨p.le, p.writes, by simp [Expr.events, p.events, hl'.events, hr'.events],
      by simp [Expr.effects, hl'.writes, hr'.writes],
      fun _ => by simp [Expr.events, hl'.events, hr'.events]⟩
  | .call label args, whole, n, s, r, n', h, hb => by
    simp only [expr, bind_eq_ok] at h
    obtain ⟨parts, m, hargs, ⟨s₁, rs⟩, m₁, hk, h⟩ := h
    simp only [Expr.effects, Effects.below_union] at hb
    have ⟨p, res⟩ := (exprs_splits args hargs hb.1).keepAll hk
    cases whole with
    | true =>
      simp only [↓reduceIte, pure_eq_ok, Prod.mk.injEq] at h
      obtain ⟨⟨rfl, rfl⟩, rfl⟩ := h
      exact ⟨p.le, p.writes, by simp [Expr.events, p.events, eventsList_residual res],
        by simp [Expr.effects, effectsList_writes res], by simp⟩
    | false =>
      simp only [Bool.false_eq_true, ↓reduceIte, bind_eq_ok, fresh_eq_ok, pure_eq_ok,
        Prod.mk.injEq] at h
      obtain ⟨t, m₂, ⟨-, rfl, rfl⟩, ⟨rfl, rfl⟩, rfl⟩ := h
      have move : WritesBelow (t + 1) (.move (.temp t) (.call label rs)) :=
        .move (Nat.lt_succ_self _) (by simp [Expr.effects, effectsList_writes res])
      refine ⟨Nat.le_trans p.le (Nat.le_succ _),
        (p.writes.mono (Nat.le_succ _)).andThen move, ?_, rfl, fun _ => rfl⟩
      simp [Stmt.events_andThen, Stmt.events, Expr.events, p.events, eventsList_residual res]
  | .eseq st e, whole, n, s, r, n', h, hb => by
    simp only [expr, bind_eq_ok, pure_eq_ok, Prod.mk.injEq] at h
    obtain ⟨before, m, hst, ⟨s₁, r₁⟩, m₁, he, ⟨rfl, rfl⟩, rfl⟩ := h
    simp only [Expr.effects, Effects.below_union] at hb
    have first := stmt_splits st hst hb.1.1
    have second := expr_splits e he (hb.1.2.mono first.le)
    refine ⟨Nat.le_trans first.le second.le,
      (first.writes.mono second.le).andThen second.writes, ?_, second.still, second.residual⟩
    rw [Stmt.events_andThen, List.append_assoc, second.events, first.events, Expr.events]

theorem exprs_splits : (es : List Expr) → ∀ {n parts n'}, exprs es n = .ok parts n' →
    (Expr.effectsList es).Below n → SplitsAll n n' (Expr.eventsList es) parts
  | [], n, parts, n', h, _ => by
    simp only [exprs, pure_eq_ok] at h
    obtain ⟨rfl, rfl⟩ := h
    exact ⟨Nat.le_refl _, by simp, rfl⟩
  | e :: es, n, parts, n', h, hb => by
    simp only [exprs, bind_eq_ok, pure_eq_ok] at h
    obtain ⟨⟨s, r⟩, m, he, rest, m', hes, rfl, rfl⟩ := h
    simp only [Expr.effectsList, Effects.below_union] at hb
    have first := expr_splits e he hb.1
    exact first.cons (exprs_splits es hes (hb.2.mono first.le))

theorem stmt_splits : (st : Stmt) → ∀ {n s n'}, stmt st n = .ok s n' →
    st.effects.Below n → Prepares n n' st.events s
  | .seq ss, n, s, n', h, hb => by
    simp only [stmt, bind_eq_ok, pure_eq_ok] at h
    obtain ⟨ss', m, hss, rfl, rfl⟩ := h
    exact stmts_splits ss hss hb
  | .jump l, n, s, n', h, _ | .label l, n, s, n', h, _ => by
    simp only [stmt, pure_eq_ok] at h
    obtain ⟨rfl, rfl⟩ := h
    exact ⟨Nat.le_refl _, by simp [WritesBelow, Stmt.effects], rfl⟩
  | .cjump c l k, n, s, n', h, hb => by
    simp only [stmt, bind_eq_ok, pure_eq_ok] at h
    obtain ⟨⟨s₁, r⟩, m, hc, rfl, rfl⟩ := h
    simp only [Stmt.effects, Effects.below_union] at hb
    have split := expr_splits c hc hb.1
    refine ⟨split.le, split.writes.andThen ?_, ?_⟩
    · simp [WritesBelow, Stmt.effects, split.still]
    · simp [Stmt.events_andThen, Stmt.events, split.events_stmt, split.residual rfl]
  | .move dst src, n, s, n', h, hb => by
    simp only [stmt] at h
    have ⟨hd, hs⟩ := below_move.1 hb
    exact move_splits dst h hd (fun m _ _ _ hm k => expr_splits src k (hs.mono hm))
      (fun m _ _ _ hm k => expr_splits src k (hs.mono hm))
  | .eval e, n, s, n', h, hb => by
    simp only [stmt, bind_eq_ok, pure_eq_ok] at h
    obtain ⟨⟨s₁, r⟩, m, he, rfl, rfl⟩ := h
    have split := expr_splits e he hb
    by_cases leaf : r.isLeaf
    · have none : r.events = [] := by cases r <;> simp_all [Expr.isLeaf, Expr.events]
      simp only [leaf, ↓reduceIte]
      exact ⟨split.le, split.writes, by rw [Stmt.events, ← split.events, none, List.append_nil]⟩
    · simp only [leaf, Bool.false_eq_true, ↓reduceIte]
      refine ⟨split.le, split.writes.andThen ?_, ?_⟩
      · simp [WritesBelow, Stmt.effects, split.still]
      · rw [Stmt.events_andThen, Stmt.events, split.events, Stmt.events]

theorem stmts_splits : (ss : List Stmt) → ∀ {n ss' n'}, stmts ss n = .ok ss' n' →
    (Stmt.effectsList ss).Below n → Prepares n n' (Stmt.eventsList ss) (.seq ss')
  | [], n, ss', n', h, _ => by
    simp only [stmts, pure_eq_ok] at h
    obtain ⟨rfl, rfl⟩ := h
    exact ⟨Nat.le_refl _, .nop _, rfl⟩
  | s :: ss, n, ss', n', h, hb => by
    simp only [stmts, bind_eq_ok, pure_eq_ok] at h
    obtain ⟨first, m, hs, rest, m', hss, rfl, rfl⟩ := h
    simp only [Stmt.effectsList, Effects.below_union] at hb
    have p := stmt_splits s hs hb.1
    have q := stmts_splits ss hss (hb.2.mono p.le)
    refine ⟨Nat.le_trans p.le q.le, ?_, ?_⟩
    · intro t ht
      simp only [Stmt.effects, Stmt.effectsList, Effects.union_writes, List.mem_append] at ht
      exact ht.elim (fun ht => p.writes.mono q.le t ht) (fun ht => q.writes t ht)
    · simpa [Stmt.events, Stmt.eventsList, p.events] using q.events

theorem move_splits : (dst : Expr) → ∀ {call value n s n' events},
    move call value dst n = .ok s n' → dst.effects.Below n →
    (∀ m s r m', n ≤ m → call m = .ok (s, r) m' → Splits true m m' events s r) →
    (∀ m s r m', n ≤ m → value m = .ok (s, r) m' → Splits false m m' events s r) →
    Prepares n n' (dst.events ++ events) s
  | .temp t, call, value, n, s, n', events, h, hb, hc, _ => by
    simp only [move, bind_eq_ok, pure_eq_ok] at h
    obtain ⟨⟨s₁, r⟩, m, hcall, rfl, rfl⟩ := h
    have split := hc _ _ _ _ (Nat.le_refl _) hcall
    have ht : t < m := Nat.lt_of_lt_of_le (hb.1 t (by simp [Expr.effects])) split.le
    refine ⟨split.le, split.writes.andThen (.move ht split.still), ?_⟩
    simp [Stmt.events_andThen, Stmt.events, Expr.events, split.events]
  | .mem a, call, value, n, s, n', events, h, hb, _, hv => by
    simp only [move, bind_eq_ok, pure_eq_ok] at h
    obtain ⟨⟨s₁, r₁⟩, m₁, ha, ⟨s₂, r₂⟩, m₂, hval, ⟨s₃, a', src⟩, m₃, hk, rfl, rfl⟩ := h
    have left := expr_splits a ha hb
    have right := hv _ _ _ _ left.le hval
    have ⟨p, res⟩ := (left.cons right.one).keepAll (keepAll_two hk)
    have ha' := res a' (by simp)
    have hsrc := res src (by simp)
    refine ⟨p.le, p.writes.andThen ?_, ?_⟩
    · simp [WritesBelow, Stmt.effects, ha'.writes, hsrc.writes]
    · simp [Stmt.events_andThen, Stmt.events, Expr.events, p.events, ha'.events, hsrc.events]
  | .eseq st e, call, value, n, s, n', events, h, hb, hc, hv => by
    simp only [move, bind_eq_ok, pure_eq_ok] at h
    obtain ⟨before, m, hst, rest, m', he, rfl, rfl⟩ := h
    simp only [Expr.effects, Effects.below_union] at hb
    have first := stmt_splits st hst hb.1.1
    have second := move_splits e he (hb.1.2.mono first.le)
      (fun m _ _ _ hm => hc m _ _ _ (Nat.le_trans first.le hm))
      (fun m _ _ _ hm => hv m _ _ _ (Nat.le_trans first.le hm))
    refine ⟨Nat.le_trans first.le second.le, ?_, ?_⟩
    · intro t ht
      simp only [Stmt.effects, Stmt.effectsList, Effects.union_writes, List.mem_append,
        List.not_mem_nil, or_false] at ht
      exact ht.elim (fun ht => first.writes.mono second.le t ht) (fun ht => second.writes t ht)
    · simp [Stmt.events, Stmt.eventsList, first.events, second.events, Expr.events]
  | .const _, _, _, _, _, _, _, h, _, _, _ | .data _, _, _, _, _, _, _, h, _, _, _
  | .binop _ _ _, _, _, _, _, _, _, h, _, _, _ | .call _ _, _, _, _, _, _, _, h, _, _, _
  | .checkIndex _ _, _, _, _, _, _, _, h, _, _, _ => by
    simp [move, throw_apply] at h

end

end Canonical
end PinsBackend.Ir
