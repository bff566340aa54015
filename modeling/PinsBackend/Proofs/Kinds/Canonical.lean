import PinsBackend.Proofs.Canonical.Shape
import PinsBackend.Proofs.Kinds.Code

/-! Linear code has the kinds of the tree code it comes from.

A saved operand goes into a temporary that gets the kind of the operand. What a statement writes, it
writes for good, so an operand may be read behind any statement that was lifted in front of it; the
labels in that statement then expect what was written before. -/
namespace PinsBackend.Kinds

open Ir Canonical
open Lowering (frameAt elementExpr)
open Syntax (Env)

variable {size : Int} {κ₁ : Temp → Option Kind} {n₁ n' : Temp} {r : Expr} {s : Stmt}
  {x : SplitM (Stmt × Expr)} {whole : Bool} {label : String}

/-! ## Temporaries that code does not mention -/

def Task.Below (n : Temp) : Task → Prop
  | .value _ e _ => e.effects.Below n
  | .stmt _ _ s _ => s.effects.Below n
  | .run _ _ ss _ => (Stmt.effectsList ss).Below n

/-- The kinds of temporaries below a bound. -/
def cutAt (κ : Temp → Option Kind) (n : Temp) : Temp → Option Kind :=
  fun t => if t < n then κ t else none

variable {κ : Temp → Option Kind} {n : Temp} {k : Kind} {length : Int} {ts : List Temp}
  {D : Set Temp}
  {ls ms labels : List String} {Ψ : Scope} {link : Expr} {ss : List Stmt}

theorem cutAt_eq_some {t : Temp} (ht : t < n) (h : κ t = some k) :
    cutAt κ n t = some k := by simp [cutAt, ht, h]

theorem below_elementExpr {base i : Expr} :
    (elementExpr base i length size).effects.Below n ↔ base.effects.Below n ∧
      i.effects.Below n := by
  have traps (b : Bool) : Effects.Below n { trap := b } := by simp [Effects.Below]
  simp [elementExpr, Expr.effects, Expr.int, traps]

theorem lt_of_below_temps (h : (Expr.effectsList (ts.map .temp)).Below n) : ∀ t ∈ ts, t < n := by
  induction ts with
  | nil => simp
  | cons t ts ih =>
    simp only [List.map_cons, Expr.effectsList, Effects.below_union] at h
    intro u hu
    rcases List.mem_cons.1 hu with rfl | hu
    · exact h.1.1 u (by simp [Expr.effects])
    · exact ih h.2 u hu

theorem args_cutAt {α : Type} {kind : α → Kind} {as : List α} (below_n : ∀ t ∈ ts, t < n)
    (h : List.Forall₂ (fun t a => κ t = some (kind a) ∧ t ∈ D) ts as) :
    List.Forall₂ (fun t a => cutAt κ n t = some (kind a) ∧ t ∈ D) ts as := by
  induction h with
  | nil => exact .nil
  | cons first _ ih =>
    exact .cons ⟨cutAt_eq_some (below_n _ (by simp)) first.1, first.2⟩
      (ih fun t ht => below_n t (by simp [ht]))

variable {ctx : Context} {Γ : Env} {κ₀ : Temp → Option Kind}

/-- Only the temporaries that code mentions need kinds. -/
theorem Kinded.restrict {task : Task} (h : Kinded ctx Γ κ₀ task) (hb : task.Below n) :
    Kinded ctx Γ (cutAt κ₀ n) task := by
  induction h with
  | int n => exact .int n
  | str s => exact .str s
  | temp kind written => exact .temp (cutAt_eq_some (hb.1 _ (by simp [Expr.effects])) kind) written
  | slot level mem => exact .slot level mem
  | global mem => exact .global mem
  | load _ pos ih => exact .load (ih hb) pos
  | element _ _ inside bytes fits iha ihi =>
    obtain ⟨ha, hi⟩ := below_elementExpr.1 hb
    exact .element (iha ha) (ihi hi) inside bytes fits
  | arithmetic hop _ _ ihl ihr =>
    simp only [Task.Below, Expr.effects, Effects.below_union] at hb
    exact .arithmetic hop (ihl hb.1.1) (ihr hb.1.2)
  | comparison hop _ _ ihl ihr =>
    simp only [Task.Below, Expr.effects, Effects.below_union] at hb
    exact .comparison hop (ihl hb.1.1) (ihr hb.1.2)
  | builtin args unused =>
    simp only [Task.Below, Expr.effects, Expr.effectsList, Effects.below_union] at hb
    exact .builtin (args_cutAt (lt_of_below_temps hb.1.2) args) unused
  | call callee linked args =>
    simp only [Task.Below, Expr.effects, Expr.effectsList, Effects.below_union] at hb
    exact .call callee linked (args_cutAt (lt_of_below_temps hb.1.2) args)
  | eseq own _ _ ihs ihe =>
    simp only [Task.Below, Expr.effects, Stmt.effects, Effects.below_union] at hb
    exact .eseq own (ihs hb.1.1) (ihe hb.1.2)
  | assign kind suits _ ih =>
    simp only [Task.Below, below_move] at hb
    exact .assign (cutAt_eq_some (hb.1.1 _ (by simp [Expr.effects])) kind) suits (ih hb.2)
  | store _ pos _ iha ihe =>
    simp only [Task.Below, below_move] at hb
    exact .store (iha hb.1) pos (ihe hb.2)
  | eval _ ih => exact .eval (ih hb)
  | jump target sub => exact .jump target sub
  | cjump _ onTrue subTrue onFalse subFalse ih =>
    simp only [Task.Below, Stmt.effects, Effects.below_union] at hb
    exact .cjump (ih hb.1) onTrue subTrue onFalse subFalse
  | label here sub => exact .label here sub
  | nil sub => exact .nil sub
  | cons _ _ ihs ihss =>
    simp only [Task.Below, Stmt.effectsList, Effects.below_union] at hb
    exact .cons (ihs hb.1) (ihss hb.2)

/-! ## What splitting adds -/

/-- These labels are not known yet. -/
structure Fresh (Ψ : Scope) (labels : List String) : Prop where
  nodup : labels.Nodup
  unknown : ∀ l ∈ labels, Ψ l = none

/-- Splitting code with these labels gives kinds to temporaries and sets to labels. -/
structure Adds (labels : List String) (κ : Temp → Option Kind) (Ψ : Scope) (n' : Temp)
    (κ' : Temp → Option Kind) (Ψ' : Scope) : Prop where
  kinds : Extends κ κ'
  scope : Extends Ψ Ψ'
  free : Free κ' n'
  known : ∀ {l E}, Ψ' l = some E → Ψ l = some E ∨ l ∈ labels

theorem Adds.refl (h : Free κ n) (Ψ : Scope) (labels : List String) : Adds labels κ Ψ n κ Ψ :=
  ⟨.refl _, .refl _, h, .inl⟩

theorem Adds.trans {κ₂ : Temp → Option Kind} {Ψ₁ Ψ₂ : Scope} {n₂ : Temp} (h : Adds ls κ Ψ n₁ κ₁ Ψ₁)
    (h' : Adds ms κ₁ Ψ₁ n₂ κ₂ Ψ₂) : Adds (ls ++ ms) κ Ψ n₂ κ₂ Ψ₂ := by
  refine ⟨h.kinds.trans h'.kinds, h.scope.trans h'.scope, h'.free, fun e => ?_⟩
  rcases h'.known e with e | e
  · exact (h.known e).imp_right (List.mem_append_left ms)
  · exact .inr (List.mem_append_right ls e)

/-- A free temporary gets a kind. -/
theorem Adds.save {κ' : Temp → Option Kind} {Ψ' : Scope} (h : Adds ls κ Ψ n κ' Ψ') (k : Kind) :
    Adds ls κ Ψ (n + 1) (Function.update κ' n (some k)) Ψ' :=
  ⟨h.kinds.trans (h.free.extends k), h.scope, h.free.save k, h.known⟩

theorem Fresh.left (h : Fresh Ψ (ls ++ ms)) : Fresh Ψ ls :=
  ⟨(List.nodup_append.1 h.nodup).1, fun l hl => h.unknown l (List.mem_append_left ms hl)⟩

/-- Labels stay fresh while others are added. -/
theorem Fresh.right {Ψ₁ : Scope} (h : Fresh Ψ (ls ++ ms)) (adds : Adds ls κ Ψ n₁ κ₁ Ψ₁) :
    Fresh Ψ₁ ms := by
  refine ⟨(List.nodup_append.1 h.nodup).2.1, fun l hl => ?_⟩
  cases e : Ψ₁ l with
  | none => rfl
  | some E =>
    rcases adds.known e with e | e
    · rw [h.unknown l (List.mem_append_right ls hl)] at e
      cases e
    · exact absurd rfl ((List.nodup_append.1 h.nodup).2.2 l e l hl)

/-- A split gives statements from any set above `D` and a remainder that is good behind them. -/
structure Yields (ctx : Context) (Γ : Env) (κ₀ : Temp → Option Kind) (D : Set Temp)
    (labels : List String) (good : (Temp → Option Kind) → Set Temp → Expr → Prop)
    (x : SplitM (Stmt × Expr)) : Prop where
  split : ∀ {A κ Ψ n s r n'}, D ⊆ A → Extends κ₀ κ → Free κ n → Fresh Ψ labels →
    x n = .ok (s, r) n' →
    ∃ κ' Ψ' A', Adds labels κ Ψ n' κ' Ψ' ∧ A ⊆ A' ∧ Kinded ctx Γ κ' (.run Ψ' A s.code A') ∧
      good κ' A' r

/-- The remainder has this kind. -/
def HasKind (ctx : Context) (Γ : Env) (k : Kind) (κ : Temp → Option Kind) (A : Set Temp)
    (r : Expr) :
    Prop :=
  Kinded ctx Γ κ (.value A r k)

/-- What stays true of a remainder when more is written and more kinds are known. -/
def Lasting (good : (Temp → Option Kind) → Set Temp → Expr → Prop) : Prop :=
  ∀ {κ κ' A A' r}, Extends κ κ' → A ⊆ A' → good κ A r → good κ' A' r

theorem lasting_hasKind : Lasting (HasKind ctx Γ k) :=
  fun le sub h => (Kinded.extend le h).mono sub

theorem commutes_nop (r : Expr) : commutes .nop r = true := by
  simp [commutes, Stmt.nop, Stmt.isNop, Stmt.allNop]

theorem keep_nop {s' : Stmt} {r' : Expr} (h : keep (s, r) .nop n = .ok (s', r') n') :
    s'.code = s.code ∧ r' = r ∧ n' = n := by
  rcases keep_cases h with ⟨-, rfl, rfl, rfl⟩ | ⟨c, -⟩
  · refine ⟨?_, rfl, rfl⟩
    rw [Stmt.code_andThen, Stmt.nop, Stmt.code_seq, Stmt.codeList_nil, List.append_nil]
  · rw [commutes_nop] at c
    cases c

/-- Two operands, the left one saved if it has to be. -/
theorem Yields.both {good : (Temp → Option Kind) → Set Temp → Expr → Prop}
    {y : SplitM (Stmt × Expr)} (hx : Yields ctx Γ κ₀ D ls (HasKind ctx Γ k) x)
    (hy : Yields ctx Γ κ₀ D ms good y) (lasting : Lasting good) {A : Set Temp} {n₂ : Temp}
    {left right : Stmt × Expr} {l : Expr} (sub : D ⊆ A) (le : Extends κ₀ κ) (free : Free κ n)
    (fresh : Fresh Ψ (ls ++ ms)) (hl : x n = .ok left n₁) (hr : y n₁ = .ok right n₂)
    (hk : keepBoth left right n₂ = .ok (s, l, r) n') :
    ∃ κ' Ψ' A', Adds (ls ++ ms) κ Ψ n' κ' Ψ' ∧ A ⊆ A' ∧ Kinded ctx Γ κ' (.run Ψ' A s.code A') ∧
      HasKind ctx Γ k κ' A' l ∧ good κ' A' r := by
  obtain ⟨s₁, l₀⟩ := left
  obtain ⟨s₂, r₀⟩ := right
  simp only [keepBoth, bind_eq_ok, pure_eq_ok, Prod.mk.injEq] at hk
  obtain ⟨⟨after, r₁⟩, m, hright, ⟨before, l₁⟩, _, hleft, ⟨rfl, rfl, rfl⟩, rfl⟩ := hk
  obtain ⟨same, rfl, rfl⟩ := keep_nop hright
  obtain ⟨κ₁, Ψ₁, A₁, adds₁, sub₁, run₁, kind₁⟩ := hx.split sub le free fresh.left hl
  have fresh₁ : Fresh Ψ₁ ms := fresh.right adds₁
  rcases keep_cases hleft with ⟨-, rfl, rfl, rfl⟩ | ⟨-, rfl, rfl, rfl⟩
  · obtain ⟨κ₂, Ψ₂, A₂, adds₂, sub₂, run₂, good₂⟩ :=
      hy.split (sub.trans sub₁) (le.trans adds₁.kinds) adds₁.free fresh₁ hr
    refine ⟨κ₂, Ψ₂, A₂, adds₁.trans adds₂, sub₁.trans sub₂, ?_,
      lasting_hasKind adds₂.kinds sub₂ kind₁, good₂⟩
    rw [Stmt.code_andThen, same]
    exact ((run₁.extend adds₂.kinds).widen adds₂.scope).append run₂
  · -- the temporary for the left operand is written before the right operand is split off
    obtain ⟨κ₂, Ψ₂, A₂, adds₂, sub₂, run₂, good₂⟩ :=
      hy.split (A := insert m A₁) ((sub.trans sub₁).trans (Set.subset_insert _ _))
        (le.trans adds₁.kinds) adds₁.free fresh₁ hr
    have saved : Extends κ₂ (Function.update κ₂ m (some k)) := adds₂.free.extends k
    have kind : Function.update κ₂ m (some k) m = some k := Function.update_self ..
    refine ⟨_, Ψ₂, A₂, (adds₁.trans adds₂).save k,
      (sub₁.trans (Set.subset_insert _ _)).trans sub₂, ?_,
      .temp kind (sub₂ (Set.mem_insert _ _)), lasting saved subset_rfl good₂⟩
    rw [Stmt.code_andThen, Stmt.code_andThen, Stmt.code_move, same]
    have move : Kinded ctx Γ (Function.update κ₂ m (some k))
        (.stmt Ψ₂ A₁ (.move (.temp m) l₀) (insert m A₁)) :=
      .assign kind (.inl rfl) (kind₁.extend (adds₂.kinds.trans saved))
    exact ((run₁.extend (adds₂.kinds.trans saved)).widen adds₂.scope).append
      (.cons move (run₂.extend saved))

/-! ## Operands without statements -/

theorem isFlat_frameAt (hops : Nat) : (frameAt hops).isFlat = true := by
  induction hops with
  | zero => rfl
  | succ hops ih => exact ih

theorem LinkTo.isFlat {outer : Env} (h : LinkTo Γ outer link) : link.isFlat = true := by
  rcases h with ⟨-, rfl⟩ | ⟨hops, -, -, rfl⟩
  · rfl
  · exact isFlat_frameAt hops

/-- A call on temporaries keeps its place, or its result goes into a temporary. -/
theorem expr_call_cases (flat : link.isFlat = true)
    (h : expr whole (.call label (link :: ts.map .temp)) n = .ok (s, r) n') :
    (s = .nop ∧ r = .call label (link :: ts.map .temp) ∧ n' = n) ∨
      (s.code = [.move (.temp n) (.call label (link :: ts.map .temp))] ∧ r = .temp n ∧
        n' = n + 1) := by
  have parts := exprs_of_isFlat (link :: ts.map .temp) (by simpa using flat) n
  simp only [expr, bind_eq_ok] at h
  obtain ⟨_, _, hparts, ⟨s₀, args⟩, _, hkeep, h⟩ := h
  rw [parts] at hparts
  cases hparts
  rw [keepAll_nop] at hkeep
  cases hkeep
  cases whole with
  | true =>
    simp only [↓reduceIte, pure_eq_ok, Prod.mk.injEq] at h
    obtain ⟨⟨rfl, rfl⟩, rfl⟩ := h
    exact .inl ⟨rfl, rfl, rfl⟩
  | false =>
    simp only [Bool.false_eq_true, ↓reduceIte, bind_eq_ok, fresh_eq_ok, pure_eq_ok,
      Prod.mk.injEq] at h
    obtain ⟨_, _, ⟨-, rfl, rfl⟩, ⟨rfl, rfl⟩, rfl⟩ := h
    exact .inr ⟨rfl, rfl, rfl⟩

/-! ## Labels -/

/-- The labels inside the expressions of a statement. -/
def innerLabels : Stmt → List String
  | .label _ => []
  | s => s.labels

theorem labels_elementExpr (base i : Expr) (length size : Int) :
    (elementExpr base i length size).labels = base.labels ++ i.labels := by
  simp [elementExpr]

theorem innerLabels_store (a e : Expr) :
    innerLabels (.move (.mem a) e) = a.labels ++ e.labels := Stmt.labels_move _ _

theorem innerLabels_cjump (c : Expr) (l m : String) : innerLabels (.cjump c l m) = c.labels :=
  Stmt.labels_cjump _ _ _

theorem innerLabels_sublist (s : Stmt) : (innerLabels s).Sublist s.labels := by
  cases s with
  | label l => exact List.nil_sublist _
  | _ => exact List.Sublist.refl _

theorem innerLabels_sublist_seq (ss : List Stmt) :
    (ss.flatMap innerLabels).Sublist (Stmt.labels (.seq ss)) := by
  induction ss with
  | nil => exact List.Sublist.refl _
  | cons s ss ih =>
    rw [List.flatMap_cons, Stmt.labels_seq_cons]
    exact (innerLabels_sublist s).append ih

theorem mem_labels_of_label {l : String} (h : .label l ∈ ss) : l ∈ Stmt.labels (.seq ss) := by
  induction ss with
  | nil => cases h
  | cons s ss ih =>
    rw [Stmt.labels_seq_cons, List.mem_append]
    rcases List.mem_cons.1 h with rfl | h
    · exact .inl (List.mem_cons_self ..)
    · exact .inr (ih h)

/-- A label of a sequence does not stand in its expressions too. -/
theorem not_mem_innerLabels {l : String} (nodup : (Stmt.labels (.seq ss)).Nodup)
    (h : .label l ∈ ss) :
    l ∉ ss.flatMap innerLabels := by
  induction ss with
  | nil => cases h
  | cons s ss ih =>
    rw [Stmt.labels_seq_cons] at nodup
    obtain ⟨-, tail, apart⟩ := List.nodup_append.1 nodup
    rw [List.flatMap_cons, List.mem_append]
    rintro (inner | inner)
    · rcases List.mem_cons.1 h with rfl | h
      · cases inner
      · exact apart l ((innerLabels_sublist s).subset inner) l (mem_labels_of_label h) rfl
    · rcases List.mem_cons.1 h with rfl | h
      · exact apart l (List.mem_cons_self ..) l ((innerLabels_sublist_seq ss).subset inner) rfl
      · exact ih tail h inner

/-! ## Splitting keeps the kinds -/

theorem Yields.leaf {e : Expr} (h : Kinded ctx Γ κ₀ (.value D e k))
    (hx : ∀ n, x n = .ok (.nop, e) n) : Yields ctx Γ κ₀ D labels (HasKind ctx Γ k) x := by
  refine ⟨fun {A κ Ψ n s r n'} sub le free _ hs => ?_⟩
  rw [hx] at hs
  cases hs
  exact ⟨κ, Ψ, A, .refl free Ψ labels, subset_rfl, .nil subset_rfl, (h.extend le).mono sub⟩

theorem Yields.call (flat : link.isFlat = true)
    (h : Kinded ctx Γ κ₀ (.value D (.call label (link :: ts.map .temp)) k)) :
    Yields ctx Γ κ₀ D labels (HasKind ctx Γ k)
      (expr whole (.call label (link :: ts.map .temp))) := by
  refine ⟨fun {A κ Ψ n s r n'} sub le free fresh hs => ?_⟩
  have value := (h.extend le).mono sub
  rcases expr_call_cases flat hs with ⟨rfl, rfl, rfl⟩ | ⟨code, rfl, rfl⟩
  · exact ⟨κ, Ψ, A, .refl free Ψ labels, subset_rfl, .nil subset_rfl, value⟩
  · have kind : Function.update κ n (some k) n = some k := Function.update_self ..
    refine ⟨_, Ψ, insert n A, (Adds.refl free Ψ labels).save k, Set.subset_insert _ _, ?_,
      .temp kind (Set.mem_insert _ _)⟩
    rw [code]
    exact .single (.assign kind (.inl rfl) (value.extend (free.extends k)))

/-- The index of an element, scaled. -/
def IsScaled (ctx : Context) (Γ : Env) (length size : Int) (κ : Temp → Option Kind) (A : Set Temp)
    (r : Expr) : Prop :=
  ∃ i, r = .binop .mul (.checkIndex i length) (.int size) ∧
    Kinded ctx Γ κ (.value A i (.word .integer))

theorem lasting_isScaled : Lasting (IsScaled ctx Γ length size) :=
  fun le sub ⟨i, hi, h⟩ => ⟨i, hi, (Kinded.extend le h).mono sub⟩

theorem Yields.scaled {i : Expr}
    (h : Yields ctx Γ κ₀ D labels (HasKind ctx Γ (.word .integer)) (expr false i)) :
    Yields ctx Γ κ₀ D labels (IsScaled ctx Γ length size)
      (expr false (.binop .mul (.checkIndex i length) (.int size))) := by
  refine ⟨fun {A κ Ψ n s r n'} sub le free fresh hs => ?_⟩
  simp only [expr, Expr.int, bind_eq_ok, pure_eq_ok, Prod.mk.injEq, keepBoth] at hs
  obtain ⟨_, _, ⟨⟨s₀, i₀⟩, _, hi, ⟨s₁, i₁⟩, _, hk, rfl, rfl⟩, _, _, ⟨rfl, rfl⟩, ⟨s₂, l, r⟩, _,
    ⟨⟨after, c⟩, _, hc, ⟨s₃, l'⟩, _, hl, ⟨rfl, rfl, rfl⟩, rfl⟩, ⟨rfl, rfl⟩, rfl⟩ := hs
  obtain ⟨same, rfl, rfl⟩ := keep_nop hk
  obtain ⟨nop, rfl, rfl⟩ := keep_nop hc
  have after_nop : after = .nop := by
    rcases keep_cases hc with ⟨-, rfl, -, -⟩ | ⟨c, -⟩
    · rfl
    · rw [commutes_nop] at c
      cases c
  subst after_nop
  obtain ⟨same', rfl, rfl⟩ := keep_nop hl
  obtain ⟨κ', Ψ', A', adds, sub', run, kind⟩ := h.split sub le free fresh hi
  refine ⟨κ', Ψ', A', adds, sub', ?_, i₁, rfl, kind⟩
  rw [same', same]
  exact run

/-- What splitting a piece of code gives. -/
def Kept (ctx : Context) (Γ : Env) (κ₀ : Temp → Option Kind) : Task → Prop
  | .value D e k => ∀ whole, Yields ctx Γ κ₀ D e.labels (HasKind ctx Γ k) (expr whole e)
  | .stmt Ψ₀ D s D' => ∀ {X κ Ψ n s' n'}, Extends κ₀ κ → Extends (Ψ₀.add X) Ψ → Free κ n →
    Fresh Ψ (innerLabels s) → stmt s n = .ok s' n' →
    ∃ κ' Ψ', Adds (innerLabels s) κ Ψ n' κ' Ψ' ∧
      Kinded ctx Γ κ' (.run Ψ' (D ∪ X) s'.code (D' ∪ X))
  | .run Ψ₀ D ss D' => ∀ {X κ Ψ n ss' n'}, Extends κ₀ κ → Extends (Ψ₀.add X) Ψ → Free κ n →
    Fresh Ψ (ss.flatMap innerLabels) → stmts ss n = .ok ss' n' →
    ∃ κ' Ψ', Adds (ss.flatMap innerLabels) κ Ψ n' κ' Ψ' ∧
      Kinded ctx Γ κ' (.run Ψ' (D ∪ X) (Stmt.codeList ss') (D' ∪ X))

/-- The labels of a nested sequence become known, with what was written before it. -/
theorem Fresh.open {Ψ₀ : Scope} (A : Set Temp) (own : ∀ {l E}, Ψ₀ l = some E → .label l ∈ ss)
    (fresh : Fresh Ψ (Stmt.labels (.seq ss))) :
    ∃ Ψ₁, Extends (Ψ₀.add A) Ψ₁ ∧ Extends Ψ Ψ₁ ∧ Fresh Ψ₁ (ss.flatMap innerLabels) ∧
      ∀ {l E}, Ψ₁ l = some E → Ψ l = some E ∨ l ∈ Stmt.labels (.seq ss) := by
  have outer {l : String} (h : Ψ₀ l ≠ none) : .label l ∈ ss := by
    obtain ⟨E, hE⟩ := Option.ne_none_iff_exists'.1 h
    exact own hE
  have added {l : String} (h : Ψ₀ l = none) : Ψ₀.add A l = none := by simp [Scope.add, h]
  refine ⟨fun l => (Ψ₀.add A l).or (Ψ l), ⟨fun e => by simp [e]⟩, ⟨fun {l E} e => ?_⟩,
    ⟨fresh.nodup.sublist (innerLabels_sublist_seq ss), fun l hl => ?_⟩, fun {l E} e => ?_⟩
  · by_cases h : Ψ₀ l = none
    · simp [added h, e]
    · rw [fresh.unknown l (mem_labels_of_label (outer h))] at e
      cases e
  · by_cases h : Ψ₀ l = none
    · simp [added h, fresh.unknown l ((innerLabels_sublist_seq ss).subset hl)]
    · exact absurd hl (not_mem_innerLabels fresh.nodup (outer h))
  · by_cases h : Ψ₀ l = none
    · exact .inl (by simpa [added h] using e)
    · exact .inr (mem_labels_of_label (outer h))

/-- A computation on two operands of one kind. -/
theorem Yields.binop {op : BinOp} {k k' : Kind} {l : Expr}
    (hl : Yields ctx Γ κ₀ D l.labels (HasKind ctx Γ k) (expr false l))
    (hr : Yields ctx Γ κ₀ D r.labels (HasKind ctx Γ k) (expr false r))
    (rule : ∀ {κ A l r}, HasKind ctx Γ k κ A l → HasKind ctx Γ k κ A r →
      HasKind ctx Γ k' κ A (.binop op l r)) :
    Yields ctx Γ κ₀ D (Expr.binop op l r).labels (HasKind ctx Γ k')
      (expr whole (.binop op l r)) := by
  refine ⟨fun {A κ Ψ n s r n'} sub le free fresh hs => ?_⟩
  rw [Expr.labels_binop] at fresh ⊢
  simp only [expr, bind_eq_ok, pure_eq_ok, Prod.mk.injEq] at hs
  obtain ⟨_, _, sl, _, _, sr, ⟨s₁, l, r⟩, _, hk, ⟨rfl, rfl⟩, rfl⟩ := hs
  obtain ⟨κ', Ψ', A', adds, sub', run, left, right⟩ :=
    hl.both hr lasting_hasKind sub le free fresh sl sr hk
  exact ⟨κ', Ψ', A', adds, sub', run, rule left right⟩

/-- Splitting keeps the kinds of code. -/
theorem Kinded.kept {task : Task} (h : Kinded ctx Γ κ₀ task) : Kept ctx Γ κ₀ task := by
  induction h with
  | int n => exact fun _ => .leaf (.int n) fun _ => rfl
  | str s => exact fun _ => .leaf (.str s) fun _ => rfl
  | temp kind written => exact fun _ => .leaf (.temp kind written) fun _ => rfl
  | slot level mem =>
    exact fun whole =>
      .leaf (.slot level mem) (expr_of_isFlat _ (by simp [isFlat_frameAt, Expr.int]) whole)
  | global mem => exact fun _ => .leaf (.global mem) fun _ => rfl
  | load _ pos ih =>
    refine fun whole => ⟨fun {A κ Ψ n s r n'} sub le free fresh hs => ?_⟩
    simp only [expr, bind_eq_ok, pure_eq_ok, Prod.mk.injEq] at hs
    obtain ⟨⟨s₀, a⟩, _, ha, ⟨s₁, a'⟩, _, hk, ⟨rfl, rfl⟩, rfl⟩ := hs
    obtain ⟨same, rfl, rfl⟩ := keep_nop hk
    obtain ⟨κ', Ψ', A', adds, sub', run, kind⟩ := (ih false).split sub le free fresh ha
    exact ⟨κ', Ψ', A', adds, sub', same ▸ run, .load kind pos⟩
  | element _ _ inside bytes fits iha ihi =>
    refine fun whole => ⟨fun {A κ Ψ n s r n'} sub le free fresh hs => ?_⟩
    rw [labels_elementExpr] at fresh ⊢
    rw [elementExpr, expr] at hs
    simp only [bind_eq_ok, pure_eq_ok, Prod.mk.injEq] at hs
    obtain ⟨left, _, hl, right, _, hr, ⟨s₁, l, r⟩, _, hk, ⟨rfl, rfl⟩, rfl⟩ := hs
    obtain ⟨κ', Ψ', A', adds, sub', run, base, i, rfl, index⟩ :=
      (iha false).both (ihi false).scaled lasting_isScaled sub le free fresh hl hr hk
    exact ⟨κ', Ψ', A', adds, sub', run, .element base index inside bytes fits⟩
  | arithmetic hop _ _ ihl ihr => exact fun _ => (ihl false).binop (ihr false) (.arithmetic hop)
  | comparison hop _ _ ihl ihr => exact fun _ => (ihl false).binop (ihr false) (.comparison hop)
  | builtin args unused => exact fun _ => .call rfl (.builtin args unused)
  | call callee linked args => exact fun _ => .call linked.isFlat (.call callee linked args)
  | eseq own _ _ ihs ihe =>
    refine fun whole => ⟨fun {A κ Ψ n s r n'} sub le free fresh hs => ?_⟩
    rw [Expr.labels_eseq] at fresh ⊢
    simp only [expr, stmt, bind_eq_ok, pure_eq_ok, Prod.mk.injEq] at hs
    obtain ⟨_, _, ⟨ss', _, hss, rfl, rfl⟩, ⟨s₁, r₁⟩, _, hr, ⟨rfl, rfl⟩, rfl⟩ := hs
    obtain ⟨Ψ₁, inner, wider, fresh₁, known₁⟩ := fresh.left.open A own
    obtain ⟨κ₂, Ψ₂, adds₂, run₂⟩ := ihs le inner free fresh₁ hss
    have adds : Adds _ κ Ψ _ κ₂ Ψ₂ := ⟨adds₂.kinds, wider.trans adds₂.scope, adds₂.free, fun e =>
      (adds₂.known e).elim known₁ fun h => .inr ((innerLabels_sublist_seq _).subset h)⟩
    obtain ⟨κ₃, Ψ₃, A₃, adds₃, sub₃, run₃, kind₃⟩ := (ihe whole).split Set.subset_union_left
      (le.trans adds₂.kinds) adds₂.free (fresh.right adds) hr
    rw [Set.union_eq_self_of_subset_left sub] at run₂
    refine ⟨κ₃, Ψ₃, A₃, adds.trans adds₃, Set.subset_union_right.trans sub₃, ?_, kind₃⟩
    rw [Stmt.code_andThen, Stmt.code_seq]
    exact ((run₂.extend adds₃.kinds).widen adds₃.scope).append run₃
  | assign kind suits _ ih =>
    intro X κ Ψ n s' n' le scope free fresh hs
    simp only [stmt, move, bind_eq_ok, pure_eq_ok] at hs
    obtain ⟨⟨s₀, r⟩, _, hr, rfl, rfl⟩ := hs
    obtain ⟨κ', Ψ', A', adds, sub', run, value⟩ :=
      (ih true).split Set.subset_union_left le free fresh hr
    refine ⟨κ', Ψ', adds, ?_⟩
    rw [Stmt.code_andThen, Stmt.code_move, Set.insert_union]
    exact (run.append (.single (.assign ((le.trans adds.kinds).get kind) suits value))).mono_run
      subset_rfl (Set.insert_subset_insert sub')
  | store _ pos _ iha ihe =>
    intro X κ Ψ n s' n' le scope free fresh hs
    rw [innerLabels_store] at fresh ⊢
    simp only [stmt, move, bind_eq_ok, pure_eq_ok] at hs
    obtain ⟨address, _, ha, source, _, he, ⟨s₁, a, r⟩, _, hk, rfl, rfl⟩ := hs
    obtain ⟨κ', Ψ', A', adds, sub', run, address, value⟩ :=
      (iha false).both (ihe false) lasting_hasKind Set.subset_union_left le free fresh ha he hk
    refine ⟨κ', Ψ', adds, ?_⟩
    rw [Stmt.code_andThen, Stmt.code_move]
    exact (run.append (.single (.store address pos value))).mono_run subset_rfl sub'
  | eval _ ih =>
    intro X κ Ψ n s' n' le scope free fresh hs
    simp only [stmt, bind_eq_ok, pure_eq_ok] at hs
    obtain ⟨⟨s₀, r⟩, _, hr, rfl, rfl⟩ := hs
    obtain ⟨κ', Ψ', A', adds, sub', run, value⟩ :=
      (ih true).split Set.subset_union_left le free fresh hr
    refine ⟨κ', Ψ', adds, ?_⟩
    by_cases leaf : r.isLeaf = true
    · simp only [leaf, ↓reduceIte]
      exact run.mono_run subset_rfl sub'
    · simp only [leaf, Bool.false_eq_true, ↓reduceIte, Stmt.code_andThen]
      rw [Stmt.code_eval (by simpa using leaf)]
      exact (run.append (.single (.eval value))).mono_run subset_rfl sub'
  | jump target sub =>
    intro X κ Ψ n s' n' le scope free fresh hs
    cases hs
    exact ⟨κ, Ψ, .refl free Ψ _, .single (.jump (scope.get (Scope.add_eq_some target))
      (Set.union_subset_union_left X sub))⟩
  | cjump _ onTrue subTrue onFalse subFalse ih =>
    intro X κ Ψ n s' n' le scope free fresh hs
    rw [innerLabels_cjump] at fresh ⊢
    simp only [stmt, bind_eq_ok, pure_eq_ok] at hs
    obtain ⟨⟨s₀, r⟩, _, hr, rfl, rfl⟩ := hs
    obtain ⟨κ', Ψ', A', adds, sub', run, value⟩ :=
      (ih false).split Set.subset_union_left le free fresh hr
    refine ⟨κ', Ψ', adds, ?_⟩
    rw [Stmt.code_andThen, Stmt.code_cjump]
    have scope' := scope.trans adds.scope
    exact run.append (.single (.cjump value (scope'.get (Scope.add_eq_some onTrue))
      ((Set.union_subset_union_left X subTrue).trans sub')
      (scope'.get (Scope.add_eq_some onFalse))
        ((Set.union_subset_union_left X subFalse).trans sub')))
  | label here sub =>
    intro X κ Ψ n s' n' le scope free fresh hs
    cases hs
    exact ⟨κ, Ψ, .refl free Ψ _, .single (.label (scope.get (Scope.add_eq_some here))
      (Set.union_subset_union_left X sub))⟩
  | nil sub =>
    intro X κ Ψ n ss' n' le scope free fresh hs
    cases hs
    exact ⟨κ, Ψ, .refl free Ψ _, .nil (Set.union_subset_union_left X sub)⟩
  | cons _ _ ihs ihss =>
    intro X κ Ψ n ss' n' le scope free fresh hs
    rw [List.flatMap_cons] at fresh ⊢
    simp only [stmts, bind_eq_ok, pure_eq_ok] at hs
    obtain ⟨first, _, hfirst, rest, _, hrest, rfl, rfl⟩ := hs
    obtain ⟨κ₁, Ψ₁, adds₁, run₁⟩ := ihs le scope free fresh.left hfirst
    obtain ⟨κ₂, Ψ₂, adds₂, run₂⟩ := ihss (le.trans adds₁.kinds) (scope.trans adds₁.scope)
      adds₁.free (fresh.right adds₁) hrest
    refine ⟨κ₂, Ψ₂, adds₁.trans adds₂, ?_⟩
    rw [Stmt.codeList_cons]
    exact ((run₁.extend adds₂.kinds).widen adds₂.scope).append run₂

end PinsBackend.Kinds
