import PinsBackend.Proofs.Ir.Splitting
import PinsBackend.Proofs.Machine.Steps

/-! Exchanging a statement with an expression.

A run of a statement keeps what the effects of the statement do not touch. An expression that
commutes with the statement has therefore one result before and after it. Code that neither jumps,
calls nor stores, and has no operation that is known to trap, runs to its end unless it meets a
fault that the effects do not announce. -/
namespace PinsBackend

open Ir

/-- Faults of memory accesses and of words of the wrong kind. -/
def Fault.isSilent : Fault → Bool
  | .invalidAddress _ | .malformed (.integerExpected _) | .malformed (.incomparable _ _) => true
  | _ => false

/-- Faults of code that is out of place: it addresses data that is not there, writes the frame
pointer, or is no linear code. -/
def Fault.isForeign : Fault → Bool
  | .malformed (.unknownData _) | .malformed .framePointerWritten
  | .malformed (.nonCanonicalStmt _) | .malformed (.nonCanonicalExpr _) => true
  | _ => false

/-- Faults that the effects of code do not announce. -/
def Fault.isQuiet (f : Fault) : Bool := f.isSilent || f.isForeign

theorem Fault.isQuiet_of_isSilent {f : Fault} (h : f.isSilent = true) : f.isQuiet = true := by
  simp [isQuiet, h]

def Fault.isOverflow : Fault → Bool
  | .stackOverflow _ => true
  | _ => false

theorem Fault.isOverflow_of_isSilent {f : Fault} (h : f.isSilent = true) :
    f.isOverflow = false := by
  cases f with
  | stackOverflow low => cases h
  | _ => rfl

/-- Faults of operations on words that effects announce as traps. -/
def Fault.isTrap : Fault → Bool
  | .divisionByZero | .indexOutOfBounds _ _ => true
  | _ => false

namespace Temps

variable {ts : Temps} {t : Temp} {v : Value}

def read (ts : Temps) (t : Temp) : Value := ts.values.getD t .zero

theorem get_eq (ts : Temps) (m : Memory) (t : Temp) :
    ts.get m t = if t = Temp.fp then Value.ofInt m.fp else ts.read t := rfl

theorem set_eq_ok {ts' : Temps} :
    ts.set t v = .ok ts' ↔ t ≠ Temp.fp ∧ ts' = ⟨ts.values.insert t v⟩ := by
  unfold set
  split
  · next h => simp [h]
  · next h => simp [h, eq_comm]

theorem set_eq_error {f : Fault} (h : ts.set t v = .error f) :
    f = .malformed .framePointerWritten := by
  unfold set at h
  split at h
  · simpa [eq_comm] using h
  · simp at h

theorem read_set {ts' : Temps} (h : ts.set t v = .ok ts') (u : Temp) :
    ts'.read u = if u = t then v else ts.read u := by
  obtain ⟨-, rfl⟩ := set_eq_ok.1 h
  simp only [read, Std.TreeMap.getD_insert]
  by_cases hu : u = t
  · simp [hu]
  · have : t ≠ u := Ne.symm hu
    simp [hu, this]

end Temps

namespace Linear

variable {fx : Effects} {e : Expr} {s : Stmt} {p : LinearProgram} {act : Activation}
  {callers : List Activation}

/-- What a run of code with these effects leaves as it was. -/
structure Kept (fx : Effects) (m : Memory) (ts : Temps) (m' : Memory) (ts' : Temps) : Prop where
  labels : m'.labels = m.labels
  registers : m'.registers = m.registers
  memory : fx.call = false → fx.store = false → m' = m
  temps : ∀ t, t ∉ fx.writes → ts'.read t = ts.read t

namespace Kept

theorem refl (fx : Effects) (m : Memory) (ts : Temps) : Kept fx m ts m ts :=
  ⟨rfl, rfl, fun _ _ => rfl, fun _ _ => rfl⟩

variable {ts' : Temps} {fx : Effects}

theorem mono {a b : Effects} {m m' : Memory} {ts : Temps} (h : Kept a m ts m' ts') (le : a.Le b) :
    Kept b m ts m' ts' where
  labels := h.labels
  registers := h.registers
  memory hc hs := by
    refine h.memory ?_ ?_
    · cases hac : a.call with
      | false => rfl
      | true => rw [le.call hac] at hc; cases hc
    · cases has : a.store with
      | false => rfl
      | true => rw [le.store has] at hs; cases hs
  temps t ht := h.temps t fun hw => ht (le.writes t hw)

theorem trans {m₁ m₂ m₃ : Memory} {ts₁ ts₂ ts₃ : Temps} (h : Kept fx m₁ ts₁ m₂ ts₂)
    (k : Kept fx m₂ ts₂ m₃ ts₃) : Kept fx m₁ ts₁ m₃ ts₃ where
  labels := k.labels.trans h.labels
  registers := k.registers.trans h.registers
  memory hc hs := (k.memory hc hs).trans (h.memory hc hs)
  temps t ht := (k.temps t ht).trans (h.temps t ht)

/-- A write to one temporary. -/
theorem set {m : Memory} {ts : Temps} {t : Temp} {v : Value} (h : ts.set t v = .ok ts')
    (ht : t ∈ fx.writes) : Kept fx m ts m ts' where
  labels := rfl
  registers := rfl
  memory _ _ := rfl
  temps u hu := by
    rw [Temps.read_set h, if_neg]
    rintro rfl
    exact hu ht

/-- A call that returns to its caller. -/
theorem receive {m m' : Memory} {ts : Temps} {result : Option Temp} {v : Value}
    (h : ts.receive result v = .ok ts') (hw : ∀ t, result = some t → t ∈ fx.writes)
    (hl : m'.labels = m.labels) (hr : m'.registers = m.registers) (hc : fx.call = true) :
    Kept fx m ts m' ts' where
  labels := hl
  registers := hr
  memory hcall := by rw [hc] at hcall; cases hcall
  temps u hu := by
    cases result with
    | none =>
      simp only [Temps.receive, Except.ok.injEq] at h
      rw [h]
    | some t =>
      rw [Temps.read_set h, if_neg]
      rintro rfl
      exact hu (hw u rfl)

end Kept

variable {m m' : Memory} {ts ts' : Temps} {v : Value} {f : Fault}

/-- An expression reads only the temporaries among its effects. -/
theorem eval_congr : (e : Expr) →
    (∀ t ∈ e.effects.reads, ts'.read t = ts.read t) → eval m ts' e = eval m ts e
  | .const _, _ | .data _, _ | .call _ _, _ | .eseq _ _, _ => rfl
  | .temp t, h => by simp [eval, Temps.get_eq, h t (by simp [Expr.effects])]
  | .mem a, h => by simp only [eval, eval_congr a (by simpa [Expr.effects] using h)]
  | .binop op l r, h => by
    simp only [Expr.effects, Effects.union_reads, List.mem_append] at h
    simp only [eval, eval_congr l fun t ht => h t (.inl (.inl ht)),
      eval_congr r fun t ht => h t (.inl (.inr ht))]
  | .checkIndex i n, h => by
    simp only [Expr.effects, Effects.union_reads, List.mem_append] at h
    simp only [eval, eval_congr i fun t ht => h t (.inl ht)]

/-- The third part of the test, for expressions that are not leaves. -/
theorem eval_of_disjoint (h : Kept fx m ts m' ts') (hc : fx.call = false) (hs : fx.store = false)
    (hd : ∀ t ∈ fx.writes, t ∉ e.effects.reads) :
    eval m' ts' e = eval m ts e := by
  rw [h.memory hc hs]
  exact eval_congr e fun t ht => h.temps t fun hw => hd t hw ht

theorem commutes_cases (h : commutes s e = true) :
    s.isNop = true ∨ (∃ v, e = .const v) ∨ (∃ l, e = .data l) ∨
    (∃ t, e = .temp t ∧ t ∉ s.effects.writes) ∨
    (s.effects.call = false ∧ s.effects.store = false ∧
      (e.effects.trap = true → s.effects.trap = false ∧ s.effects.jump = false) ∧
      ∀ t ∈ s.effects.writes, t ∉ e.effects.reads) := by
  unfold commutes at h
  rcases Bool.or_eq_true_iff.1 h with h | h
  · exact .inl h
  · refine .inr ?_
    cases e with
    | const v => exact .inl ⟨v, rfl⟩
    | data l => exact .inr (.inl ⟨l, rfl⟩)
    | temp t => exact .inr (.inr (.inl ⟨t, rfl, by simpa using h⟩))
    | _ =>
      simp only [Bool.and_eq_true, Bool.not_eq_true', Bool.or_eq_false_iff, List.all_eq_true,
        List.contains_eq_mem, decide_eq_false_iff_not, Bool.and_eq_false_iff] at h
      obtain ⟨⟨⟨⟨hc, hs⟩, -⟩, ht⟩, hd⟩ := h
      refine .inr (.inr (.inr ⟨hc, hs, fun trap => ?_, hd⟩))
      simpa [trap] using ht

theorem kept_isNop (hs : s.isNop = true) (h : Kept s.effects m ts m' ts') : Kept {} m ts m' ts' :=
  h.mono (Stmt.effects_of_isNop s hs)

/-- An expression has the same result before and after a statement that commutes with it. -/
theorem eval_of_commutes (hc : commutes s e = true) (h : Kept s.effects m ts m' ts') :
    eval m' ts' e = eval m ts e := by
  rcases commutes_cases hc with hn | ⟨v, rfl⟩ | ⟨l, rfl⟩ | ⟨t, rfl, ht⟩ | ⟨hcall, hstore, -, hd⟩
  · exact eval_of_disjoint (kept_isNop hn h) rfl rfl (by simp)
  · rfl
  · simp only [eval, Memory.dataAddress, Memory.address?, h.labels]
  · have fp : m'.fp = m.fp := congrArg Registers.fp h.registers
    simp only [eval, Temps.get_eq, h.temps t ht, fp]
  · exact eval_of_disjoint h hcall hstore hd

/-! ## Code that announces nothing -/

theorem asInt_eq_error (h : v.asInt = .error f) : f.isSilent = true := by
  cases v with
  | int n => simp [Value.asInt] at h
  | str s =>
    simp only [Value.asInt, Except.error.injEq] at h
    exact h ▸ rfl

theorem isTruthy_eq_error (h : v.isTruthy = .error f) : f.isSilent = true := by
  cases hn : v.asInt with
  | error g =>
    have : f = g := by simpa [Value.isTruthy, hn, Functor.map, Except.map, eq_comm] using h
    exact this ▸ asInt_eq_error hn
  | ok n => simp [Value.isTruthy, hn, Functor.map, Except.map] at h

theorem load_eq_error {a : Int} (h : m.load a = .error f) : f.isSilent = true := by
  unfold Memory.load at h
  split at h
  · simp at h
  · simp only [Except.error.injEq] at h
    exact h ▸ rfl

theorem apply_eq_error {op : BinOp} {a b : Value} (h : op.apply a b = .error f) :
    f.isSilent = true ∨ (op.mayTrap = true ∧ f = .divisionByZero) := by
  unfold BinOp.apply at h
  split at h
  · cases hord : a.order b with
    | ok o => simp [hord, bind, Except.bind, pure, Except.pure] at h
    | error g =>
      have : f = g := by simpa [hord, bind, Except.bind, eq_comm] using h
      subst this
      refine .inl ?_
      cases a <;> cases b <;>
        simp only [Value.order, Except.error.injEq, reduceCtorEq] at hord <;> exact hord ▸ rfl
  · cases ha : a.asInt with
    | error g =>
      have : f = g := by simpa [ha, bind, Except.bind, eq_comm] using h
      exact .inl (this ▸ asInt_eq_error ha)
    | ok i =>
      cases hb : b.asInt with
      | error g =>
        have : f = g := by simpa [ha, hb, bind, Except.bind, eq_comm] using h
        exact .inl (this ▸ asInt_eq_error hb)
      | ok j =>
        refine .inr ?_
        by_cases hj : j = 0 <;> cases op <;>
          simp_all [BinOp.mayTrap, BinOp.compute, bind, Except.bind, pure, Except.pure]

theorem checkIndex_eq_error {n : Int} (h : v.checkIndex n = .error f) :
    f.isSilent = true ∨ ∃ i, f = .indexOutOfBounds i n := by
  unfold Value.checkIndex at h
  cases hv : v.asInt with
  | error g =>
    have : f = g := by simpa [hv, bind, Except.bind, eq_comm] using h
    exact .inl (this ▸ asInt_eq_error hv)
  | ok i =>
    simp only [hv, bind, Except.bind] at h
    split at h
    · simp only [Except.error.injEq] at h
      exact .inr ⟨_, h.symm⟩
    · simp at h

theorem dataAddress_eq_error {l : String} (h : m.dataAddress l = .error f) :
    m.address? l = none ∧ f = .malformed (.unknownData l) := by
  unfold Memory.dataAddress at h
  split at h
  · cases h
  · next absent =>
    cases h
    exact ⟨absent, rfl⟩

/-- A fault of an expression is quiet, or a trap that the effects of the expression announce. -/
theorem eval_eq_error_cases : (e : Expr) → ∀ {f : Fault}, eval m ts e = .error f →
    f.isQuiet = true ∨ e.effects.trap = true ∧ f.isTrap = true
  | .const v, f, h | .temp t, f, h => by cases h
  | .data l, f, h => .inl ((dataAddress_eq_error h).2 ▸ rfl)
  | .mem a, f, h => by
    simp only [eval, except_bind_eq_error] at h
    rcases h with h | ⟨v, -, h | ⟨n, -, h⟩⟩
    · exact eval_eq_error_cases a h
    · exact .inl (Fault.isQuiet_of_isSilent (asInt_eq_error h))
    · exact .inl (Fault.isQuiet_of_isSilent (load_eq_error h))
  | .binop op l r, f, h => by
    simp only [Expr.effects, Effects.union_trap, Bool.or_eq_true]
    simp only [eval, except_bind_eq_error] at h
    rcases h with h | ⟨a, -, h | ⟨b, -, h⟩⟩
    · exact (eval_eq_error_cases l h).imp_right fun ⟨announced, trap⟩ =>
        ⟨.inl (.inl announced), trap⟩
    · exact (eval_eq_error_cases r h).imp_right fun ⟨announced, trap⟩ =>
        ⟨.inl (.inr announced), trap⟩
    · rcases apply_eq_error h with silent | ⟨announced, rfl⟩
      · exact .inl (Fault.isQuiet_of_isSilent silent)
      · exact .inr ⟨.inr announced, rfl⟩
  | .checkIndex i n, f, h => by
    have announced : (Expr.checkIndex i n).effects.trap = true := by simp [Expr.effects]
    simp only [eval, except_bind_eq_error] at h
    rcases h with h | ⟨v, -, h⟩
    · exact (eval_eq_error_cases i h).imp_right fun ⟨_, trap⟩ => ⟨announced, trap⟩
    · rcases checkIndex_eq_error h with silent | ⟨i, rfl⟩
      · exact .inl (Fault.isQuiet_of_isSilent silent)
      · exact .inr ⟨announced, rfl⟩
  | .call _ _, f, h | .eseq _ _, f, h => by
    cases h
    exact .inl rfl

theorem eval_not_overflow (h : eval m ts e = .error f) : f.isOverflow = false := by
  cases f with
  | stackOverflow low =>
    rcases eval_eq_error_cases e h with quiet | ⟨-, trap⟩
    · cases quiet
    · cases trap
  | _ => rfl

theorem evalAll_not_overflow {es : List Expr} (h : evalAll m ts es = .error f) :
    f.isOverflow = false := by
  induction es with
  | nil => cases h
  | cons e es ih =>
    simp only [evalAll, except_bind_eq_error] at h
    rcases h with h | ⟨v, -, h | ⟨vs, -, h⟩⟩
    · exact eval_not_overflow h
    · exact ih h
    · cases h

/-- An expression without an operation that is known to trap has quiet faults only. -/
theorem eval_eq_error (e : Expr) (h : eval m ts e = .error f) (trapless : e.effects.trap = false) :
    f.isQuiet = true := by
  rcases eval_eq_error_cases e h with quiet | ⟨announced, -⟩
  · exact quiet
  · rw [trapless] at announced
    cases announced

/-- The run stops with a quiet fault, in this activation, memory and host. -/
def StopsQuietly (p : LinearProgram) (c : Config) (act : Activation)
    (callers : List Activation) (m : Memory) (h : Host) : Prop :=
  ∃ c₁ f rest ts, Steps p c c₁ ∧ f.isQuiet = true ∧
    Faults p c₁ f (act.config callers rest ts m h)

theorem StopsQuietly.head {c c' : Config} {h : Host} (hm : Moves p c c')
    (hs : StopsQuietly p c' act callers m h) :
    StopsQuietly p c act callers m h := by
  obtain ⟨c₁, f, rest, ts, steps, quiet, fault⟩ := hs
  exact ⟨c₁, f, rest, ts, .head hm steps, quiet, fault⟩

/-- Code without jumps, calls, stores and announced traps runs to its end, or stops quietly. -/
theorem runs_straight (hcall : fx.call = false) (hstore : fx.store = false)
    (htrap : fx.trap = false) (hjump : fx.jump = false) {h : Host} (code : List Stmt)
    (hcode : ∀ st ∈ code, st.effects.Le fx) (rest : List Stmt) (ts : Temps) :
    (∃ ts', Steps p (act.config callers (code ++ rest) ts m h) (act.config callers rest ts' m h) ∧
      Kept fx m ts m ts') ∨
    StopsQuietly p (act.config callers (code ++ rest) ts m h) act callers m h := by
  induction code generalizing ts with
  | nil => exact .inl ⟨ts, .refl, .refl _ _ _⟩
  | cons st code ih =>
    have le := hcode st (by simp)
    have next (ts₁ : Temps) (hm : Moves p (act.config callers (st :: code ++ rest) ts m h)
        (act.config callers (code ++ rest) ts₁ m h)) (hk : Kept fx m ts m ts₁) :
        (∃ ts', Steps p (act.config callers (st :: code ++ rest) ts m h)
          (act.config callers rest ts' m h) ∧ Kept fx m ts m ts') ∨
        StopsQuietly p (act.config callers (st :: code ++ rest) ts m h) act callers m h := by
      rcases ih (fun q hq => hcode q (by simp [hq])) ts₁ with ⟨ts', steps, kept⟩ | stop
      · exact .inl ⟨ts', .head hm steps, hk.trans kept⟩
      · exact .inr (.head hm stop)
    have fault {f : Fault} (quiet : f.isQuiet = true)
        (hf : Faults p (act.config callers (st :: code ++ rest) ts m h) f
          (act.config callers (code ++ rest) ts m h)) :
        (∃ ts', Steps p (act.config callers (st :: code ++ rest) ts m h)
          (act.config callers rest ts' m h) ∧ Kept fx m ts m ts') ∨
        StopsQuietly p (act.config callers (st :: code ++ rest) ts m h) act callers m h :=
      .inr ⟨_, f, _, ts, .refl, quiet, hf⟩
    have noncanonical (hx : ∀ steps, execute p ts st
          ((act.config callers (code ++ rest) ts m h).state steps) =
        .error (.fault (.malformed (.nonCanonicalStmt st)))
          ((act.config callers (code ++ rest) ts m h).state steps)) :=
      fault (f := .malformed (.nonCanonicalStmt st)) rfl (stops_of_execute hx)
    have quiet {e : Expr} (hle : e.effects.Le fx) :
        e.effects.trap = false ∧ ∀ l args, e ≠ .call l args := by
      refine ⟨?_, ?_⟩
      · cases ht : e.effects.trap with
        | false => rfl
        | true => rw [hle.trap ht] at htrap; cases htrap
      · rintro l args rfl
        have := hle.call (by simp [Expr.effects])
        rw [this] at hcall
        cases hcall
    cases st with
    | label l => exact next ts moves_label (.refl _ _ _)
    | jump l => exact absurd (le.jump rfl) (by simp [hjump])
    | cjump c l k => exact absurd (le.jump (by simp [Stmt.effects])) (by simp [hjump])
    | seq ss => exact noncanonical fun _ => rfl
    | eval e =>
      have ⟨ht, hs⟩ := quiet (e := e) le
      cases hv : eval m ts e with
      | ok v => exact next ts (moves_eval hs hv) (.refl _ _ _)
      | error f => exact fault (eval_eq_error e hv ht) (faults_eval hs hv)
    | move dst src =>
      cases dst with
      | temp t =>
        have ⟨ht, hs⟩ := quiet (e := src) ((Effects.le_union_right _ _).trans le)
        have hw : t ∈ fx.writes := le.writes t (by simp [Stmt.effects])
        cases hv : eval m ts src with
        | error f => exact fault (eval_eq_error src hv ht) (faults_move_temp hs hv)
        | ok v =>
          cases hset : ts.set t v with
          | ok ts' => exact next ts' (moves_move_temp hs hv hset) (.set hset hw)
          | error f =>
            exact fault (by rw [Temps.set_eq_error hset]; rfl) (faults_move_fp hs hv hset)
      | mem a => exact absurd (le.store (by simp [Stmt.effects])) (by simp [hstore])
      | _ => exact noncanonical fun _ => rfl

end Linear
end PinsBackend
