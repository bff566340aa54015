import Mathlib.Logic.Relation
import PinsBackend.Machine.Linear
import PinsBackend.Proofs.Monad

/-! Runs of the linear machine without a step budget.

A configuration is a state without its step count, which nothing but a budget reads. `Moves`,
`Stops` and `Returns` are the three outcomes of a step; the lemmas below give the outcome for each
kind of statement, so that later proofs do not open `step` again. -/
namespace PinsBackend

open Ir

/-- The temporaries of a caller that takes a result, or does not want it. -/
def Temps.receive (ts : Temps) (result : Option Temp) (v : Value) : Except Fault Temps :=
  match result with
  | some t => ts.set t v
  | none => .ok ts

/-- A statement is counted, also the one that the budget does not allow. -/
theorem Machine.tick_cases (budget : Option Nat) (machine : Machine) :
    tick budget machine = .ok () { machine with steps := machine.steps + 1 } ∨
      ∃ limit, budget = some limit ∧ tick budget machine =
        .error (.fault (.timeout limit)) { machine with steps := machine.steps + 1 } := by
  obtain ⟨m, host, steps⟩ := machine
  cases budget with
  | none => exact .inl rfl
  | some limit =>
    simp only [tick]
    split
    · exact .inr ⟨limit, rfl, rfl⟩
    · exact .inl rfl

namespace Linear

structure Config where
  memory : Memory
  host : Host
  stack : List Activation

def Config.state (c : Config) (steps : Nat) : State := ⟨⟨c.memory, c.host, steps⟩, c.stack⟩

def Moves (p : LinearProgram) (c c' : Config) : Prop :=
  ∀ steps, ∃ steps', step p none (c.state steps) = .ok none (c'.state steps')

def Faults (p : LinearProgram) (c : Config) (f : Fault) (c' : Config) : Prop :=
  ∀ steps, ∃ steps', step p none (c.state steps) = .error (.fault f) (c'.state steps')

/-- The step from this configuration fails. -/
def Stops (p : LinearProgram) (c : Config) (halt : Halt Fault) (c' : Config) : Prop :=
  ∀ steps, ∃ steps', step p none (c.state steps) = .error halt (c'.state steps')

def Returns (p : LinearProgram) (c : Config) (v : Value) (c' : Config) : Prop :=
  ∀ steps, ∃ steps', step p none (c.state steps) = .ok (some v) (c'.state steps')

abbrev Steps (p : LinearProgram) : Config → Config → Prop := Relation.ReflTransGen (Moves p)

/-- The configuration in which `act` runs, with these statements left and these temporaries. -/
def Activation.config (act : Activation) (callers : List Activation) (rest : List Stmt)
    (temps : Temps) (m : Memory) (h : Host) : Config :=
  ⟨m, h, { act with rest, temps } :: callers⟩

section

variable {halt : Halt Fault} {target : List Stmt} {k : String} {e : Expr} {vs : List Value}

variable {p : LinearProgram} {act : Activation} {callers : List Activation} {rest : List Stmt}
  {ts : Temps} {m : Memory} {h : Host} {c' : Config} {f : Fault} {l label : String}
  {v : Value} {t : Temp}
  {src : Expr} {result : Option Temp} {args : List Expr}

/-- A statement that `execute` gets through. -/
theorem moves_of_execute {stmt : Stmt}
    (hx : ∀ steps, execute p ts stmt ((act.config callers rest ts m h).state steps) =
      .ok () (c'.state steps)) : Moves p (act.config callers (stmt :: rest) ts m h) c' := by
  intro steps
  have hs := hx (steps + 1)
  simp only [Activation.config, Config.state] at hs
  refine ⟨steps + 1, ?_⟩
  simp [step, Activation.config, Config.state, bind_apply, map_apply, onMachine, Machine.tick, hs]

theorem stops_of_execute {stmt : Stmt}
    (hx : ∀ steps, execute p ts stmt ((act.config callers rest ts m h).state steps) =
      .error halt (c'.state steps)) :
    Stops p (act.config callers (stmt :: rest) ts m h) halt c' := by
  intro steps
  have hs := hx (steps + 1)
  simp only [Activation.config, Config.state] at hs
  refine ⟨steps + 1, ?_⟩
  simp [step, Activation.config, Config.state, bind_apply, map_apply, onMachine, Machine.tick, hs]

theorem moves_label :
    Moves p (act.config callers (.label l :: rest) ts m h) (act.config callers rest ts m h) :=
  moves_of_execute fun _ => rfl

theorem moves_jump (hl : seek l act.chunk.body = some target) :
    Moves p (act.config callers (.jump l :: rest) ts m h) (act.config callers target ts m h) :=
  moves_of_execute fun _ => by
    simp [execute, goto, Activation.config, Config.state, hl]

theorem execute_cjump {c : Expr} (s : State) :
    execute p ts (.cjump c l k) s =
      match (eval s.machine.memory ts c).bind Value.isTruthy with
      | .ok b => goto (if b then l else k) s
      | .error f => .error (.fault f) s := by
  cases hv : eval s.machine.memory ts c with
  | error f => simp [execute, bind_apply, get_apply, lift, hv, Except.bind]
  | ok v =>
    cases hb : v.isTruthy <;> simp [execute, bind_apply, get_apply, lift, hv, hb, Except.bind]

theorem moves_cjump {c : Expr} {b : Bool} (hv : eval m ts c = .ok v) (hb : v.isTruthy = .ok b)
    (hl : seek (if b then l else k) act.chunk.body = some target) :
    Moves p (act.config callers (.cjump c l k :: rest) ts m h)
      (act.config callers target ts m h) :=
  moves_of_execute fun _ => by
    rw [execute_cjump]
    simp [Activation.config, Config.state, hv, hb, Except.bind, goto, hl]

theorem faults_cjump {c : Expr} (hv : eval m ts c = .error f) :
    Faults p (act.config callers (.cjump c l k :: rest) ts m h) f
      (act.config callers rest ts m h) :=
  stops_of_execute fun _ => by
    rw [execute_cjump]
    simp [Activation.config, Config.state, hv, Except.bind]

theorem execute_move_temp (hs : ∀ l args, src ≠ .call l args) (s : State) :
    execute p ts (.move (.temp t) src) s =
      match eval s.machine.memory ts src with
      | .ok v => assign t v s
      | .error f => .error (.fault f) s := by
  cases hv : eval s.machine.memory ts src with
  | error f =>
    cases src with
    | call l args => exact absurd rfl (hs l args)
    | _ => simp only [execute, bind_apply, get_apply, lift, hv]
  | ok v =>
    cases src with
    | call l args => exact absurd rfl (hs l args)
    | _ => simp only [execute, bind_apply, get_apply, lift, hv]

theorem moves_move_temp {ts' : Temps} (hs : ∀ l args, src ≠ .call l args)
    (hv : eval m ts src = .ok v) (ht : ts.set t v = .ok ts') :
    Moves p (act.config callers (.move (.temp t) src :: rest) ts m h)
      (act.config callers rest ts' m h) :=
  moves_of_execute fun _ => by
    rw [execute_move_temp hs]
    simp [Activation.config, Config.state, hv, assign, ht]

theorem faults_move_temp (hs : ∀ l args, src ≠ .call l args) (hv : eval m ts src = .error f) :
    Faults p (act.config callers (.move (.temp t) src :: rest) ts m h) f
      (act.config callers rest ts m h) :=
  stops_of_execute fun _ => by
    rw [execute_move_temp hs]
    simp [Activation.config, Config.state, hv]

theorem faults_move_fp (hs : ∀ l args, src ≠ .call l args) (hv : eval m ts src = .ok v)
    (ht : ts.set t v = .error f) :
    Faults p (act.config callers (.move (.temp t) src :: rest) ts m h) f
      (act.config callers rest ts m h) :=
  stops_of_execute fun _ => by
    rw [execute_move_temp hs]
    simp [Activation.config, Config.state, hv, assign, ht]

theorem execute_eval (hs : ∀ l args, e ≠ .call l args) (s : State) :
    execute p ts (.eval e) s =
      match eval s.machine.memory ts e with
      | .ok _ => .ok () s
      | .error f => .error (.fault f) s := by
  cases hv : eval s.machine.memory ts e with
  | error f =>
    cases e with
    | call l args => exact absurd rfl (hs l args)
    | _ => simp only [execute, bind_apply, get_apply, lift, hv]
  | ok v =>
    cases e with
    | call l args => exact absurd rfl (hs l args)
    | _ => simp only [execute, bind_apply, get_apply, pure_apply, lift, hv]

theorem moves_eval (hs : ∀ l args, e ≠ .call l args) (hv : eval m ts e = .ok v) :
    Moves p (act.config callers (.eval e :: rest) ts m h) (act.config callers rest ts m h) :=
  moves_of_execute fun _ => by
    rw [execute_eval hs]
    simp [Activation.config, Config.state, hv]

theorem faults_eval (hs : ∀ l args, e ≠ .call l args) (hv : eval m ts e = .error f) :
    Faults p (act.config callers (.eval e :: rest) ts m h) f (act.config callers rest ts m h) :=
  stops_of_execute fun _ => by
    rw [execute_eval hs]
    simp [Activation.config, Config.state, hv]

theorem moves_store {a : Expr} {va : Value} {n : Int64} {m' : Memory} (ha : eval m ts a = .ok va)
    (hn : va.asInt = .ok n) (hv : eval m ts src = .ok v)
    (hm : Memory.store n.toInt v m = .ok () m') :
    Moves p (act.config callers (.move (.mem a) src :: rest) ts m h)
      (act.config callers rest ts m' h) :=
  moves_of_execute fun _ => by
    simp [execute, onMachine, storeAt, Activation.config, Config.state, ha, hn, hv, bind,
      Except.bind, pure, Except.pure, Machine.onMemory, hm]

theorem faults_store {a : Expr}
    (hf : (do let n ← (← eval m ts a).asInt; let v ← eval m ts src; return (n.toInt, v) :
      Except Fault (Int × Value)) = .error f) :
    Faults p (act.config callers (.move (.mem a) src :: rest) ts m h) f
      (act.config callers rest ts m h) :=
  stops_of_execute fun _ => by
    simp only [execute, onMachine, storeAt, Activation.config, Config.state]
    rw [hf]

/-- The statement that calls `label` and gives the result to `result`. -/
def callStmt (result : Option Temp) (e : Expr) : Stmt :=
  match result with
  | some t => .move (.temp t) e
  | none => .eval e

theorem execute_call (s : State) :
    execute p ts (callStmt result (.call label args)) s =
      match evalAll s.machine.memory ts args with
      | .ok vs => call p label vs result s
      | .error f => .error (.fault f) s := by
  cases hv : evalAll s.machine.memory ts args with
  | error f =>
    cases result <;> simp only [callStmt, execute, bind_apply, get_apply, lift, hv]
  | ok vs =>
    cases result <;> simp only [callStmt, execute, bind_apply, get_apply, lift, hv]

theorem moves_call (hv : evalAll m ts args = .ok vs)
    (hc : ∀ steps, call p label vs result ((act.config callers rest ts m h).state steps) =
      .ok () (c'.state steps)) :
    Moves p (act.config callers (callStmt result (.call label args) :: rest) ts m h) c' :=
  moves_of_execute fun steps => by
    rw [execute_call, show ((act.config callers rest ts m h).state steps).machine.memory = m from
      rfl, hv]
    exact hc steps

theorem stops_call (hv : evalAll m ts args = .ok vs)
    (hc : ∀ steps, call p label vs result ((act.config callers rest ts m h).state steps) =
      .error halt (c'.state steps)) :
    Stops p (act.config callers (callStmt result (.call label args) :: rest) ts m h) halt c' :=
  stops_of_execute fun steps => by
    rw [execute_call, show ((act.config callers rest ts m h).state steps).machine.memory = m from
      rfl, hv]
    exact hc steps

theorem faults_args (hv : evalAll m ts args = .error f) :
    Faults p (act.config callers (callStmt result (.call label args) :: rest) ts m h) f
      (act.config callers rest ts m h) :=
  stops_of_execute fun steps => by
    rw [execute_call, show ((act.config callers rest ts m h).state steps).machine.memory = m from
      rfl, hv]

/-- The caller takes the result of an activation that has no statements left. -/
theorem moves_leave (caller : Activation) {ts' : Temps}
    (hr : caller.temps.receive act.result (ts.get m Temp.rv) = .ok ts') :
    Moves p (act.config (caller :: callers) [] ts m h)
      ⟨m.restore act.saved, h, { caller with temps := ts' } :: callers⟩ := by
  intro steps
  refine ⟨steps, ?_⟩
  cases ht : act.result with
  | none =>
    simp only [Temps.receive, ht, Except.ok.injEq] at hr
    subst hr
    simp [step, Activation.config, Config.state, leave, ht]
  | some t =>
    simp only [Temps.receive, ht] at hr
    simp [step, Activation.config, Config.state, leave, ht, assign, hr]

theorem returns_leave :
    Returns p (act.config [] [] ts m h) (ts.get m Temp.rv) ⟨m.restore act.saved, h, []⟩ := by
  intro steps
  exact ⟨steps, by simp [step, Activation.config, Config.state, leave]⟩

end

/-! ## From steps to runs -/

variable {p : LinearProgram} {c c' : Config}

theorem loop_of_steps (h : Steps p c c') :
    ∀ steps, ∃ n steps', ∀ fuel,
      loop p none (n + fuel) (c.state steps) = loop p none fuel (c'.state steps') := by
  induction h using Relation.ReflTransGen.head_induction_on with
  | refl => intro steps; exact ⟨0, steps, fun fuel => by rw [Nat.zero_add]⟩
  | head hmove _ ih =>
    intro steps
    obtain ⟨steps₁, h₁⟩ := hmove steps
    obtain ⟨n, steps', hn⟩ := ih steps₁
    refine ⟨n + 1, steps', fun fuel => ?_⟩
    rw [show n + 1 + fuel = (n + fuel) + 1 by omega, loop, bind_apply, h₁]
    exact hn fuel

/-- Enough fuel lets the machine run to this result. -/
def LoopsTo (p : LinearProgram) (s : State) (res : EStateM.Result (Halt Fault) State Value) :
    Prop :=
  ∃ n, ∀ fuel, n ≤ fuel → loop p none fuel s = res

theorem LoopsTo.of_steps (h : Steps p c c') (steps : Nat) :
    ∃ steps', ∀ res, LoopsTo p (c'.state steps') res → LoopsTo p (c.state steps) res := by
  obtain ⟨n, steps', hn⟩ := loop_of_steps h steps
  refine ⟨steps', fun res ⟨m, hm⟩ => ⟨n + m, fun fuel hfuel => ?_⟩⟩
  rw [show fuel = n + (fuel - n) by omega, hn]
  exact hm _ (by omega)

variable {c₁ : Config}

theorem loopsTo_returns {v : Value} (h : Steps p c c₁) (hr : Returns p c₁ v c') (steps : Nat) :
    ∃ steps', LoopsTo p (c.state steps) (.ok v (c'.state steps')) := by
  obtain ⟨steps₁, hs⟩ := LoopsTo.of_steps h steps
  obtain ⟨steps', hret⟩ := hr steps₁
  refine ⟨steps', hs _ ⟨1, fun fuel hfuel => ?_⟩⟩
  rw [show fuel = (fuel - 1) + 1 by omega, loop, bind_apply, hret]
  rfl

theorem loopsTo_stops {halt : Halt Fault} (h : Steps p c c₁) (hs : Stops p c₁ halt c')
    (steps : Nat) : ∃ steps', LoopsTo p (c.state steps) (.error halt (c'.state steps')) := by
  obtain ⟨steps₁, hs₁⟩ := LoopsTo.of_steps h steps
  obtain ⟨steps', hstep⟩ := hs steps₁
  refine ⟨steps', hs₁ _ ⟨1, fun fuel hfuel => ?_⟩⟩
  rw [show fuel = (fuel - 1) + 1 by omega, loop, bind_apply, hstep]

end Linear
end PinsBackend
