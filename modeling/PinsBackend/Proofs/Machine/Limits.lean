import PinsBackend.Proofs.Machine.Budget
import PinsBackend.Proofs.Machine.Congruence

/-! Limits only cut runs short.

Besides the step budget, the evaluator has a limit on nested calls and fuel. A run that none of them
ends is the same under any larger ones. -/
namespace PinsBackend

open Ir

namespace Nested

/-! ## Larger limits -/

/-- One limit allows no more than another; `none` is no limit. -/
def AtMost : Option Nat → Option Nat → Prop
  | _, none => True
  | some n, some n' => n ≤ n'
  | none, some _ => False

/-- The same program with no smaller limits. -/
structure Setting.Within (setting setting' : Setting) : Prop where
  program : setting'.program = setting.program
  depth : setting.maxCallDepth ≤ setting'.maxCallDepth
  budget : AtMost setting.budget setting'.budget

/-- A limit has ended the evaluation: the fuel, the budget or the guard on nested calls. The guard
stands before the stack is used, so of the overflows only its own are met with this many live calls.
-/
inductive Limited {α : Type} (setting : Setting) : EStateM.Result (Halt Fault) State α → Prop
  | fuel (s : State) : Limited setting (.error .unfinished s)
  | budget (n : Nat) (s : State) : Limited setting (.error (.fault (.timeout n)) s)
  | guard {s : State} (sp : Int) (deep : setting.maxCallDepth ≤ s.calls.length) :
    Limited setting (.error (.fault (.stackOverflow sp)) s)

section

variable {α β : Type} {setting setting' : Setting} {fuel fuel' : Nat}

/-- The second computation does what the first does, unless a limit ends the first. -/
def Extends (setting : Setting) (x x' : EvalM α) : Prop := ∀ s, x' s = x s ∨ Limited setting (x s)

theorem Extends.refl (x : EvalM α) : Extends setting x x := fun _ => .inl rfl

variable {f : α → EvalM β}

theorem Limited.bind {x : EvalM α} {s : State} (h : Limited setting (x s)) :
    Limited setting ((x >>= f) s) := by
  rw [bind_apply]
  generalize x s = res at h
  cases h with
  | fuel s' => exact .fuel s'
  | budget n s' => exact .budget n s'
  | guard sp deep => exact .guard sp deep

theorem Extends.bind {x x' : EvalM α} {f' : α → EvalM β} (hx : Extends setting x x')
    (hf : ∀ a, Extends setting (f a) (f' a)) : Extends setting (x >>= f) (x' >>= f') := by
  intro s
  rcases hx s with same | limited
  · simp only [bind_apply, same]
    cases x s with
    | error halt s' => exact .inl rfl
    | ok a s' => exact hf a s'
  · exact .inr limited.bind

theorem extends_tick (h : setting.Within setting') :
    Extends setting (tick setting) (tick setting') := by
  intro ⟨⟨m, host, steps⟩, calls, temps⟩
  have budget := h.budget
  simp only [tick, onMachine, Machine.tick]
  cases old : setting.budget with
  | none =>
    rw [old] at budget
    cases new : setting'.budget with
    | none => exact .inl rfl
    | some n' =>
      rw [new] at budget
      exact budget.elim
  | some n =>
    rw [old] at budget
    dsimp only
    by_cases past : n < steps + 1
    · rw [if_pos past]
      exact .inr (.budget n _)
    · rw [if_neg past]
      left
      cases new : setting'.budget with
      | none => rfl
      | some n' =>
        rw [new] at budget
        have within : ¬ n' < steps + 1 := by
          have : n ≤ n' := budget
          omega
        simp only [if_neg within]

theorem extends_enter (h : setting.Within setting') (label : String) (frame : Frame)
    (args : List Value) :
    Extends setting (enter setting label frame args) (enter setting' label frame args) := by
  intro s
  simp only [enter_apply]
  cases frame.argumentWords with
  | error o => exact .inl rfl
  | ok expected =>
    dsimp only
    by_cases arity : args.length = expected
    · rw [if_pos arity, if_pos arity]
      by_cases deep : setting.maxCallDepth ≤ s.calls.length
      · rw [if_pos deep]
        exact .inr (.guard _ deep)
      · have shallow : ¬ setting'.maxCallDepth ≤ s.calls.length := by
          have := h.depth
          omega
        rw [if_neg deep, if_neg shallow]
        exact .inl rfl
    · rw [if_neg arity, if_neg arity]
      exact .inl rfl

theorem extends_congruence (limits : setting.Within setting') :
    Congruence setting setting' (Extends setting) where
  pure _ := .refl _
  throw _ := .refl _
  get := .refl _
  lift _ := .refl _
  tick := extends_tick limits
  writeTemp _ _ := .refl _
  store _ _ := .refl _
  bind := .bind
  unfinished _ s := .inr (.fuel s)

theorem extends_call (limits : setting.Within setting')
    (h : Related setting setting' (Extends setting) fuel fuel') (label : String)
    (args : List Value) :
    Extends setting (call setting (fuel + 1) label args)
      (call setting' (fuel' + 1) label args) := by
  rw [call, call, limits.program]
  cases setting.program.chunk? label with
  | none => exact .refl _
  | some chunk =>
    apply (extends_enter limits label chunk.frame args).bind
    intro caller
    apply (h.exec chunk.body).bind
    intro flow
    exact .refl _

/-- Evaluation with larger limits and more fuel extends evaluation. -/
theorem extended (limits : setting.Within setting') (more : fuel ≤ fuel') :
    Related setting setting' (Extends setting) fuel fuel' :=
  (extends_congruence limits).related (extends_call limits) more

/-! ## Runs -/

/-- The guard on nested calls ends this call from outside. -/
def Guards (setting : Setting) (fuel : Nat) (label : String) (machine : Machine) : Prop :=
  ∃ args sp s,
    Machine.zeroArguments ((setting.program.chunk? label).elim 0 fun c => c.frame.parameterCount) =
    .ok args ∧
    call setting fuel label args { machine } = .error (.fault (.stackOverflow sp)) s ∧
    setting.maxCallDepth ≤ s.calls.length

/-- The guard on nested calls ends the run, in the global initializers or in the entry function. -/
inductive TooDeep (setting : Setting) (fuel : Nat) (machine : Machine) : Prop
  | init {allocated : Machine}
      (static : Machine.onMemory (Memory.allocateGlobals setting.program.globals) machine =
        .ok () allocated)
      (guards : Guards setting fuel Frame.initLabel allocated)
  | entry {allocated initialized : Machine} {v : Value}
      (static : Machine.onMemory (Memory.allocateGlobals setting.program.globals) machine =
        .ok () allocated)
      (init : invoke setting fuel Frame.initLabel allocated = .ok v initialized)
      (guards : Guards setting fuel setting.program.entry initialized)

/-- The fuel or the budget has ended the run. -/
inductive Spent : EStateM.Result (Halt Crash) Machine α → Prop
  | fuel (last : Machine) : Spent (.error .unfinished last)
  | budget (function : String) (n : Nat) (last : Machine) : Spent
      (.error (.fault ⟨function, .timeout n⟩) last)

theorem invoke_extends (limits : setting.Within setting') (more : fuel ≤ fuel') (label : String)
    (machine : Machine) :
    invoke setting' fuel' label machine = invoke setting fuel label machine ∨
      Spent (invoke setting fuel label machine) ∨ Guards setting fuel label machine := by
  unfold invoke
  rw [limits.program]
  dsimp only
  cases zero : Machine.zeroArguments
    ((setting.program.chunk? label).elim 0 fun c => c.frame.parameterCount) with
  | error o => exact .inl rfl
  | ok args =>
    dsimp only
    rcases (extended limits more).call label args { machine } with same | limited
    · rw [same]
      exact .inl rfl
    · right
      cases called : call setting fuel label args { machine } with
      | ok v s =>
        rw [called] at limited
        cases limited
      | error halt s =>
        rw [called] at limited
        cases limited with
        | fuel => exact .inl (.fuel _)
        | budget n => exact .inl (.budget _ n _)
        | guard sp deep => exact .inr ⟨args, sp, s, zero, called, deep⟩

theorem run_extends (limits : setting.Within setting') (more : fuel ≤ fuel') (machine : Machine)
    (unspent : ¬ Spent (run setting fuel machine)) (shallow : ¬ TooDeep setting fuel machine) :
    run setting' fuel' machine = run setting fuel machine := by
  simp only [Canonical.nested_run_eq, Lockstep.runBy_eq, limits.program] at unspent ⊢
  cases static : Machine.onMemory (Memory.allocateGlobals setting.program.globals) machine with
  | error halt last => rfl
  | ok _ allocated =>
    rw [static] at unspent
    dsimp only at unspent ⊢
    rcases invoke_extends limits more Frame.initLabel allocated with same | spent | guards
    · rw [same]
      cases init : invoke setting fuel Frame.initLabel allocated with
      | error halt last => rfl
      | ok v initialized =>
        rw [init] at unspent
        dsimp only [Lockstep.andThen] at unspent ⊢
        rcases invoke_extends limits more setting.program.entry initialized with
          same | spent | guards
        · rw [same]
        · refine absurd ?_ unspent
          generalize invoke setting fuel setting.program.entry initialized = res at spent
          cases spent with
          | fuel last => exact .fuel last
          | budget function n last => exact .budget function n last
        · exact absurd (.entry static init guards) shallow
    · refine absurd ?_ unspent
      generalize invoke setting fuel Frame.initLabel allocated = res at spent
      cases spent with
      | fuel last => exact .fuel last
      | budget function n last => exact .budget function n last
    · exact absurd (.init static guards) shallow

/-- The guard is reported as an overflow of the stack. -/
theorem TooDeep.overflows {machine : Machine} (h : TooDeep setting fuel machine) :
    ∃ crash last, run setting fuel machine = .error (.fault crash) last := by
  have reported {label : String} {machine : Machine} (guards : Guards setting fuel label machine) :
      ∃ crash last, invoke setting fuel label machine = .error (.fault crash) last := by
    obtain ⟨args, sp, s, zero, called, -⟩ := guards
    exact ⟨_, _, by rw [invoke, zero]; simp only [called]; rfl⟩
  rw [Canonical.nested_run_eq, Lockstep.runBy_eq]
  cases h with
  | init static guards =>
    obtain ⟨crash, last, failed⟩ := reported guards
    exact ⟨crash, last, by rw [static]; simp only [failed]; rfl⟩
  | entry static init guards =>
    obtain ⟨crash, last, failed⟩ := reported guards
    exact ⟨crash, last, by rw [static]; simp only [init, Lockstep.andThen, failed]; rfl⟩

end

end Nested

/-- Limits only cut runs short. A run of linear code under a budget of statements ends; it ends as
without the budget if that run ends within it; and otherwise it ends with a timeout, with what the
run without the budget has written when it has executed as many statements as the budget allows. A
run of tree code that ends by none of its limits ends so with all larger ones. -/
theorem limits_only_cut_runs_short (words : Nat) (sink : Sink) :
    (∀ (p : LinearProgram) (N : Nat),
      (∃ res, Linear.EndsIn p (some N) (Machine.create words sink) res) ∧
      (∀ res, Linear.EndsIn p none (Machine.create words sink) res → (left res).steps ≤ N →
        Linear.EndsIn p (some N) (Machine.create words sink) res) ∧
      ((∀ res, Linear.EndsIn p none (Machine.create words sink) res → N < (left res).steps) →
        ∃ function last,
          Linear.EndsIn p (some N) (Machine.create words sink)
          (.error (.fault ⟨function, .timeout N⟩) last) ∧
          (∃ s, Linear.Visits p none (Machine.create words sink) s ∧ s.machine.steps = N) ∧
          ∀ s, Linear.Visits p none (Machine.create words sink) s → s.machine.steps = N →
            s.machine.host = last.host)) ∧
    ∀ setting setting' fuel fuel', Nested.Setting.Within setting setting' → fuel ≤ fuel' →
      ¬ Nested.Spent (Nested.run setting fuel (Machine.create words sink)) →
      ¬ Nested.TooDeep setting fuel (Machine.create words sink) →
      Nested.run setting' fuel' (Machine.create words sink) =
        Nested.run setting fuel (Machine.create words sink) := by
  constructor
  · intro p N
    exact Linear.budget_cuts_short p N (Nat.zero_le N)
  · intro setting setting' fuel fuel' limits more unspent shallow
    exact Nested.run_extends limits more _ unspent shallow

/-- The program prints `true` again and again. -/
def printForever : LinearProgram where
  init := { frame := .initial, body := [] }
  globals := []
  entry := "main"
  chunks :=
    [{ frame := { label := "main", depth := 1, parameterCount := 0, parametersSize := 8 }
       body :=
        [.label "again",
         .eval (.call "print_log" [.const (.int 0), .const (.int 1)]),
         .jump "again"] }]

theorem limits_only_cut_runs_short_printForever :
    (∃ function last,
      Linear.EndsIn printForever (some 5) (Machine.create 16 {})
      (.error (.fault ⟨function, .timeout 5⟩) last) ∧
      last.host.sink.bytes.data.toList = "true\ntrue\n".toUTF8.data.toList) ∧
    Nested.run ⟨sumDown.asTree, 100, none⟩ 200 (Machine.create 16 {}) =
      Nested.run ⟨sumDown.asTree, 5, some 20⟩ 60 (Machine.create 16 {}) := by
  obtain ⟨linear, nested⟩ := limits_only_cut_runs_short 16 {}
  constructor
  · obtain ⟨-, shorter, longer⟩ := linear printForever 5
    have cut : failure? (Linear.run printForever (some 5) 20 (Machine.create 16 {})) =
          some (.fault ⟨"main", .timeout 5⟩) ∧
        (left (Linear.run printForever (some 5) 20 (Machine.create 16 {}))).steps = 6 ∧
        (left (Linear.run printForever (some 5) 20
          (Machine.create 16 {}))).host.sink.bytes.data.toList =
          "true\ntrue\n".toUTF8.data.toList := by decide +kernel
    obtain ⟨failed, clock, written⟩ := cut
    obtain ⟨last, ran⟩ := failure?_eq_some failed
    rw [ran, left] at clock written
    have finished :
        ¬ (Ending.ofRun
        (Linear.run printForever (some 5) 20 (Machine.create 16 {}))).Unfinished := by
      rw [ran]
      intro unfinished
      cases unfinished
    have long : ∀ res, Linear.EndsIn printForever none (Machine.create 16 {}) res →
        5 < (left res).steps := by
      intro res ends
      by_contra short
      have same := (shorter res ends (Nat.le_of_not_lt short)).eq_run finished
      rw [same, ran, left, clock] at short
      omega
    obtain ⟨function, last', ends, -, -⟩ := longer long
    have same := ends.eq_run finished
    rw [ran] at same
    cases same
    exact ⟨"main", last, ends, written⟩
  · have given :
      (Ending.ofRun (Nested.run ⟨sumDown.asTree, 5, some 20⟩ 60 (Machine.create 16 {}))).result =
        .ok (.int 6) := by decide +kernel
    have limits : Nested.Setting.Within ⟨sumDown.asTree, 5, some 20⟩ ⟨sumDown.asTree, 100, none⟩ :=
      ⟨rfl, by decide, trivial⟩
    apply nested _ _ 60 200 limits (by decide)
    · intro spent
      generalize Nested.run _ _ _ = res at given spent
      cases spent <;> cases given
    · intro deep
      obtain ⟨crash, last, failed⟩ := deep.overflows
      rw [failed] at given
      cases given

end PinsBackend
