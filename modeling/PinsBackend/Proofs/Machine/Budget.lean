import Mathlib.Logic.Relation
import PinsBackend.Proofs.Machine.Agreement
import PinsBackend.Proofs.Machine.Clock

/-! Runs of linear code under a step budget.

The budget changes no step that it allows. As each executed statement takes from it and each return
from the stack, a run under a budget ends: as without the budget, or with a timeout at the first
statement past it. -/
namespace PinsBackend.Linear

open Ir

variable {fuel : Nat} {v : Value} {returned : State}

variable {p : LinearProgram} {s s' : State} {N : Nat}

/-! ## Steps -/

/-- Within the budget a step is as without one, and a return always is. -/
theorem step_within (h : s.machine.steps < N ∨ ¬ s.Pending) :
    step p (some N) s = step p none s := by
  obtain ⟨machine, stack⟩ := s
  cases stack with
  | nil => rfl
  | cons act callers =>
    cases rest : act.rest with
    | nil => simp only [step, rest]
    | cons stmt rest' =>
      have within : ¬ N < machine.steps + 1 := by
        have := h.resolve_right (· ⟨act, callers, rfl, by simp [rest]⟩)
        simp only at this
        omega
      simp only [step, rest, bind_apply, onMachine, Machine.tick, within, ↓reduceIte]

/-- The statement past the budget is counted and not executed. -/
theorem step_past (pending : s.Pending) (spent : s.machine.steps = N) :
    ∃ s', step p (some N) s = .error (.fault (.timeout N)) s' ∧
      s'.machine = { s.machine with steps := N + 1 } ∧
        ∀ label, s'.running label = s.running label := by
  obtain ⟨machine, stack⟩ := s
  obtain ⟨act, callers, rfl, some⟩ := pending
  dsimp only at spent
  subst spent
  cases rest : act.rest with
  | nil => exact absurd rest some
  | cons stmt rest' =>
    refine ⟨⟨{ machine with steps := machine.steps + 1 }, { act with rest := rest' } :: callers⟩,
      ?_, rfl, fun _ => rfl⟩
    simp [step, rest, bind_apply, onMachine, Machine.tick]

/-- A budget changes no step but one that it refuses. -/
theorem step_budget (p : LinearProgram) (budget : Option Nat) (s : State) :
    step p budget s = step p none s ∨
      ∃ limit s', step p budget s = .error (.fault (.timeout limit)) s' := by
  obtain ⟨machine, stack⟩ := s
  cases stack with
  | nil => exact .inl rfl
  | cons act callers =>
    cases rest : act.rest with
    | nil => exact .inl (by simp only [step, rest])
    | cons stmt rest' =>
      rcases Machine.tick_cases budget machine with ticked | ⟨limit, -, ticked⟩
      · exact .inl (by simp only [step, rest, bind_apply, onMachine, ticked]; rfl)
      · exact .inr ⟨limit, _, by simp only [step, rest, bind_apply, onMachine, ticked]; rfl⟩

/-! ## Loops -/

/-- The machine comes from one state to the other, without a budget. -/
def Leads (p : LinearProgram) : State → State → Prop :=
  Relation.ReflTransGen fun s s' => step p none s = .ok none s'

theorem loop_succ (p : LinearProgram) (budget : Option Nat) (fuel : Nat) (s : State) :
    loop p budget (fuel + 1) s = match step p budget s with
      | .ok (some v) s' => .ok v s'
      | .ok none s' => loop p budget fuel s'
      | .error halt s' => .error halt s' := by
  simp only [loop, bind_apply]
  rcases step p budget s with ⟨_ | v, s'⟩ | ⟨halt, s'⟩ <;> rfl

theorem loop_budget (p : LinearProgram) (budget : Option Nat) (fuel : Nat) (s : State) :
    loop p budget fuel s = loop p none fuel s ∨
      ∃ limit s', loop p budget fuel s = .error (.fault (.timeout limit)) s' := by
  induction fuel generalizing s with
  | zero => exact .inl rfl
  | succ fuel ih =>
    rw [loop_succ, loop_succ]
    rcases step_budget p budget s with same | ⟨limit, s', refused⟩
    · rw [same]
      rcases step p none s with ⟨_ | v, s'⟩ | ⟨halt, s'⟩
      · exact ih s'
      · exact .inl rfl
      · exact .inl rfl
    · rw [refused]
      exact .inr ⟨limit, s', rfl⟩

/-- How a loop ends under a budget: as it does without one, or at a statement past the budget. -/
inductive Bounded (p : LinearProgram) (N fuel : Nat) (s : State) : Prop
  | spared (same : loop p (some N) fuel s = loop p none fuel s)
      (clock : (left (loop p none fuel s)).machine.steps ≤ N)
      (ends : ∀ last, loop p none fuel s ≠ .error .unfinished last)
  | cut {s' last : State} (leads : Leads p s s') (pending : s'.Pending)
      (spent : s'.machine.steps = N)
      (timeout : loop p (some N) fuel s = .error (.fault (.timeout N)) last)
      (host : last.machine.host = s'.machine.host)

theorem Bounded.head (stepped : step p none s = .ok none s')
    (free : step p (some N) s = step p none s) (h : Bounded p N fuel s') :
    Bounded p N (fuel + 1) s := by
  cases h with
  | spared same clock ends =>
    apply Bounded.spared
    · rw [loop_succ, loop_succ, free, stepped]
      exact same
    · rw [loop_succ, stepped]
      exact clock
    · rw [loop_succ, stepped]
      exact ends
  | cut leads pending spent timeout host =>
    apply Bounded.cut (.head stepped leads) pending spent _ host
    rw [loop_succ, free, stepped]
    exact timeout

/-- With fuel to spare the budget bounds the loop: an executed statement takes from the budget, a
return from the stack. -/
theorem loop_bounded (within : s.machine.steps ≤ N)
    (enough : 2 * (N - s.machine.steps) + s.stack.length < fuel) : Bounded p N fuel s := by
  induction fuel generalizing s with
  | zero => omega
  | succ fuel ih =>
    by_cases past : s.Pending ∧ s.machine.steps = N
    · obtain ⟨last, stopped, machine, -⟩ := step_past (p := p) past.1 past.2
      have timeout : loop p (some N) (fuel + 1) s = .error (.fault (.timeout N)) last := by
        rw [loop_succ, stopped]
      exact .cut .refl past.1 past.2 timeout (by rw [machine])
    · have free : s.machine.steps < N ∨ ¬ s.Pending := by
        by_cases pending : s.Pending
        · exact .inl (Nat.lt_of_le_of_ne within fun spent => past ⟨pending, spent⟩)
        · exact .inr pending
      have same := step_within (p := p) free
      have beat := step_beat p s
      -- a step that ends the loop ends it with and without the budget
      have spared (res : EStateM.Result (Halt Fault) State Value)
          (ended : ∀ budget, step p budget s = step p none s → loop p budget (fuel + 1) s = res)
          (clock : (left res).machine.steps ≤ N) (ends : ∀ last, res ≠ .error .unfinished last) :
          Bounded p N (fuel + 1) s := by
        have unbudgeted := ended none rfl
        apply Bounded.spared ((ended (some N) same).trans unbudgeted.symm)
        · rw [unbudgeted]
          exact clock
        · rw [unbudgeted]
          exact ends
      generalize stepped : step p none s = res at beat spared
      cases beat with
      | executes pending clock depth =>
        have inside := free.resolve_right (not_not_intro pending)
        apply Bounded.head stepped same
        apply ih <;> omega
      | @returns r s' idle clock host depth =>
        cases r with
        | none =>
          apply Bounded.head stepped same
          apply ih <;> omega
        | some v =>
          apply spared (.ok v s')
          · intro budget h
            rw [loop_succ, h]
          · exact clock ▸ within
          · exact nofun
      | @faults halt s' pending clock ends =>
        have inside := free.resolve_right (not_not_intro pending)
        apply spared (.error halt s')
        · intro budget h
          rw [loop_succ, h]
        · exact clock ▸ inside
        · rintro last ⟨⟩
          exact ends rfl
      | @stops halt s' idle clock ends =>
        apply spared (.error halt s')
        · intro budget h
          rw [loop_succ, h]
        · exact clock ▸ within
        · rintro last ⟨⟩
          exact ends rfl

/-- A machine is no further than another: it has executed no more statements, and if no fewer, then
nothing was written in between. -/
structure Precedes (machine machine' : Machine) : Prop where
  clock : machine.steps ≤ machine'.steps
  host : machine'.steps = machine.steps → machine'.host = machine.host

theorem Precedes.refl (machine : Machine) : Precedes machine machine :=
  ⟨Nat.le_refl _, fun _ => rfl⟩

theorem Precedes.trans {m₁ m₂ m₃ : Machine} (h : Precedes m₁ m₂) (h' : Precedes m₂ m₃) :
    Precedes m₁ m₃ := by
  have first := h.clock
  have second := h'.clock
  constructor
  · omega
  · intro same
    rw [h'.host (by omega), h.host (by omega)]

theorem step_precedes {r : Option Value} (h : step p none s = .ok r s') :
    Precedes s.machine s'.machine := by
  have beat := step_beat p s
  rw [h] at beat
  cases beat with
  | executes _ clock _ => exact ⟨by omega, fun same => by omega⟩
  | returns _ clock host _ => exact ⟨by omega, fun _ => host⟩

theorem Leads.precedes (h : Leads p s s') : Precedes s.machine s'.machine := by
  induction h with
  | refl => exact .refl _
  | tail _ stepped ih => exact ih.trans (step_precedes stepped)

/-- Of two states that the machine comes to, one leads to the other. -/
theorem Leads.comparable {s₁ s₂ : State} (h₁ : Leads p s s₁) (h₂ : Leads p s s₂) :
    Leads p s₁ s₂ ∨ Leads p s₂ s₁ := by
  induction h₁ using Relation.ReflTransGen.head_induction_on with
  | refl => exact .inl h₂
  | head stepped leads ih =>
    rcases h₂.cases_head with rfl | ⟨s', stepped', leads'⟩
    · exact .inr (.head stepped leads)
    · rw [stepped] at stepped'
      cases stepped'
      exact ih leads'

/-- No step leads on from a state that returns. -/
theorem Leads.eq_of_returns (h : Leads p s s') (returns : step p none s = .ok (some v) returned) :
    s' = s := by
  rcases h.cases_head with rfl | ⟨s₁, stepped, -⟩
  · rfl
  · rw [returns] at stepped
    cases stepped

/-- A loop that ends goes through every state that its first one leads to. -/
theorem loop_leads (h : Leads p s s')
    (ends : ∀ last, loop p none fuel s ≠ .error .unfinished last) :
    ∃ fuel', loop p none fuel s = loop p none fuel' s' := by
  induction h using Relation.ReflTransGen.head_induction_on generalizing fuel with
  | refl => exact ⟨fuel, rfl⟩
  | head stepped _ ih =>
    cases fuel with
    | zero => exact absurd rfl (ends _)
    | succ fuel =>
      rw [loop_succ, stepped] at ends ⊢
      exact ih ends

/-- A loop that ends has executed the statement it began with. -/
theorem loop_clock (ends : ∀ last, loop p none fuel s ≠ .error .unfinished last) :
    s.machine.steps ≤ (left (loop p none fuel s)).machine.steps ∧
      (s.Pending → s.machine.steps < (left (loop p none fuel s)).machine.steps) := by
  induction fuel generalizing s with
  | zero => exact absurd rfl (ends _)
  | succ fuel ih =>
    have beat := step_beat p s
    rw [loop_succ] at ends ⊢
    generalize step p none s = res at beat ends ⊢
    cases beat with
    | executes pending clock depth =>
      have later := (ih ends).1
      dsimp only
      exact ⟨by omega, fun _ => by omega⟩
    | @returns r s' idle clock host depth =>
      cases r with
      | none =>
        have later := (ih ends).1
        dsimp only
        exact ⟨by omega, fun pending => absurd pending idle⟩
      | some v => exact ⟨Nat.le_of_eq clock.symm, fun pending => absurd pending idle⟩
    | faults pending clock _ =>
      simp only [left]
      exact ⟨by omega, fun _ => by omega⟩
    | stops idle clock _ => exact ⟨Nat.le_of_eq clock.symm, fun pending => absurd pending idle⟩

/-! ## Calls from outside -/

variable {label : String} {machine : Machine}

theorem Starts.host (h : Starts p label machine s) : s.machine.host = machine.host := by
  obtain ⟨c, args, hc, -, called⟩ := h
  exact (call_outside hc called).1

theorem Starts.clock (h : Starts p label machine s) : s.machine.steps = machine.steps := by
  obtain ⟨c, args, -, -, called⟩ := h
  exact (call_deed called).clock

theorem Starts.unique (h : Starts p label machine s) (h' : Starts p label machine s') : s' = s := by
  obtain ⟨c, args, hc, hargs, called⟩ := h
  obtain ⟨c', args', hc', hargs', called'⟩ := h'
  rw [hc] at hc'
  cases hc'
  rw [hargs] at hargs'
  cases hargs'
  rw [called] at called'
  cases called'
  rfl

/-- A call from outside loops from the state in which it starts. -/
theorem Starts.invoke_eq (h : Starts p label machine s) (budget : Option Nat) (fuel : Nat) :
    invoke p budget fuel label machine = Canonical.closed label (loop p budget fuel s) := by
  obtain ⟨c, args, hc, hargs, called⟩ := h
  simp only [invoke, hc, hargs, bind_apply, called]
  cases loop p budget fuel s with
  | ok v last => rfl
  | error halt last =>
    simp only [Canonical.closed, State.running]
    cases last.stack <;> rfl

/-- A call from outside starts, or it is refused, whatever the budget. -/
theorem starts_or_refused (p : LinearProgram) (label : String) (machine : Machine) :
    (∃ s, Starts p label machine s) ∨
    ∃ halt last, halt ≠ .unfinished ∧ last.steps = machine.steps ∧
      ∀ budget fuel, invoke p budget fuel label machine = .error halt last := by
  cases chunk : p.chunk? label with
  | none =>
    right
    refine ⟨.fault ⟨label, .unknownFunction label⟩, machine, by simp, rfl, fun budget fuel => ?_⟩
    simp only [invoke, chunk]
  | some c =>
    cases args : Machine.zeroArguments c.frame.parameterCount with
    | error o =>
      right
      refine ⟨.overflow o, machine, by simp, rfl, fun budget fuel => ?_⟩
      simp only [invoke, chunk, args]
    | ok vs =>
      cases called : call p label vs none ⟨machine, []⟩ with
      | ok _ s => exact .inl ⟨s, c, vs, chunk, args, called⟩
      | error halt s =>
        have deed := call_deed called
        right
        refine ⟨halt.blame (s.running label), s.machine, ?_, deed.clock, fun budget fuel => ?_⟩
        · cases halt with
          | fault f => simp [Halt.blame]
          | overflow o => simp [Halt.blame]
          | unfinished => exact absurd rfl deed.ends
        · simp only [invoke, chunk, args, bind_apply, called]

theorem invoke_budget (p : LinearProgram) (budget : Option Nat) (fuel : Nat) (label : String)
    (machine : Machine) :
    invoke p budget fuel label machine = invoke p none fuel label machine ∨
      ∃ function limit last, invoke p budget fuel label machine =
        .error (.fault ⟨function, .timeout limit⟩) last := by
  rcases starts_or_refused p label machine with ⟨s, starts⟩ | ⟨halt, last, -, -, refused⟩
  · rw [starts.invoke_eq, starts.invoke_eq]
    rcases loop_budget p budget fuel s with same | ⟨limit, s', timeout⟩
    · exact .inl (by rw [same])
    · exact .inr ⟨_, limit, s'.machine, by rw [timeout]; rfl⟩
  · exact .inl ((refused _ _).trans (refused _ _).symm)

theorem left_closed (label : String) (res : EStateM.Result (Halt Fault) State Value) :
    left (Canonical.closed label res) = (left res).machine := by
  cases res <;> rfl

theorem closed_ends {res : EStateM.Result (Halt Fault) State Value} :
    (∀ last, Canonical.closed label res ≠ .error .unfinished last) ↔
      ∀ last, res ≠ .error .unfinished last := by
  rcases res with ⟨v, s⟩ | ⟨_ | _ | _, s⟩ <;> simp [Canonical.closed, Halt.blame]

theorem Passes.leads {s₀ : State} (h : Passes p none label machine s)
    (starts : Starts p label machine s₀) :
    Leads p s₀ s := by
  induction h with
  | start h =>
    rw [starts.unique h]
    exact .refl
  | next _ stepped ih => exact ih.tail stepped

theorem Passes.of_leads (h : Passes p none label machine s) (leads : Leads p s s') :
    Passes p none label machine s' := by
  induction leads with
  | refl => exact h
  | tail _ stepped ih => exact .next ih stepped

theorem Passes.starts {budget : Option Nat} (h : Passes p budget label machine s) :
    ∃ s₀, Starts p label machine s₀ := by
  induction h with
  | start h => exact ⟨_, h⟩
  | next _ _ ih => exact ih

theorem Passes.comparable {s₁ s₂ : State} (h₁ : Passes p none label machine s₁)
    (h₂ : Passes p none label machine s₂) : Leads p s₁ s₂ ∨ Leads p s₂ s₁ := by
  obtain ⟨s₀, starts⟩ := h₁.starts
  exact (h₁.leads starts).comparable (h₂.leads starts)

theorem Passes.returned_unique {s₁ s₂ returned₁ returned₂ : State} {v₁ v₂ : Value}
    (h₁ : Passes p none label machine s₁) (h₂ : Passes p none label machine s₂)
    (returns₁ : step p none s₁ = .ok (some v₁) returned₁)
    (returns₂ : step p none s₂ = .ok (some v₂) returned₂) :
    returned₂ = returned₁ := by
  have same : s₂ = s₁ := by
    rcases h₁.comparable h₂ with leads | leads
    · exact leads.eq_of_returns returns₁
    · exact (leads.eq_of_returns returns₂).symm
  rw [same, returns₁] at returns₂
  cases returns₂
  rfl

theorem Passes.precedes (h : Passes p none label machine s) : Precedes machine s.machine := by
  obtain ⟨s₀, starts⟩ := h.starts
  have first : Precedes machine s₀.machine := ⟨Nat.le_of_eq starts.clock.symm, fun _ => starts.host⟩
  exact first.trans (h.leads starts).precedes

/-- A call that ends goes through every state it passes. -/
theorem Passes.invoke_eq (h : Passes p none label machine s)
    (ends : ∀ last, invoke p none fuel label machine ≠ .error .unfinished last) :
    ∃ fuel', invoke p none fuel label machine = Canonical.closed label (loop p none fuel' s) ∧
      ∀ last, loop p none fuel' s ≠ .error .unfinished last := by
  obtain ⟨s₀, starts⟩ := h.starts
  simp only [starts.invoke_eq] at ends ⊢
  have finite := closed_ends.1 ends
  obtain ⟨fuel', same⟩ := loop_leads (h.leads starts) finite
  rw [same] at finite
  exact ⟨fuel', by rw [same], finite⟩

/-- The call has given its value if it came to a state that returns it. -/
theorem Passes.gives (h : Passes p none label machine s)
    (returns : step p none s = .ok (some v) returned)
    (ends : ∀ last, invoke p none fuel label machine ≠ .error .unfinished last) :
    invoke p none fuel label machine = .ok v returned.machine := by
  obtain ⟨fuel', same, finite⟩ := h.invoke_eq ends
  cases fuel' with
  | zero => exact absurd rfl (finite s)
  | succ fuel' =>
    rw [same, loop_succ, returns]
    rfl

/-- A loop that gives a value comes to a state that returns it. -/
theorem loop_returns (h : loop p none fuel s = .ok v s') :
    ∃ last, Leads p s last ∧ step p none last = .ok (some v) s' := by
  induction fuel generalizing s with
  | zero => cases h
  | succ fuel ih =>
    rw [loop_succ] at h
    split at h
    · next returns =>
      cases h
      exact ⟨s, .refl, returns⟩
    · next stepped =>
      obtain ⟨last, leads, returns⟩ := ih h
      exact ⟨last, .head stepped leads, returns⟩
    · cases h

theorem invoke_returns {last : Machine} (h : invoke p none fuel label machine = .ok v last) :
    ∃ s returned, Passes p none label machine s ∧ step p none s = .ok (some v) returned ∧
      returned.machine = last := by
  rcases starts_or_refused p label machine with ⟨s, starts⟩ | ⟨halt, last', -, -, refused⟩
  · rw [starts.invoke_eq] at h
    cases looped : loop p none fuel s with
    | error halt s' =>
      rw [looped] at h
      cases h
    | ok v' s' =>
      rw [looped] at h
      cases h
      obtain ⟨last, leads, returns⟩ := loop_returns looped
      exact ⟨last, s', (Passes.start starts).of_leads leads, returns, rfl⟩
  · rw [refused] at h
    cases h

/-- What a budget of `N` does to a computation that visits these states: nothing, or it stops at a
statement past the budget with what was written before. -/
inductive Cut {α : Type} (N : Nat) (visits : State → Prop)
    (free budgeted : EStateM.Result (Halt Crash) Machine α) : Prop
  | spared (same : budgeted = free) (clock : (left free).steps ≤ N)
      (ends : ∀ last, free ≠ .error .unfinished last)
  | short {s : State} {function : String} {last : Machine} (visited : visits s)
      (pending : s.Pending)
      (spent : s.machine.steps = N)
        (timeout : budgeted = .error (.fault ⟨function, .timeout N⟩) last)
      (host : last.host = s.machine.host)

theorem Cut.ends {α : Type} {visits : State → Prop}
    {free budgeted : EStateM.Result (Halt Crash) Machine α} (h : Cut N visits free budgeted)
    (last : Machine) : budgeted ≠ .error .unfinished last := by
  cases h with
  | spared same _ ends => exact same ▸ ends last
  | short _ _ _ timeout _ =>
    rw [timeout]
    exact nofun

theorem invoke_cut (label : String) (within : machine.steps ≤ N) :
    ∃ n, ∀ fuel, n ≤ fuel → Cut N (Passes p none label machine) (invoke p none fuel label machine)
      (invoke p (some N) fuel label machine) := by
  rcases starts_or_refused p label machine with ⟨s, starts⟩ | ⟨halt, last, ends, clock, refused⟩
  · use 2 * (N - s.machine.steps) + s.stack.length + 1
    intro fuel enough
    simp only [starts.invoke_eq]
    have bounded : Bounded p N fuel s := loop_bounded (starts.clock ▸ within) enough
    cases bounded with
    | spared same clock ends =>
      apply Cut.spared
      · rw [same]
      · rw [left_closed]
        exact clock
      · exact closed_ends.2 ends
    | cut leads pending spent timeout host =>
      rw [timeout]
      exact .short ((Passes.start starts).of_leads leads) pending spent rfl host
  · use 0
    intro fuel _
    simp only [refused]
    apply Cut.spared rfl
    · exact clock ▸ within
    · rintro last ⟨⟩
      exact ends rfl

theorem Passes.clock_lt (h : Passes p none label machine s) (pending : s.Pending)
    (ends : ∀ last, invoke p none fuel label machine ≠ .error .unfinished last) :
    s.machine.steps < (left (invoke p none fuel label machine)).steps := by
  obtain ⟨fuel', same, finite⟩ := h.invoke_eq ends
  rw [same, left_closed]
  exact (loop_clock finite).2 pending

theorem invoke_clock (ends : ∀ last, invoke p none fuel label machine ≠ .error .unfinished last) :
    machine.steps ≤ (left (invoke p none fuel label machine)).steps := by
  rcases starts_or_refused p label machine with ⟨s, starts⟩ | ⟨halt, last, -, clock, refused⟩
  · rw [starts.invoke_eq] at ends ⊢
    rw [left_closed, ← starts.clock]
    exact (loop_clock (closed_ends.1 ends)).1
  · rw [refused]
    exact Nat.le_of_eq clock.symm

/-! ## Runs -/

section

variable {allocated : Machine} {budget : Option Nat} {fuel : Nat}

open Lockstep (andThen outcome)

/-- After its static data a run is a call of the global initializers and one of the entry function.
-/
theorem run_allocated
    (static : Machine.onMemory (Memory.allocateGlobals p.globals) machine = .ok () allocated) :
    run p budget fuel machine = andThen (invoke p budget fuel Frame.initLabel allocated)
      fun initialized => outcome (invoke p budget fuel p.entry initialized) := by
  rw [Canonical.linear_run_eq, Lockstep.runBy_eq, static]

theorem andThen_ends {α β : Type} {first : EStateM.Result (Halt Crash) Machine α}
    {next : Machine → EStateM.Result (Halt Crash) Machine β}
    (ends : ∀ last, andThen first next ≠ .error .unfinished last) (last : Machine) :
    first ≠ .error .unfinished last := by
  rintro rfl
  exact ends last rfl

theorem left_outcome (res : EStateM.Result (Halt Crash) Machine Value) :
    left (outcome res) = left res := by
  cases res <;> rfl

theorem outcome_ends {res : EStateM.Result (Halt Crash) Machine Value} :
    (∀ last, outcome res ≠ .error .unfinished last) ↔ ∀ last, res ≠ .error .unfinished last := by
  cases res <;> simp [outcome]

/-- A run that ends has executed the statement of every state it visits. -/
theorem Visits.clock_lt (h : Visits p none machine s) (pending : s.Pending)
    (ends : ∀ last, run p none fuel machine ≠ .error .unfinished last) :
    s.machine.steps < (left (run p none fuel machine)).steps := by
  cases h with
  | init static passes =>
    rw [run_allocated static] at ends ⊢
    have first := passes.clock_lt pending (andThen_ends ends)
    cases initialized : invoke p none fuel Frame.initLabel _ with
    | error halt last =>
      rw [initialized] at first
      exact first
    | ok v last =>
      rw [initialized] at first ends
      dsimp only [andThen] at ends ⊢
      rw [left_outcome]
      exact Nat.lt_of_lt_of_le first (invoke_clock (outcome_ends.1 ends))
  | entry static before returns passes =>
    rw [run_allocated static] at ends ⊢
    have initialized := before.gives returns (andThen_ends ends)
    rw [initialized] at ends ⊢
    dsimp only [andThen] at ends ⊢
    rw [left_outcome]
    exact passes.clock_lt pending (outcome_ends.1 ends)

/-- Of two states that a run visits, one is no further than the other. -/
theorem Visits.comparable {s₁ s₂ : State} (h₁ : Visits p none machine s₁)
    (h₂ : Visits p none machine s₂) :
    Precedes s₁.machine s₂.machine ∨ Precedes s₂.machine s₁.machine := by
  -- what the initializers do comes before what the entry function does
  have before_entry {s₁ s₂ last returned : State} {allocated : Machine} {v : Value}
      (first : Passes p none Frame.initLabel allocated s₁)
      (before : Passes p none Frame.initLabel allocated last)
      (returns : step p none last = .ok (some v) returned)
        (second : Passes p none p.entry returned.machine s₂) :
      Precedes s₁.machine s₂.machine := by
    have later := (step_precedes returns).trans second.precedes
    rcases first.comparable before with leads | leads
    · exact leads.precedes.trans later
    · rw [leads.eq_of_returns returns]
      exact later
  cases h₁ with
  | init static₁ passes₁ =>
    cases h₂ with
    | init static₂ passes₂ =>
      rw [static₁] at static₂
      cases static₂
      rcases passes₁.comparable passes₂ with leads | leads
      · exact .inl leads.precedes
      · exact .inr leads.precedes
    | entry static₂ before₂ returns₂ passes₂ =>
      rw [static₁] at static₂
      cases static₂
      exact .inl (before_entry passes₁ before₂ returns₂ passes₂)
  | entry static₁ before₁ returns₁ passes₁ =>
    cases h₂ with
    | init static₂ passes₂ =>
      rw [static₁] at static₂
      cases static₂
      exact .inr (before_entry passes₂ before₁ returns₁ passes₁)
    | entry static₂ before₂ returns₂ passes₂ =>
      rw [static₁] at static₂
      cases static₂
      rw [before₁.returned_unique before₂ returns₁ returns₂] at passes₂
      rcases passes₁.comparable passes₂ with leads | leads
      · exact .inl leads.precedes
      · exact .inr leads.precedes

/-- A call that has ended ends so with any more fuel. -/
theorem invoke_stable {fuel' : Nat}
    (ends : ∀ last, invoke p budget fuel label machine ≠ .error .unfinished last)
    (more : fuel ≤ fuel') :
    invoke p budget fuel' label machine = invoke p budget fuel label machine := by
  rcases invoke_mono (p := p) budget more label machine with ⟨last, unfinished⟩ | same
  · exact absurd unfinished (ends last)
  · exact same

/-- With enough fuel the budget spares a run or cuts it short. -/
theorem run_cut (within : machine.steps ≤ N) :
    ∃ n, ∀ fuel, n ≤ fuel → Cut N (Visits p none machine) (run p none fuel machine)
      (run p (some N) fuel machine) := by
  have clock : (left (Machine.onMemory (Memory.allocateGlobals p.globals) machine)).steps =
      machine.steps := by
    simp only [Machine.onMemory]
    split <;> rfl
  cases static : Machine.onMemory (Memory.allocateGlobals p.globals) machine with
  | error halt last =>
    rw [static] at clock
    use 0
    intro fuel _
    simp only [Canonical.linear_run_eq, Lockstep.runBy_eq, static]
    apply Cut.spared rfl (clock ▸ within)
    intro last h
    cases halt with
    | fault f => cases h
    | overflow o => cases h
    | unfinished =>
      simp only [Machine.onMemory] at static
      split at static
      · cases static
      · next refused =>
        cases static
        exact Memory.ofMemory_allocateGlobals refused
  | ok _ allocated =>
    rw [static] at clock
    simp only [left] at clock
    obtain ⟨n, first⟩ := invoke_cut (p := p) Frame.initLabel (clock ▸ within)
    have budgeted {fuel : Nat} (more : n ≤ fuel) :=
      invoke_stable (first n (Nat.le_refl n)).ends more
    simp only [run_allocated static]
    cases first n (Nat.le_refl n) with
    | short visited pending spent timeout host =>
      use n
      intro fuel more
      rw [budgeted more, timeout]
      exact .short (.init static visited) pending spent rfl host
    | spared same clock ends =>
      have unbudgeted {fuel : Nat} (more : n ≤ fuel) := invoke_stable ends more
      cases initialized : invoke p none n Frame.initLabel allocated with
      | error halt last =>
        use n
        intro fuel more
        rw [budgeted more, unbudgeted more, same, initialized]
        rw [initialized] at clock ends
        dsimp only [andThen]
        apply Cut.spared rfl
        · exact clock
        · rintro last ⟨⟩
          exact ends _ rfl
      | ok v last =>
        obtain ⟨s, returned, before, returns, rfl⟩ := invoke_returns initialized
        rw [initialized, left] at clock
        obtain ⟨n', second⟩ := invoke_cut (p := p) p.entry clock
        use max n n'
        intro fuel more
        rw [budgeted (by omega), unbudgeted (by omega), same, initialized]
        dsimp only [andThen]
        cases second fuel (by omega) with
        | spared same' clock' ends' =>
          apply Cut.spared
          · rw [same']
          · rw [left_outcome]
            exact clock'
          · exact outcome_ends.2 ends'
        | short visited pending spent timeout host =>
          rw [timeout]
          exact .short (.entry static before returns visited) pending spent rfl host

/-- The run comes to an end, and this is how it ends. -/
def EndsIn (p : LinearProgram) (budget : Option Nat) (machine : Machine)
    (res : EStateM.Result (Halt Crash) Machine Outcome) : Prop :=
  ¬ (Ending.ofRun res).Unfinished ∧ ∃ n, ∀ fuel, n ≤ fuel → run p budget fuel machine = res

theorem not_unfinished_iff {res : EStateM.Result (Halt Crash) Machine Outcome} :
    ¬ (Ending.ofRun res).Unfinished ↔ ∀ last, res ≠ .error .unfinished last := by
  cases res <;> simp [Ending.ofRun, Ending.Unfinished]

theorem endsIn_run (finished : ¬ (Ending.ofRun (run p budget fuel machine)).Unfinished) :
    EndsIn p budget machine (run p budget fuel machine) :=
  ⟨finished, fuel, fun _ more => (run_mono_within budget more machine).resolve_left finished⟩

theorem EndsIn.eq_run {res : EStateM.Result (Halt Crash) Machine Outcome}
    (h : EndsIn p budget machine res)
    (finished : ¬ (Ending.ofRun (run p budget fuel machine)).Unfinished) :
    res = run p budget fuel machine := by
  obtain ⟨-, n, ends⟩ := h
  have same := (run_mono_within budget (Nat.le_max_left fuel n) machine).resolve_left finished
  rw [← same, ends _ (Nat.le_max_right fuel n)]

end

/-- A budget only cuts runs short. Under it every run ends; a run that ends within the budget
without it ends so under it; and any other run ends with a timeout, with what the run without the
budget has written when it has executed as many statements as the budget allows. -/
theorem budget_cuts_short (p : LinearProgram) (N : Nat) {machine : Machine}
    (within : machine.steps ≤ N) :
    (∃ res, EndsIn p (some N) machine res) ∧
    (∀ res, EndsIn p none machine res → (left res).steps ≤ N → EndsIn p (some N) machine res) ∧
    ((∀ res, EndsIn p none machine res → N < (left res).steps) →
      ∃ function last, EndsIn p (some N) machine (.error (.fault ⟨function, .timeout N⟩) last) ∧
        (∃ s, Visits p none machine s ∧ s.machine.steps = N) ∧
        ∀ s, Visits p none machine s → s.machine.steps = N → s.machine.host = last.host) := by
  obtain ⟨n, cut⟩ := run_cut (p := p) within
  have ended : EndsIn p (some N) machine (run p (some N) n machine) :=
    endsIn_run (not_unfinished_iff.2 (cut n (Nat.le_refl n)).ends)
  refine ⟨⟨_, ended⟩, ?_, ?_⟩
  · rintro res ⟨finished, k, runs⟩ short
    cases cut (max n k) (Nat.le_max_left n k) with
    | spared same _ _ =>
      rw [runs _ (Nat.le_max_right n k)] at same
      rw [← same]
      exact endsIn_run (same ▸ finished)
    | short visited pending spent _ _ =>
      have ends : ∀ last, run p none k machine ≠ .error .unfinished last :=
        not_unfinished_iff.1 (runs k (Nat.le_refl k) ▸ finished)
      have late := visited.clock_lt pending ends
      rw [runs k (Nat.le_refl k)] at late
      omega
  · intro late
    cases cut n (Nat.le_refl n) with
    | spared same clock ends =>
      have long := late _ (endsIn_run (not_unfinished_iff.2 ends))
      omega
    | short visited pending spent timeout host =>
      rw [timeout] at ended
      refine ⟨_, _, ended, ⟨_, visited, spent⟩, ?_⟩
      intro s' visited' spent'
      rcases visited.comparable visited' with precedes | precedes
      · rw [host, precedes.host (by omega)]
      · rw [host, precedes.host (by omega)]

end PinsBackend.Linear
