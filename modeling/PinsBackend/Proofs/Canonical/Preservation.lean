import PinsBackend.Proofs.Canonical.Statements

/-! Linear code gives the results of the tree code it comes from.

A run of tree code that ends with a result has its counterpart on the linear machine, which ends
with the same result, the same output and the same memory, word for word. -/
namespace PinsBackend

open Ir

/-- With enough fuel a call of linear code from outside ends like this. -/
def Linear.InvokesTo (p : LinearProgram) (label : String) (machine : Machine)
    (res : EStateM.Result (Halt Crash) Machine Value) : Prop :=
  ∃ n, ∀ fuel, n ≤ fuel → Linear.invoke p none fuel label machine = res

/-- With enough fuel linear code runs to this end. -/
def Linear.RunsTo (p : LinearProgram) (machine : Machine)
    (res : EStateM.Result (Halt Crash) Machine Outcome) : Prop :=
  ∃ n, ∀ fuel, n ≤ fuel → Linear.run p none fuel machine = res

namespace Canonical

variable {label : String}

variable {setting : Nested.Setting} {p : LinearProgram} {fuel : Nat}

/-- A call of the label from outside means the same to both machines: only the evaluator takes a
built-in here. -/
def Callable (program : TreeProgram) (label : String) : Prop :=
  program.chunk? label = none → Builtin.ofLabel? label = none

/-- How a call of linear code from outside follows one of tree code. A fault may give way to a
quiet one. -/
def Invokes (setting : Nested.Setting) (p : LinearProgram) (label : String)
    (machine : Machine) : EStateM.Result (Halt Crash) Machine Value → Prop
  | .ok v last => ∃ steps, Linear.InvokesTo p label machine (.ok v { last with steps })
  | .error (.fault crash) last =>
    crash.fault.isAnnounced = true → setting.budget = none →
      crash.fault ≠ .stackOverflow last.memory.sp → Callable setting.program label →
      ∃ f steps, (f = crash.fault ∨ f.isQuiet = true) ∧
        Linear.InvokesTo p label machine (.error (.fault ⟨crash.function, f⟩) { last with steps })
  | .error _ _ => True

/-- The end of a call from outside, by how the loop ends. -/
def closed (label : String) : EStateM.Result (Halt Fault) Linear.State Value →
    EStateM.Result (Halt Crash) Machine Value
  | .ok v s => .ok v s.machine
  | .error h s =>
    .error (h.blame ((s.stack.map fun a => a.chunk.frame.label).headD label)) s.machine

theorem invoke_linear (fuel : Nat) {c : Chunk (List Stmt)} (hc : p.chunk? label = some c)
    {args : List Value} (hargs : Machine.zeroArguments c.frame.parameterCount = .ok args)
    (machine : Machine) :
    Linear.invoke p none fuel label machine = closed label
      ((do Linear.call p label args none; Linear.loop p none fuel : Linear.StepM Value)
        ⟨machine, []⟩) := by
  have running (s : Linear.State) :
      s.running label = (s.stack.map fun a => a.chunk.frame.label).headD label := by
    unfold Linear.State.running
    cases s.stack <;> rfl
  simp only [Linear.invoke, hc, hargs]
  cases (do Linear.call p label args none; Linear.loop p none fuel : Linear.StepM Value)
    ⟨machine, []⟩ with
  | ok v s => simp only [closed]
  | error h s => simp only [closed, running]

/-- A label without code. -/
theorem follows_invoke_missing (hp : setting.program.canonical = .ok p) (fuel : Nat)
    (hchunk : setting.program.chunk? label = none) (m : Memory) (h : Host) (steps steps' : Nat) :
    Invokes setting p label ⟨m, h, steps'⟩ (Nested.invoke setting fuel label ⟨m, h, steps⟩) := by
  simp only [Nested.invoke, hchunk, Option.elim_none]
  cases hargs : Machine.zeroArguments 0 with
  | error o => trivial
  | ok args =>
    cases fuel with
    | zero => trivial
    | succ fuel =>
      simp only [Nested.call, hchunk, Nested.onMachine, Machine.callBuiltin_apply,
        Machine.zeroArguments_zero hargs]
      cases hb : Builtin.ofLabel? label with
      | none =>
        intro _ _ _ _
        exact ⟨_, steps', .inl rfl, 0, fun fuel _ => by
          simp only [Linear.invoke, chunk_none hp hchunk]; rfl⟩
      | some b =>
        -- a built-in gets no arguments here, which none of them takes
        have refused {b : Builtin} (hcall : Callable setting.program label)
            (hb : Builtin.ofLabel? label = some b) : False := by
          rw [hcall hchunk] at hb
          cases hb
        cases b <;> exact fun _ _ _ hcall => (refused hcall hb).elim

/-- The linear machine follows a call from outside. -/
theorem follows_invoke (hp : setting.program.canonical = .ok p)
    (hl : ∀ c ∈ setting.program.init :: setting.program.chunks, c.body.labels.Nodup)
    (fuel : Nat) (label : String) {machine machine' : Machine}
    (hm : machine'.memory = machine.memory) (hh : machine'.host = machine.host) :
    Invokes setting p label machine' (Nested.invoke setting fuel label machine) := by
  obtain ⟨m, h, steps⟩ := machine
  obtain ⟨m', h', steps'⟩ := machine'
  obtain rfl : m' = m := hm
  obtain rfl : h' = h := hh
  cases hchunk : setting.program.chunk? label with
  | none => exact follows_invoke_missing hp fuel hchunk m' h' steps steps'
  | some c =>
    obtain ⟨c', limit, hc', lin⟩ := chunk_linearized hp hchunk
    have unique := hl c (Program.mem_of_chunk? hchunk).1
    simp only [Nested.invoke, hchunk, Option.elim_some]
    cases hargs : Machine.zeroArguments c.frame.parameterCount with
    | error o => trivial
    | ok args =>
      have linear (fuel : Nat) := invoke_linear fuel hc' (lin.frame ▸ hargs) ⟨m', h', steps'⟩
      dsimp only
      cases fuel with
      | zero => trivial
      | succ fuel =>
        simp only [Nested.call, hchunk]
        rw [bind_apply]
        cases opening setting hc' args none { machine := ⟨m', h', steps⟩ } [] with
        | tooDeep deep tree =>
          rw [← lin.frame, tree]
          intro _ _ guard
          exact absurd rfl guard
        | @fails halt m tree call =>
          rw [← lin.frame, tree]
          cases halt with
          | fault f =>
            intro _ _ _ _
            refine ⟨_, steps', .inl rfl, 0, fun fuel _ => ?_⟩
            rw [linear, bind_apply]
            simp only [Linear.Config.state] at call
            rw [call]
            rfl
          | overflow | unfinished => trivial
        | @opens saved m entered tree call =>
          rw [lin.frame] at tree
          rw [tree]
          let k : Track := .opened lin unique none saved []
          let S : Nested.State := ⟨⟨m, h', steps⟩, [c.frame.label], {}⟩
          have started {res : EStateM.Result (Halt Fault) Linear.State Value}
              (h : Linear.LoopsTo p ((k.config c'.body {} S).state steps') res) :
              Linear.InvokesTo p label ⟨m', h', steps'⟩ (closed label res) := by
            obtain ⟨n, hn⟩ := h
            refine ⟨n, fun fuel hfuel => ?_⟩
            rw [linear, bind_apply, ← hn fuel hfuel]
            simp only [Linear.Config.state] at call
            rw [call]
            rfl
          have calls : ([] : List String) = [].map fun a : Linear.Activation =>
            a.chunk.frame.label :=
            rfl
          obtain ⟨fx, body⟩ := follows_body (follows hp hl fuel).2.2.1 lin unique none saved []
            ⟨m, h', steps⟩ calls
          dsimp only
          rw [bind_apply]
          generalize Nested.exec setting fuel c.body ⟨⟨m, h', steps⟩, [c.frame.label], {}⟩ = res
            at body
          cases res with
          | ok flow S₂ =>
            cases flow with
            | next =>
              obtain ⟨ts₂, harr, htr₂⟩ := body
              have value : ts₂.get S₂.machine.memory Temp.rv =
                  S₂.temps.get S₂.machine.memory Temp.rv :=
                htr₂.get (Nat.lt_of_lt_of_le (by decide) lin.two_le)
              obtain ⟨steps₂, ends⟩ := Linear.loopsTo_returns harr.steps Linear.returns_leave steps'
              have invoked := started ends
              rw [value] at invoked
              exact ⟨steps₂, invoked⟩
            | jump l =>
              exact fun hann => by cases hann
          | error halt S₂ =>
            cases halt with
            | fault f =>
              intro hann hbudget hguard _
              obtain ⟨c₁, f', c₂, hsteps, hfault, hf, hmem, hhost, hcalls⟩ :=
                body ⟨hann, hbudget, hguard⟩
              obtain ⟨steps₂, ends⟩ := Linear.loopsTo_stops hsteps hfault steps'
              have invoked := started ends
              simp only [closed, Linear.Config.state, Halt.blame, hmem, hhost, hcalls] at invoked
              exact ⟨f', steps₂, hf, invoked⟩
            | overflow | unfinished => trivial

/-- How a run of linear code follows one of tree code. -/
def Runs (setting : Nested.Setting) (p : LinearProgram) (machine : Machine) :
    EStateM.Result (Halt Crash) Machine Outcome → Prop
  | .ok o last => ∃ steps, Linear.RunsTo p machine (.ok ⟨o.value, steps⟩ { last with steps })
  | .error (.fault crash) last =>
    crash.fault.isAnnounced = true → setting.budget = none →
      crash.fault ≠ .stackOverflow last.memory.sp →
      Callable setting.program setting.program.entry →
      ∃ f steps, (f = crash.fault ∨ f.isQuiet = true) ∧
        Linear.RunsTo p machine (.error (.fault ⟨crash.function, f⟩) { last with steps })
  | .error _ _ => True

/-- The order of a run: static data, the global initializers, the entry function. -/
def runBy (globals : List Global) (entry : String)
    (invoke : String → EStateM (Halt Crash) Machine Value) (machine : Machine) :
    EStateM.Result (Halt Crash) Machine Outcome :=
  match Machine.onMemory (Memory.allocateGlobals globals) machine with
  | .error h last => .error (h.blame Frame.initLabel) last
  | .ok () allocated => match invoke Frame.initLabel allocated with
    | .error h last => .error h last
    | .ok _ initialized => match invoke entry initialized with
      | .error h last => .error h last
      | .ok v last => .ok ⟨v, last.steps⟩ last

theorem nested_run_eq (fuel : Nat) (machine : Machine) :
    Nested.run setting fuel machine =
      runBy setting.program.globals setting.program.entry (Nested.invoke setting fuel) machine := by
  unfold Nested.run runBy
  simp only [bind, EStateM.bind]
  cases Machine.onMemory (Memory.allocateGlobals setting.program.globals) machine with
  | error h last => rfl
  | ok _ allocated =>
    dsimp only
    cases Nested.invoke setting fuel Frame.initLabel allocated with
    | error h last => rfl
    | ok _ initialized =>
      dsimp only
      cases Nested.invoke setting fuel setting.program.entry initialized <;> rfl

theorem linear_run_eq (budget : Option Nat) (fuel : Nat) (machine : Machine) :
    Linear.run p budget fuel machine =
      runBy p.globals p.entry (Linear.invoke p budget fuel) machine := by
  unfold Linear.run runBy
  simp only [bind, EStateM.bind]
  cases Machine.onMemory (Memory.allocateGlobals p.globals) machine with
  | error h last => rfl
  | ok _ allocated =>
    dsimp only
    cases Linear.invoke p budget fuel Frame.initLabel allocated with
    | error h last => rfl
    | ok _ initialized =>
      dsimp only
      cases Linear.invoke p budget fuel p.entry initialized <;> rfl

/-- The linear machine follows a run. -/
theorem follows_run (setting : Nested.Setting) (hp : setting.program.canonical = .ok p)
    (hl : ∀ c ∈ setting.program.init :: setting.program.chunks, c.body.labels.Nodup)
    (fuel : Nat) (machine : Machine) :
    Runs setting p machine (Nested.run setting fuel machine) := by
  have ⟨globals, entry⟩ := TreeProgram.canonical_globals hp
  have linear (fuel : Nat) : Linear.run p none fuel machine = runBy setting.program.globals
      setting.program.entry (Linear.invoke p none fuel) machine := by
    rw [linear_run_eq, globals, entry]
  have named : Callable setting.program Frame.initLabel := fun _ => by decide
  simp only [nested_run_eq, runBy] at linear ⊢
  cases hallocate : Machine.onMemory (Memory.allocateGlobals setting.program.globals) machine with
  | error h last =>
    simp only [hallocate] at linear ⊢
    cases h with
    | fault f => exact fun _ _ _ _ => ⟨f, last.steps, .inl rfl, 0, fun fuel _ => linear fuel⟩
    | overflow o => trivial
    | unfinished => trivial
  | ok _ allocated =>
    simp only [hallocate] at linear ⊢
    have init : Invokes setting p _ allocated _ :=
      follows_invoke hp hl fuel Frame.initLabel rfl rfl
    generalize Nested.invoke setting fuel Frame.initLabel allocated = res at init
    cases res with
    | ok v initialized =>
      obtain ⟨steps, n, hn⟩ := init
      dsimp only
      have main : Invokes setting p _ { initialized with steps }
          (Nested.invoke setting fuel setting.program.entry initialized) :=
        follows_invoke hp hl fuel setting.program.entry rfl rfl
      generalize Nested.invoke setting fuel setting.program.entry initialized = res at main
      cases res with
      | ok w last =>
        obtain ⟨steps', n', hn'⟩ := main
        refine ⟨steps', max n n', fun fuel hfuel => ?_⟩
        simp only [linear, hn fuel (by omega), hn' fuel (by omega)]
      | error halt last =>
        cases halt with
        | fault crash =>
          intro hann hbudget hguard hentry
          obtain ⟨f, steps', hf, n', hn'⟩ := main hann hbudget hguard hentry
          refine ⟨f, steps', hf, max n n', fun fuel hfuel => ?_⟩
          simp only [linear, hn fuel (by omega), hn' fuel (by omega)]
        | overflow | unfinished => trivial
    | error halt last =>
      cases halt with
      | fault crash =>
        intro hann hbudget hguard _
        obtain ⟨f, steps, hf, n, hn⟩ := init hann hbudget hguard named
        refine ⟨f, steps, hf, n, fun fuel hfuel => ?_⟩
        simp only [linear, hn fuel hfuel]
      | overflow | unfinished => trivial

end Canonical

/-- Linear code ends with the result, the output and the memory of the tree code it comes from,
whatever limits the tree code was run with. -/
theorem canonical_preserves_results {P : TreeProgram} {C : LinearProgram}
    (hc : P.canonical = .ok C) (hl : ∀ c ∈ P.init :: P.chunks, c.body.labels.Nodup)
    (memoryWords : Nat) (sink : Sink) (maxCallDepth : Nat) (budget : Option Nat) (fuel : Nat)
    {o : Outcome} {last : Machine}
    (h : Nested.run ⟨P, maxCallDepth, budget⟩ fuel (Machine.create memoryWords sink) =
      .ok o last) :
    ∃ steps, Linear.RunsTo C (Machine.create memoryWords sink)
      (.ok ⟨o.value, steps⟩ ⟨last.memory, last.host, steps⟩) := by
  have runs := Canonical.follows_run ⟨P, maxCallDepth, budget⟩ hc hl fuel
    (Machine.create memoryWords sink)
  rw [h] at runs
  exact runs

/-- A sum whose left operand is counted down to zero by a loop in the right one, which then calls a
function. -/
def countdown : TreeProgram where
  init := { frame := .initial, body := .nop }
  globals := []
  entry := "main"
  chunks :=
    [{ frame := { label := "five", depth := 1, parameterCount := 0, parametersSize := 8 }
       body := .move (.temp Temp.rv) (.const (.int 5)) },
     { frame := { label := "main", depth := 1, parameterCount := 0, parametersSize := 8 }
       body := .seq [.move (.temp 2) (.const (.int 3)),
         .move (.temp Temp.rv) (.binop .add (.temp 2) (.eseq (.seq [.label "again",
           .move (.temp 2) (.binop .sub (.temp 2) (.const (.int 1))),
           .cjump (.temp 2) "again" "done", .label "done"])
           (.binop .mul (.call "five" [.temp Temp.fp]) (.const (.int 2)))))] }]

theorem canonical_preserves_results_countdown :
    ∃ C last steps, countdown.canonical = .ok C ∧
      (∀ c ∈ countdown.init :: countdown.chunks, c.body.labels.Nodup) ∧
      Nested.run ⟨countdown, 8, none⟩ 40 (Machine.create 8 {}) = .ok ⟨.int 13, 9⟩ last ∧
      Linear.RunsTo C (Machine.create 8 {})
        (.ok ⟨.int 13, steps⟩ ⟨last.memory, last.host, steps⟩) := by
  have canonical : countdown.canonical = .ok _ := rfl
  have unique : ∀ c ∈ countdown.init :: countdown.chunks, c.body.labels.Nodup := by decide
  obtain ⟨last, run⟩ := value?_eq_some (r := Nested.run ⟨countdown, 8, none⟩ 40
    (Machine.create 8 {})) (a := ⟨.int 13, 9⟩) (by decide +kernel)
  obtain ⟨steps, h⟩ := canonical_preserves_results canonical unique 8 {} 8 none 40 run
  exact ⟨_, last, steps, canonical, unique, run, h⟩

end PinsBackend
