import PinsBackend.Machine.Nested
import PinsBackend.Proofs.Machine.Commutation

/-! How calls begin, by the outcomes of the checks on the way. -/
namespace PinsBackend

open Ir

variable {label : String} {args : List Value} {p : LinearProgram} {c : Chunk (List Stmt)}

theorem Nested.enter_apply (setting : Nested.Setting) (label : String) (frame : Frame)
    (args : List Value) (S : Nested.State) :
    Nested.enter setting label frame args S =
      match frame.argumentWords with
      | .error o => .error (.overflow o) S
      | .ok expected =>
        if args.length = expected then
          if setting.maxCallDepth ≤ S.calls.length then
            .error (.fault (.stackOverflow S.machine.memory.sp)) S
          else
            match Memory.enter frame args S.machine.memory with
            | .ok registers m =>
              .ok ⟨registers, S.temps⟩
                ⟨{ S.machine with memory := m }, frame.label :: S.calls, {}⟩
            | .error h m => .error h ⟨{ S.machine with memory := m }, S.calls, S.temps⟩
        else .error (.fault (.malformed (.callArity label args.length expected))) S := by
  unfold Nested.enter
  cases frame.argumentWords with
  | error o => rfl
  | ok expected =>
    by_cases hlen : args.length = expected
    · by_cases hdepth : setting.maxCallDepth ≤ S.calls.length
      · simp [hlen, hdepth, bind_apply, get_apply, throw_apply]
      · simp only [hlen, hdepth, ne_eq, not_true_eq_false, ↓reduceIte, bind_apply, get_apply,
          Nested.onMachine, Machine.onMemory]
        cases Memory.enter frame args S.machine.memory <;> rfl
    · simp [hlen, bind_apply, throw_apply]

theorem Linear.call_apply (hc : p.chunk? label = some c) (args : List Value) (result : Option Temp)
    (conf : Linear.Config) (steps : Nat) :
    Linear.call p label args result (conf.state steps) =
      match c.frame.argumentWords with
      | .error o => .error (.overflow o) (conf.state steps)
      | .ok expected =>
        if args.length = expected then
          match Memory.enter c.frame args conf.memory with
          | .ok saved m =>
            .ok () (Linear.Config.state ⟨m, conf.host,
              { chunk := c, rest := c.body, result, saved } :: conf.stack⟩ steps)
          | .error h m => .error h (Linear.Config.state ⟨m, conf.host, conf.stack⟩ steps)
        else .error (.fault (.malformed (.callArity label args.length expected)))
          (conf.state steps) := by
  unfold Linear.call
  rw [hc]
  dsimp only
  cases c.frame.argumentWords with
  | error o => rfl
  | ok expected =>
    by_cases hlen : args.length = expected
    · simp only [hlen, ↓reduceIte, Linear.enter, Linear.Config.state, Machine.onMemory]
      cases Memory.enter c.frame args conf.memory <;> rfl
    · simp [hlen, throw_apply]

/-- A call from outside opens an activation record and writes nothing else. -/
theorem Linear.call_outside {machine : Machine} {s : Linear.State} (hc : p.chunk? label = some c)
    (called : Linear.call p label args none ⟨machine, []⟩ = .ok () s) :
    s.machine.host = machine.host ∧ s.stack ≠ [] := by
  have opened := Linear.call_apply hc args none ⟨machine.memory, machine.host, []⟩ machine.steps
  rw [show Linear.Config.state ⟨machine.memory, machine.host, []⟩ machine.steps =
    ⟨machine, []⟩ from rfl, called] at opened
  split at opened
  · cases opened
  · split at opened
    · split at opened
      · cases opened
        exact ⟨rfl, List.cons_ne_nil _ _⟩
      · cases opened
    · cases opened

/-- How a call opens its activation in both machines: alike, unless the evaluator nests too deep. -/
inductive Opening (setting : Nested.Setting) (p : LinearProgram) (label : String)
    (c : Chunk (List Stmt)) (args : List Value) (result : Option Temp) (S : Nested.State)
    (stack : List Linear.Activation) : Prop
  | tooDeep (deep : setting.maxCallDepth ≤ S.calls.length)
      (nested : Nested.enter setting label c.frame args S =
        .error (.fault (.stackOverflow S.machine.memory.sp)) S)
  | fails {halt : Halt Fault} {m : Memory}
      (nested : Nested.enter setting label c.frame args S =
        .error halt ⟨{ S.machine with memory := m }, S.calls, S.temps⟩)
      (linear : ∀ steps, Linear.call p label args result
        (Linear.Config.state ⟨S.machine.memory, S.machine.host, stack⟩ steps) =
        .error halt (Linear.Config.state ⟨m, S.machine.host, stack⟩ steps))
  | opens {saved : Registers} {m : Memory}
      (entered : Memory.enter c.frame args S.machine.memory = .ok saved m)
      (nested : Nested.enter setting label c.frame args S =
        .ok ⟨saved, S.temps⟩ ⟨{ S.machine with memory := m }, c.frame.label :: S.calls, {}⟩)
      (linear : ∀ steps, Linear.call p label args result
        (Linear.Config.state ⟨S.machine.memory, S.machine.host, stack⟩ steps) =
        .ok () (Linear.Config.state ⟨m, S.machine.host,
          { chunk := c, rest := c.body, result, saved } :: stack⟩ steps))

theorem opening (setting : Nested.Setting) (hc : p.chunk? label = some c) (args : List Value)
    (result : Option Temp) (S : Nested.State) (stack : List Linear.Activation) :
    Opening setting p label c args result S stack := by
  have nested := Nested.enter_apply setting label c.frame args S
  have linear := Linear.call_apply hc args result ⟨S.machine.memory, S.machine.host, stack⟩
  cases hwords : c.frame.argumentWords with
  | error o =>
    simp only [hwords] at nested linear
    exact .fails (m := S.machine.memory) nested linear
  | ok expected =>
    simp only [hwords] at nested linear
    by_cases hlen : args.length = expected
    · simp only [hlen, ↓reduceIte] at nested linear
      by_cases hdepth : setting.maxCallDepth ≤ S.calls.length
      · exact .tooDeep hdepth (by rw [nested, if_pos hdepth])
      · rw [if_neg hdepth] at nested
        cases henter : Memory.enter c.frame args S.machine.memory with
        | error halt m =>
          simp only [henter] at nested linear
          exact .fails nested linear
        | ok saved m =>
          simp only [henter] at nested linear
          exact .opens henter nested linear
    · simp only [hlen, ↓reduceIte] at nested linear
      exact .fails (m := S.machine.memory) nested linear

theorem Builtin.ofLabel?_name (b : Builtin) : ofLabel? b.name = some b := by cases b <;> decide

theorem Machine.callBuiltin_apply (label : String) (args : List Value) (m : Memory) (h : Host)
    (steps : Nat) :
    Machine.callBuiltin label args ⟨m, h, steps⟩ =
      match Builtin.ofLabel? label with
      | some b =>
        match Host.call b (args.drop 1) h with
        | .ok v h' => .ok v ⟨m, h', steps⟩
        | .error f h' => .error (.fault f) ⟨m, h', steps⟩
      | none => .error (.fault (.unknownFunction label)) ⟨m, h, steps⟩ := by
  unfold Machine.callBuiltin
  cases Builtin.ofLabel? label with
  | none => rfl
  | some b =>
    simp only [Machine.onHost]
    cases Host.call b (args.drop 1) h <;> rfl

/-- A built-in runs in place, and its result goes to the activation that called it. -/
theorem Linear.call_builtin_apply (hc : p.chunk? label = none) (args : List Value)
    (result : Option Temp) (act : Linear.Activation) (callers : List Linear.Activation)
    (rest : List Stmt) (ts : Temps) (m : Memory) (h : Host) (steps : Nat) :
    Linear.call p label args result ((act.config callers rest ts m h).state steps) =
      match Builtin.ofLabel? label with
      | none =>
        .error (.fault (.unknownFunction label)) ((act.config callers rest ts m h).state steps)
      | some b =>
        match Host.call b (args.drop 1) h with
        | .error f h' => .error (.fault f) ((act.config callers rest ts m h').state steps)
        | .ok v h' =>
          match ts.receive result v with
          | .ok ts' => .ok () ((act.config callers rest ts' m h').state steps)
          | .error f => .error (.fault f) ((act.config callers rest ts m h').state steps) := by
  unfold Linear.call
  rw [hc]
  simp only [bind_apply, Linear.onMachine, Linear.Activation.config, Linear.Config.state,
    Machine.callBuiltin_apply]
  cases Builtin.ofLabel? label with
  | none => rfl
  | some b =>
    dsimp only
    cases Host.call b (args.drop 1) h with
    | error f h' => rfl
    | ok v h' =>
      cases result with
      | none => rfl
      | some t =>
        unfold Temps.receive
        cases hset : ts.set t v with
        | ok ts' => simp only [Linear.assign, hset]
        | error f => simp only [Linear.assign, hset]

theorem Machine.zeroArguments_zero (h : Machine.zeroArguments 0 = .ok args) : args.drop 1 = [] := by
  simp only [Machine.zeroArguments, except_bind_eq_ok] at h
  obtain ⟨count, hcount, _, -, h⟩ := h
  have : count = 1 := by simpa [Word.succ, eq_comm] using hcount
  simp only [pure, Except.pure, Except.ok.injEq] at h
  rw [← h, this]
  rfl

/-! ## Faults of built-ins -/

namespace Host

variable {h' : Host} {f : Fault}

/-- A built-in fails because of its arguments or because the output stream refuses a text. -/
def isHostFault : Fault → Bool
  | .output _ => true
  | .malformed m => !(Fault.malformed m).isForeign
  | _ => false

theorem write_cases (text : String) (h : Host) : (∃ h', write text h = .ok () h') ∨
    ∃ reason h', write text h = .error (.output reason) h' := by
  obtain ⟨⟨bytes, texts, writer⟩, random⟩ := h
  simp only [write, Sink.write]
  cases writer texts text with
  | taken => exact .inl ⟨_, rfl⟩
  | refused taken reason => exact .inr ⟨reason, _, rfl⟩

theorem write_eq_error {text : String} {h : Host} (hw : write text h = .error f h') :
    isHostFault f = true := by
  rcases write_cases text h with ⟨_, ok⟩ | ⟨reason, _, error⟩
  · cases hw.symm.trans ok
  · cases hw.symm.trans error
    rfl

theorem asInt_reading_eq_error {v : Value} {h : Host} (hr : reading v.asInt h = .error f h') :
    isHostFault f = true := by
  cases v with
  | int n => simp [reading, Value.asInt] at hr
  | str s =>
    simp only [reading, Value.asInt, EStateM.Result.error.injEq] at hr
    exact hr.1 ▸ rfl

theorem isTruthy_reading_eq_error {v : Value} {h : Host} (hr : reading v.isTruthy h = .error f h') :
    isHostFault f = true := by
  cases v with
  | int n => simp [reading, Value.isTruthy, Value.asInt, Functor.map, Except.map] at hr
  | str s =>
    simp only [reading, Value.isTruthy, Value.asInt, Functor.map, Except.map,
      EStateM.Result.error.injEq] at hr
    exact hr.1 ▸ rfl

theorem call_eq_error {b : Builtin} {args : List Value} {h : Host}
    (hc : call b args h = .error f h') : isHostFault f = true := by
  unfold call at hc
  split at hc
  · simp only [bind_eq_error] at hc
    rcases hc with hc | ⟨_, _, _, hc | ⟨_, _, _, hc⟩⟩
    · exact asInt_reading_eq_error hc
    · exact write_eq_error hc
    · simp [pure_apply] at hc
  · simp only [bind_eq_error] at hc
    rcases hc with hc | ⟨_, _, _, hc | ⟨_, _, _, hc⟩⟩
    · exact isTruthy_reading_eq_error hc
    · exact write_eq_error hc
    · simp [pure_apply] at hc
  · simp only [bind_eq_error] at hc
    rcases hc with hc | ⟨_, _, _, hc⟩
    · exact write_eq_error hc
    · simp [pure_apply] at hc
  · simp only [throw_apply, EStateM.Result.error.injEq] at hc
    exact hc.1 ▸ rfl
  · simp only [bind_eq_error] at hc
    rcases hc with hc | ⟨_, _, _, hc | ⟨_, _, _, hc | ⟨_, _, _, hc⟩⟩⟩
    · exact asInt_reading_eq_error hc
    · exact asInt_reading_eq_error hc
    · simp [draw] at hc
    · simp [pure_apply] at hc
  · simp only [bind_eq_error] at hc
    rcases hc with hc | ⟨_, _, _, hc | ⟨_, _, _, hc⟩⟩
    · exact asInt_reading_eq_error hc
    · simp [modify_apply] at hc
    · simp [pure_apply] at hc
  · simp only [throw_apply, EStateM.Result.error.injEq] at hc
    exact hc.1 ▸ rfl

end Host
end PinsBackend
