import PinsBackend.Proofs.Machine.Lockstep
import PinsBackend.Proofs.Machine.Overflow

/-! The evaluator and the linear machine end alike on linear code.

With enough fuel, and a limit on nested calls that is not reached, the evaluator ends exactly when
the linear machine does, with the same result or fault, the same output and the same memory. -/
namespace PinsBackend

open Ir

/-- What is left of a run when it ends, apart from the number of its steps. -/
structure Ending where
  result : Except (Halt Crash) Value
  memory : Memory
  host : Host

namespace Ending

def ofCall : EStateM.Result (Halt Crash) Machine Value → Ending
  | .ok v last => ⟨.ok v, last.memory, last.host⟩
  | .error halt last => ⟨.error halt, last.memory, last.host⟩

def ofRun : EStateM.Result (Halt Crash) Machine Outcome → Ending
  | .ok o last => ⟨.ok o.value, last.memory, last.host⟩
  | .error halt last => ⟨.error halt, last.memory, last.host⟩

def Unfinished (e : Ending) : Prop := e.result = .error .unfinished

/-- The guard on the depth of calls ended the run: it reports the stack pointer as it stands. A
frame that does not fit reports the lower one that it would need. -/
def TooDeep (e : Ending) : Prop :=
  ∃ function, e.result = .error (.fault ⟨function, .stackOverflow e.memory.sp⟩)

end Ending

/-! ## More fuel -/

namespace Linear

variable {p : LinearProgram} (budget : Option Nat) {k k' : Nat}

theorem loop_mono (hk : k ≤ k') (s : State) :
    (∃ last, loop p budget k s = .error .unfinished last) ∨
      loop p budget k' s = loop p budget k s := by
  induction k generalizing k' s with
  | zero => exact .inl ⟨s, rfl⟩
  | succ k ih =>
    obtain ⟨k', rfl⟩ : ∃ n, k' = n + 1 := ⟨k' - 1, by omega⟩
    simp only [loop, bind_apply]
    cases step p budget s with
    | error halt s' => exact .inr rfl
    | ok v s' =>
      cases v with
      | some v => exact .inr rfl
      | none => exact ih (Nat.le_of_succ_le_succ hk) s'

theorem invoke_mono (hk : k ≤ k') (label : String) (machine : Machine) :
    (∃ last, invoke p budget k label machine = .error .unfinished last) ∨
      invoke p budget k' label machine = invoke p budget k label machine := by
  unfold invoke
  cases p.chunk? label with
  | none => exact .inr rfl
  | some c =>
    dsimp only
    cases Machine.zeroArguments c.frame.parameterCount with
    | error o => exact .inr rfl
    | ok args =>
      simp only [bind_apply]
      cases call p label args none ⟨machine, []⟩ with
      | error halt s => exact .inr rfl
      | ok _ s =>
        rcases loop_mono (p := p) budget hk s with ⟨last, h⟩ | h
        · exact .inl ⟨last.machine, by simp [h, Halt.blame]⟩
        · exact .inr (by simp [h])

theorem run_mono_within (hk : k ≤ k') (machine : Machine) :
    (Ending.ofRun (run p budget k machine)).Unfinished ∨
      run p budget k' machine = run p budget k machine := by
  simp only [Canonical.linear_run_eq, Canonical.runBy]
  cases Machine.onMemory (Memory.allocateGlobals p.globals) machine with
  | error halt last => exact .inr rfl
  | ok _ allocated =>
    dsimp only
    rcases invoke_mono (p := p) budget hk Frame.initLabel allocated with ⟨last, h⟩ | h
    · exact .inl (by simp [h, Ending.ofRun, Ending.Unfinished])
    · rw [h]
      cases invoke p budget k Frame.initLabel allocated with
      | error halt last => exact .inr rfl
      | ok _ initialized =>
        dsimp only
        rcases invoke_mono (p := p) budget hk p.entry initialized with ⟨last, h⟩ | h
        · exact .inl (by simp [h, Ending.ofRun, Ending.Unfinished])
        · exact .inr (by rw [h])

theorem run_mono (hk : k ≤ k') (machine : Machine) :
    (Ending.ofRun (run p none k machine)).Unfinished ∨
      run p none k' machine = run p none k machine :=
  run_mono_within none hk machine

end Linear

/-! ## Calls and runs -/

namespace Lockstep

open Linear (Activation Config StepsIn Stops)

variable {c : Chunk (List Stmt)} {label : String}

/-- How the linear machine, with every amount of fuel, compares to an evaluation that ended with
`e`. -/
inductive Follows {α : Type} (view : α → Ending) (limit size fuel : Nat) (linear : Nat → α) :
    Ending → Prop
  | ends {e : Ending} {r : α} {n : Nat} (same : ∀ k, n ≤ k → linear k = r) (shown : view r = e) :
      Follows view limit size fuel linear e
  | tooDeep {e : Ending} {n : Nat} (runs : ∀ k, k < n → (view (linear k)).Unfinished)
      (deep : limit ≤ n) (guard : e.TooDeep) : Follows view limit size fuel linear e
  | unfinished {e : Ending} {n : Nat} (runs : ∀ k, k < n → (view (linear k)).Unfinished)
      (long : fuel ≤ 6 * n + size) (spent : e.Unfinished) : Follows view limit size fuel linear e

variable {p : LinearProgram} {setting : Nested.Setting} {size fuel limit : Nat}

/-- A call from outside that gave up in the evaluator. -/
theorem Ends.follows {saved : Registers} {m : Memory} {h : Host} {halt : Halt Fault}
    {S : Nested.State} {steps : Nat} {linear : Nat → EStateM.Result (Halt Crash) Machine Value}
    (ends : Ends p limit size (fuel - 1)
      ⟨m, h, [{ chunk := c, rest := c.body, result := none, saved }]⟩ halt S)
    (begun : ∀ k, linear k = Canonical.closed label
      (Linear.loop p none k
      (Config.state ⟨m, h, [{ chunk := c, rest := c.body, result := none, saved }]⟩ steps))) :
    Follows Ending.ofCall limit size (fuel + 1) linear
      (Ending.ofCall (.error (halt.blame (S.calls.headD label)) S.machine)) := by
  have goesOn {n : Nat} {c₁ : Config} (steps₁ : StepsIn p n
      ⟨m, h, [{ chunk := c, rest := c.body, result := none, saved }]⟩ c₁) (k : Nat)
      (hk : k < n + 1) :
      (Ending.ofCall (linear k)).Unfinished := by
    obtain ⟨last, unfinished⟩ := steps₁.unfinished (Nat.le_of_lt_succ hk) steps
    rw [begun, unfinished]
    rfl
  cases ends with
  | stops more stop memory host calls =>
    obtain ⟨last, n, stopped⟩ := Linear.loopsTo_stops more.steps stop steps
    refine .ends (fun k hk => (begun k).trans (congrArg (Canonical.closed label) (stopped k hk))) ?_
    simp only [Canonical.closed, Config.state, Ending.ofCall, memory, host]
    rw [← calls]
    rfl
  | tooDeep more deep => exact .tooDeep (goesOn more) (by simpa [Nat.add_comm] using deep) ⟨_, rfl⟩
  | unfinished more long => exact .unfinished (goesOn more) (by omega) rfl

/-- The linear machine keeps up with a call from outside. -/
theorem follows_invoke (program : setting.program = p.asTree) (budget : setting.budget = none)
    (reg : Regular p size) (fuel : Nat) (hc : p.chunk? label = some c) {machine machine' : Machine}
    (hm : machine'.memory = machine.memory) (hh : machine'.host = machine.host) :
    Follows Ending.ofCall setting.maxCallDepth size fuel
      (fun k => Linear.invoke p none k label machine')
      (Ending.ofCall (Nested.invoke setting fuel label machine)) := by
  obtain ⟨m, h, steps⟩ := machine
  obtain ⟨m', h', steps'⟩ := machine'
  obtain rfl : m' = m := hm
  obtain rfl : h' = h := hh
  have chunk : setting.program.chunk? label = some c.asTree := by
    rw [program, p.chunk?_asTree, hc, Option.map_some]
  have mem := (Program.mem_of_chunk? hc).1
  simp only [Nested.invoke, chunk, Option.elim_some]
  cases hargs : Machine.zeroArguments c.frame.parameterCount with
  | error o =>
    have linear (k : Nat) :
        Linear.invoke p none k label ⟨m', h', steps'⟩ = .error (.overflow o) ⟨m', h', steps'⟩ := by
      simp only [Linear.invoke, hc, hargs]
    rw [show c.asTree.frame = c.frame from rfl, hargs]
    exact .ends (n := 0) (fun k _ => linear k) rfl
  | ok args =>
    have linear (k : Nat) := Canonical.invoke_linear k hc hargs ⟨m', h', steps'⟩
    rw [show c.asTree.frame = c.frame from rfl, hargs]
    cases fuel with
    | zero => exact .unfinished (n := 0) (fun k hk => by omega) (Nat.zero_le _) rfl
    | succ fuel =>
      simp only [Nested.call, chunk]
      rw [bind_apply, show c.asTree.frame = c.frame from rfl]
      cases opening setting hc args none { machine := ⟨m', h', steps⟩ } [] with
      | tooDeep deep nested =>
        rw [nested]
        exact .tooDeep (n := 0) (fun k hk => by omega) deep ⟨label, rfl⟩
      | @fails halt m nested call =>
        rw [nested]
        refine .ends (n := 0) (r := .error (halt.blame label) ⟨m, h', steps'⟩) (fun k _ => ?_) rfl
        rw [linear, bind_apply]
        simp only [Config.state] at call
        rw [call]
        rfl
      | @opens saved m entered nested call =>
        rw [nested]
        have begun (k : Nat) : Linear.invoke p none k label ⟨m', h', steps'⟩ =
          Canonical.closed label
            (Linear.loop p none k (Config.state ⟨m, h',
              [{ chunk := c, rest := c.body, result := none, saved }]⟩ steps')) := by
          rw [linear, bind_apply]
          simp only [Config.state] at call ⊢
          rw [call]
        have body :=
          completes_body reg (fun g (_ : g < fuel) => completesAll program budget reg g) mem
          none saved [] ⟨⟨m, h', steps⟩, [c.frame.label], {}⟩ rfl
        dsimp only
        rw [bind_apply]
        generalize Nested.exec setting fuel c.asTree.body
          ⟨⟨m, h', steps⟩, [c.frame.label], {}⟩ = res at body
        cases res with
        | ok flow S =>
          cases flow with
          | next =>
            obtain ⟨-, n, more⟩ := body
            obtain ⟨last, n, ends⟩ := Linear.loopsTo_returns more.steps Linear.returns_leave steps'
            exact .ends
              (fun k hk => (begun k).trans (congrArg (Canonical.closed label) (ends k hk))) rfl
          | jump l =>
            exact body.follows begun
        | error halt S =>
          exact body.follows begun

/-- What the linear machine ends with within `k` steps, the evaluation ends with, if it has fuel for
them and may nest more calls than that. -/
theorem Follows.eq_of_ended {α : Type} {view : α → Ending} {linear : Nat → α} {e : Ending} {k : Nat}
    (h : Follows view limit size fuel linear e)
    (mono : ∀ {k'}, k ≤ k' → (view (linear k)).Unfinished ∨ linear k' = linear k)
    (ended : ¬ (view (linear k)).Unfinished) (deep : k < limit) (long : 6 * (k + 1) + size ≤ fuel) :
    e = view (linear k) := by
  cases h with
  | @ends r n same shown =>
    have later := (mono (Nat.le_max_left k n)).resolve_left ended
    rw [← later, same _ (Nat.le_max_right k n), shown]
  | tooDeep runs reached _ => exact absurd (runs k (by omega)) ended
  | unfinished runs spent _ => exact absurd (runs k (by omega)) ended

theorem Follows.map {α β : Type} {view : α → Ending} {view' : β → Ending} {linear : Nat → α}
    {e : Ending} (h : Follows view limit size fuel linear e) (f : α → β)
    (hf : ∀ a, view' (f a) = view a) :
    Follows view' limit size fuel (fun k => f (linear k)) e := by
  cases h with
  | ends same shown => exact .ends (fun k hk => congrArg f (same k hk)) ((hf _).trans shown)
  | tooDeep runs deep guard => exact .tooDeep (fun k hk => by rw [hf]; exact runs k hk) deep guard
  | unfinished runs long spent =>
    exact .unfinished (fun k hk => by rw [hf]; exact runs k hk) long spent

/-- A computation that goes on from the machine of another one, if that has a result. -/
def andThen {α β : Type} (first : EStateM.Result (Halt Crash) Machine α)
    (next : Machine → EStateM.Result (Halt Crash) Machine β) :
    EStateM.Result (Halt Crash) Machine β :=
  match first with
  | .ok _ machine => next machine
  | .error halt last => .error halt last

/-- One computation after the other: steps are not compared, so the second begins on machines that
may differ in their number. -/
theorem Follows.andThen {first : Nat → EStateM.Result (Halt Crash) Machine Value}
    {nested : EStateM.Result (Halt Crash) Machine Value}
    {next : Nat → Machine → EStateM.Result (Halt Crash) Machine Outcome}
    {nestedNext : Machine → EStateM.Result (Halt Crash) Machine Outcome}
    (h : Follows Ending.ofCall limit size fuel first (Ending.ofCall nested))
    (mono : ∀ {k k'}, k ≤ k' → (∃ last, first k = .error .unfinished last) ∨ first k' = first k)
    (hnext : ∀ {m m' : Machine}, m'.memory = m.memory → m'.host = m.host →
      Follows Ending.ofRun limit size fuel (fun k => next k m') (Ending.ofRun (nestedNext m))) :
    Follows Ending.ofRun limit size fuel (fun k => Lockstep.andThen (first k) (next k))
      (Ending.ofRun (Lockstep.andThen nested nestedNext)) := by
  have waiting {k : Nat} (hk : (Ending.ofCall (first k)).Unfinished) :
      (Ending.ofRun (Lockstep.andThen (first k) (next k))).Unfinished := by
    cases hfirst : first k with
    | ok v m => rw [hfirst] at hk; cases hk
    | error halt last => rw [hfirst] at hk; exact hk
  cases h with
  | @ends r n same shown =>
    cases r with
    | error halt last =>
      cases nested with
      | ok v m => cases shown
      | error halt' last' =>
        refine .ends (n := n) (r := .error halt last) (fun k hk => by rw [same k hk]; rfl) ?_
        simpa [Ending.ofCall, Ending.ofRun, Lockstep.andThen] using shown
    | ok v m' =>
      cases nested with
      | error halt last => cases shown
      | ok v' m =>
        simp only [Ending.ofCall, Ending.mk.injEq] at shown
        -- with less fuel the first part is unfinished, or it has ended as it will
        have soon {k b : Nat} (hk : k < b)
            (runs : ∀ k, k < b → (Ending.ofRun (next k m')).Unfinished) :
            (Ending.ofRun (Lockstep.andThen (first k) (next k))).Unfinished := by
          rcases mono (Nat.le_max_left k n) with ⟨last, hlast⟩ | hlast
          · exact waiting (by rw [hlast]; rfl)
          · rw [same _ (Nat.le_max_right k n)] at hlast
            rw [← hlast]
            exact runs k hk
        cases hnext shown.2.1 shown.2.2 with
        | @ends r₂ n₂ same₂ shown₂ =>
          refine .ends (n := max n n₂) (fun k hk => ?_) shown₂
          rw [same k (by omega)]
          exact same₂ k (by omega)
        | tooDeep runs deep guard => exact .tooDeep (fun k hk => soon hk runs) deep guard
        | unfinished runs long spent => exact .unfinished (fun k hk => soon hk runs) long spent
  | tooDeep runs deep guard =>
    refine .tooDeep (fun k hk => waiting (runs k hk)) deep ?_
    cases nested with
    | ok v m => obtain ⟨_, guard⟩ := guard; cases guard
    | error halt last => exact guard
  | unfinished runs long spent =>
    refine .unfinished (fun k hk => waiting (runs k hk)) long ?_
    cases nested with
    | ok v m => cases spent
    | error halt last => exact spent

/-- The result of a run, from the result of its last call. -/
def outcome (res : EStateM.Result (Halt Crash) Machine Value) :
    EStateM.Result (Halt Crash) Machine Outcome :=
  match res with
  | .ok v last => .ok ⟨v, last.steps⟩ last
  | .error halt last => .error halt last

theorem runBy_eq (globals : List Global) (entry : String)
    (invoke : String → EStateM (Halt Crash) Machine Value) (machine : Machine) :
    Canonical.runBy globals entry invoke machine =
      match Machine.onMemory (Memory.allocateGlobals globals) machine with
      | .error halt last => .error (halt.blame Frame.initLabel) last
      | .ok () allocated =>
        andThen (invoke Frame.initLabel allocated) fun machine =>
          outcome (invoke entry machine) := by
  unfold Canonical.runBy
  cases Machine.onMemory (Memory.allocateGlobals globals) machine with
  | error halt last => rfl
  | ok _ allocated =>
    dsimp only
    cases invoke Frame.initLabel allocated with
    | error halt last => rfl
    | ok _ initialized => dsimp only [andThen, outcome]; cases invoke entry initialized <;> rfl

/-- The linear machine keeps up with a run. -/
theorem follows_run (program : setting.program = p.asTree) (budget : setting.budget = none)
    (reg : Regular p size) (init : (p.chunk? Frame.initLabel).isSome)
    (entry : (p.chunk? p.entry).isSome) (fuel : Nat) (machine : Machine) :
    Follows Ending.ofRun setting.maxCallDepth size fuel (fun k => Linear.run p none k machine)
      (Ending.ofRun (Nested.run setting fuel machine)) := by
  obtain ⟨init, hinit⟩ := Option.isSome_iff_exists.1 init
  obtain ⟨main, hmain⟩ := Option.isSome_iff_exists.1 entry
  simp only [Canonical.nested_run_eq, program, Canonical.linear_run_eq, runBy_eq,
    LinearProgram.asTree]
  cases Machine.onMemory (Memory.allocateGlobals p.globals) machine with
  | error halt last => exact .ends (n := 0) (fun _ _ => rfl) rfl
  | ok _ allocated =>
    refine (follows_invoke program budget reg fuel hinit rfl rfl).andThen
      (fun hk => Linear.invoke_mono none hk _ _) fun hm hh => ?_
    have last := follows_invoke program budget reg fuel hmain hm hh
    have shown (r : EStateM.Result (Halt Crash) Machine Value) :
        Ending.ofRun (outcome r) = Ending.ofCall r := by cases r <;> rfl
    rw [shown]
    exact last.map outcome shown

/-- Some size bounds all statements of a program. -/
theorem exists_regular (canonical : ∀ c ∈ p.init :: p.chunks, c.isCanonical = true)
    (unique : ∀ c ∈ p.init :: p.chunks, (labelsOf c.body).Nodup) : ∃ size, Regular p size := by
  refine ⟨sizeOf (p.init :: p.chunks) + 4, canonical, unique, ?_⟩
  rintro ⟨frame, body⟩ hc s hs
  have inBody := List.sizeOf_lt_of_mem hs
  have inProgram := List.sizeOf_lt_of_mem hc
  simp only [Chunk.mk.sizeOf_spec] at inBody inProgram
  omega

end Lockstep

/-- The linear machine has no guard on the depth of calls. -/
theorem Linear.run_not_tooDeep {p : LinearProgram} {fuel memoryWords : Nat} {sink : Sink} :
    ¬ (Ending.ofRun (run p none fuel (Machine.create memoryWords sink))).TooDeep := by
  rintro ⟨function, deep⟩
  cases h : run p none fuel (Machine.create memoryWords sink) with
  | ok o last => rw [h] at deep; cases deep
  | error halt last =>
    rw [h] at deep
    simp only [Ending.ofRun, Except.error.injEq] at deep
    subst deep
    exact absurd (run_overflow_below h) (Int.lt_irrefl _)

/-- On linear code whose labels are defined once, the recursive evaluator and the linear machine end
alike. What the evaluator ends with, unless calls nest too deep for its limit, the linear machine
ends with; and what the linear machine ends with, the evaluator ends with under every limit that is
large enough. The endings agree in the result or in the fault with the function it is blamed on, in
the output and in the memory. An overflow of memory is never taken for the guard on nested calls. -/
theorem evaluators_agree_on_linear_code {C : LinearProgram}
    (canonical : ∀ c ∈ C.init :: C.chunks, c.isCanonical = true)
    (unique : ∀ c ∈ C.init :: C.chunks, (labelsOf c.body).Nodup)
    (init : (C.chunk? Frame.initLabel).isSome) (entry : (C.chunk? C.entry).isSome)
    (memoryWords : Nat) (sink : Sink) :
    (∀ maxCallDepth fuel e, e = Ending.ofRun (Nested.run ⟨C.asTree, maxCallDepth, none⟩ fuel
        (Machine.create memoryWords sink)) → ¬ e.Unfinished → ¬ e.TooDeep →
      ∃ n, ∀ k, n ≤ k → Ending.ofRun (Linear.run C none k (Machine.create memoryWords sink)) = e) ∧
    (∀ fuel e, e = Ending.ofRun (Linear.run C none fuel (Machine.create memoryWords sink)) →
      ¬ e.Unfinished →
      ∃ depth, ∀ maxCallDepth, depth ≤ maxCallDepth → ∃ n, ∀ k, n ≤ k →
        Ending.ofRun (Nested.run ⟨C.asTree, maxCallDepth, none⟩ k
          (Machine.create memoryWords sink)) = e) ∧
    ∀ fuel, ¬ (Ending.ofRun
      (Linear.run C none fuel (Machine.create memoryWords sink))).TooDeep := by
  obtain ⟨size, reg⟩ := Lockstep.exists_regular canonical unique
  have follows (maxCallDepth fuel : Nat) :=
    @Lockstep.follows_run C ⟨C.asTree, maxCallDepth, none⟩ size rfl rfl reg init entry fuel
      (Machine.create memoryWords sink)
  refine ⟨?_, ?_, fun fuel deep => Linear.run_not_tooDeep deep⟩
  · rintro maxCallDepth fuel e rfl finished guard
    cases follows maxCallDepth fuel with
    | ends same shown => exact ⟨_, fun k hk => by rw [same k hk, shown]⟩
    | tooDeep _ _ deep => exact absurd deep guard
    | unfinished _ _ spent => exact absurd spent finished
  · rintro fuel e rfl finished
    -- the machine ends within `fuel` steps, so neither limit of the evaluator can be reached
    refine ⟨fuel + 1, fun maxCallDepth hdepth => ⟨6 * (fuel + 1) + size, fun k hk => ?_⟩⟩
    exact (follows maxCallDepth k).eq_of_ended (fun le => Linear.run_mono le _) finished hdepth hk

/-- `sum(n)` is `n + sum(n - 1)` down to zero, and the program is `sum(3)`. -/
def sumDown : LinearProgram where
  init := { frame := .initial, body := [] }
  globals := []
  entry := "main"
  chunks :=
    [{ frame := { label := "sum", depth := 1, parameterCount := 1, parametersSize := 16 }
       body :=
        [.move (.temp 2) (.mem (.binop .add (.temp Temp.fp) (.const (.int 8)))),
         .cjump (.temp 2) "more" "done",
         .label "more",
         .move (.temp 3) (.call "sum"
          [.const (.int 0), .binop .sub (.temp 2) (.const (.int 1))]),
         .move (.temp Temp.rv) (.binop .add (.temp 2) (.temp 3)),
         .label "done"] },
     { frame := { label := "main", depth := 1, parameterCount := 0, parametersSize := 8 }
       body := [.move (.temp Temp.rv) (.call "sum" [.const (.int 0), .const (.int 3)])] }]

theorem evaluators_agree_on_linear_code_sumDown :
    (∀ c ∈ sumDown.init :: sumDown.chunks, c.isCanonical = true) ∧
    (∀ c ∈ sumDown.init :: sumDown.chunks, (labelsOf c.body).Nodup) ∧
    (sumDown.chunk? Frame.initLabel).isSome ∧ (sumDown.chunk? sumDown.entry).isSome ∧
    (∃ n, ∀ k, n ≤ k → (Ending.ofRun (Linear.run sumDown none k (Machine.create 16 {}))).result =
      .ok (.int 6)) ∧
    ∃ depth, ∀ maxCallDepth, depth ≤ maxCallDepth → ∃ n, ∀ k, n ≤ k →
      (Ending.ofRun
        (Nested.run ⟨sumDown.asTree, maxCallDepth, none⟩ k (Machine.create 16 {}))).result =
        .ok (.int 6) := by
  have canonical : ∀ c ∈ sumDown.init :: sumDown.chunks, c.isCanonical = true := by decide
  have unique : ∀ c ∈ sumDown.init :: sumDown.chunks, (labelsOf c.body).Nodup := by decide
  have init : (sumDown.chunk? Frame.initLabel).isSome := by decide
  have entry : (sumDown.chunk? sumDown.entry).isSome := by decide
  have nested : (Ending.ofRun (Nested.run ⟨sumDown.asTree, 5, none⟩ 60
      (Machine.create 16 {}))).result = .ok (.int 6) := by decide +kernel
  have linear : (Ending.ofRun (Linear.run sumDown none 40 (Machine.create 16 {}))).result =
      .ok (.int 6) := by decide +kernel
  obtain ⟨toLinear, toNested, -⟩ :=
    evaluators_agree_on_linear_code canonical unique init entry 16 {}
  refine ⟨canonical, unique, init, entry, ?_, ?_⟩
  · obtain ⟨n, ends⟩ := toLinear 5 60 _ rfl (by simp [Ending.Unfinished, nested])
      (by simp [Ending.TooDeep, nested])
    exact ⟨n, fun k hk => by rw [ends k hk, nested]⟩
  · obtain ⟨depth, ends⟩ := toNested 40 _ rfl (by simp [Ending.Unfinished, linear])
    refine ⟨depth, fun maxCallDepth hdepth => ?_⟩
    obtain ⟨n, ends⟩ := ends maxCallDepth hdepth
    exact ⟨n, fun k hk => by rw [ends k hk, linear]⟩

end PinsBackend
