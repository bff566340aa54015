import PinsBackend.Proofs.Machine.Budget
import PinsBackend.Proofs.Machine.Confined

/-! Runs of linked programs.

If the jumps of each chunk go to labels of the chunk and all that the chunks need is there, no run
of the evaluator misses anything. On linear code whose labels are defined once the linear machine
ends as the evaluator does, so it misses nothing either. -/
namespace PinsBackend

open Ir

variable {missing : Fault → Prop} {setting : Nested.Setting} {fuel : Nat}

variable {label : String} {machine last : Machine} {crash : Crash}

/-- A call left static data in its place, or it stopped, but not because something is missing that
may not be. -/
def Ending.Finds (globals : List Global) (missing : Fault → Prop) (e : Ending) : Prop :=
  match e.result with
  | .ok _ => e.memory.Holds globals
  | .error (.fault crash) => crash.fault.MissesOnly missing
  | .error _ => True

/-- A run misses nothing if its two calls from outside do not. -/
theorem Canonical.runBy_missesOnly {globals : List Global} {entry : String}
    {invoke : String → EStateM (Halt Crash) Machine Value}
    (calls : ∀ {label machine}, label = Frame.initLabel ∨ label = entry →
      machine.memory.Holds globals → (Ending.ofCall (invoke label machine)).Finds globals missing)
    (h : runBy globals entry invoke machine = .error (.fault crash) last) :
    crash.fault.MissesOnly missing := by
  unfold runBy at h
  cases allocation : Memory.allocateGlobals globals machine.memory with
  | error halt m =>
    simp only [Machine.onMemory, allocation] at h
    have ofMemory := Memory.ofMemory_allocateGlobals allocation
    cases halt with
    | fault f =>
      cases h
      exact Fault.missesOnly (Fault.isMissing_of_memory ofMemory)
    | overflow | unfinished => cases h
  | ok _ m =>
    simp only [Machine.onMemory, allocation] at h
    have holds : ({ machine with memory := m } : Machine).memory.Holds globals :=
      (Memory.allocateGlobals_holds allocation).2
    generalize ({ machine with memory := m } : Machine) = allocated at h holds
    have first := calls (.inl rfl) holds
    cases init : invoke Frame.initLabel allocated with
    | error halt s =>
      rw [init] at first h
      cases h
      exact first
    | ok v initialized =>
      rw [init] at first
      simp only [init] at h
      have second := calls (.inr rfl) first
      cases main : invoke entry initialized with
      | error halt s =>
        rw [main] at second h
        cases h
        exact second
      | ok v s =>
        rw [main] at h
        cases h

namespace Nested

/-- A call of closed code from outside misses nothing but what may be missing. -/
theorem finds_invoke (closed : ClosedProgram setting.program)
    (linked : LinkedProgram setting.program missing)
    (met : setting.program.Meets missing [.unknownFunction label])
    (holds : machine.memory.Holds setting.program.globals) :
    (Ending.ofCall (invoke setting fuel label machine)).Finds setting.program.globals missing := by
  unfold invoke
  dsimp only
  cases Machine.zeroArguments _ with
  | error o => trivial
  | ok args =>
    have finds : Finds setting missing (fun _ => True) (call setting fuel label args { machine }) :=
      (confined closed linked fuel).call holds met
    dsimp only
    generalize call setting fuel label args { machine } = res at finds
    cases res with
    | ok v s => exact finds.2
    | error halt s => cases halt <;> exact finds

/-- A run of closed tree code misses nothing but what may be missing. -/
theorem run_missesOnly (closed : ClosedProgram setting.program)
    (linked : LinkedProgram setting.program missing)
    (init : setting.program.Meets missing [.unknownFunction Frame.initLabel])
    (entry : setting.program.Meets missing [.unknownFunction setting.program.entry])
    (h : run setting fuel machine = .error (.fault crash) last) :
    crash.fault.MissesOnly missing := by
  rw [Canonical.nested_run_eq] at h
  refine Canonical.runBy_missesOnly (fun called holds => finds_invoke closed linked ?_ holds) h
  rcases called with rfl | rfl
  · exact init
  · exact entry

/-- A run of closed code does not end at a missing label. -/
theorem run_ne_undefinedLabel (closed : ClosedProgram setting.program)
    (h : run setting fuel machine = .error (.fault crash) last) (l : String) :
    crash.fault ≠ .undefinedLabel l := by
  have met (needs : List Fault) : setting.program.Meets (fun _ => True) needs :=
    fun _ _ => .inr trivial
  exact (run_missesOnly closed (fun c _ => met c.body.needs) (met _) (met _) h).ne_undefinedLabel l

/-- If all that the code needs is there, the only function that a run can miss is the entry. -/
theorem eq_entry_of_unknownFunction (setting : Nested.Setting)
    (closed : ClosedProgram setting.program)
    (linked : ∀ missing, LinkedProgram setting.program missing)
    (init : (setting.program.chunk? Frame.initLabel).isSome = true) {function l : String}
    (h : run setting fuel machine = .error (.fault ⟨function, .unknownFunction l⟩) last) :
    l = setting.program.entry ∧ setting.program.chunk? setting.program.entry = none ∧
      Builtin.ofLabel? setting.program.entry = none := by
  let missing : Fault → Prop :=
    fun f => f = .unknownFunction setting.program.entry ∧ ¬ setting.program.Has f
  have entry : setting.program.Meets missing [.unknownFunction setting.program.entry] := by
    rw [Program.meets_singleton]
    by_cases known : setting.program.Has (.unknownFunction setting.program.entry)
    · exact .inl known
    · exact .inr ⟨rfl, known⟩
  have init : setting.program.Meets missing [.unknownFunction Frame.initLabel] :=
    Program.meets_singleton.2 (.inl (.inl init))
  obtain ⟨-, same, unknown⟩ := run_missesOnly closed (linked missing) init entry h rfl
  cases same
  refine ⟨rfl, ?_, ?_⟩
  · exact Option.not_isSome_iff_eq_none.1 fun found => unknown (.inl found)
  · exact Option.not_isSome_iff_eq_none.1 fun found => unknown (.inr found)

end Nested

/-! ## Linear code -/

namespace Linear

variable {p : LinearProgram} {budget : Option Nat}

/-- Linear code sets the globals first. It defines each label once and jumps to labels of the same
chunk, and all that it needs is there, or it may be missing. -/
structure LinkedProgram (p : LinearProgram) (missing : Fault → Prop) : Prop where
  init : (p.chunk? Frame.initLabel).isSome = true
  regular : ∃ size, Lockstep.Regular p size
  closed : Nested.ClosedProgram p.asTree
  linked : Nested.LinkedProgram p.asTree missing

/-- A call from outside that ends does so in the evaluator too, which may nest as many calls as the
linear machine takes steps. -/
theorem exists_nested_invoke {size : Nat} (reg : Lockstep.Regular p size)
    {c : Chunk (List Stmt)} (found : p.chunk? label = some c)
    (ended : ¬ (Ending.ofCall (invoke p none fuel label machine)).Unfinished) :
    ∃ fuel', Ending.ofCall (Nested.invoke ⟨p.asTree, fuel + 1, none⟩ fuel' label machine) =
      Ending.ofCall (invoke p none fuel label machine) := by
  have follows := @Lockstep.follows_invoke c label p ⟨p.asTree, fuel + 1, none⟩ size rfl rfl reg
    (6 * (fuel + 1) + size) found machine machine rfl rfl
  refine ⟨_, follows.eq_of_ended ?_ ended (Nat.lt_succ_self _) (Nat.le_refl _)⟩
  intro k le
  rcases invoke_mono (p := p) none le label machine with ⟨last, spent⟩ | later
  · rw [spent]
    exact .inl rfl
  · exact .inr later

/-- A call from outside misses nothing but what may be missing. -/
theorem finds_invoke (program : LinkedProgram p missing)
    (absent : p.chunk? label = none → missing (.unknownFunction label))
    (holds : machine.memory.Holds p.globals) :
    (Ending.ofCall (invoke p budget fuel label machine)).Finds p.globals missing := by
  cases found : p.chunk? label with
  | none =>
    rw [invoke, found]
    exact fun _ => ⟨rfl, absent found⟩
  | some c =>
    rcases invoke_budget p budget fuel label machine with same | ⟨function, limit, last, timeout⟩
    · rw [same]
      by_cases ended : (Ending.ofCall (invoke p none fuel label machine)).Unfinished
      · rw [Ending.Finds, ended]
        trivial
      · obtain ⟨size, reg⟩ := program.regular
        obtain ⟨fuel', same⟩ := exists_nested_invoke reg found ended
        rw [← same]
        refine Nested.finds_invoke program.closed program.linked ?_ holds
        rw [Program.meets_singleton, Program.Has, p.chunk?_asTree, found]
        exact .inl (.inl rfl)
    · rw [timeout]
      exact Fault.missesOnly rfl

/-- A run of linked code misses nothing but what may be missing. -/
theorem run_missesOnly (program : LinkedProgram p missing)
    (entry : p.chunk? p.entry = none → missing (.unknownFunction p.entry))
    (h : run p budget fuel machine = .error (.fault crash) last) :
    crash.fault.MissesOnly missing := by
  rw [Canonical.linear_run_eq] at h
  refine Canonical.runBy_missesOnly (fun called holds => finds_invoke program ?_ holds) h
  rcases called with rfl | rfl
  · intro absent
    have init := program.init
    rw [absent] at init
    cases init
  · exact entry

/-- If all that the code needs is there, the only function that a run can miss is the entry. -/
theorem eq_entry_of_unknownFunction (program : ∀ missing, LinkedProgram p missing)
    {function l : String}
    (h : run p budget fuel machine = .error (.fault ⟨function, .unknownFunction l⟩) last) :
    l = p.entry ∧ p.chunk? p.entry = none := by
  let missing : Fault → Prop := fun f => f = .unknownFunction p.entry ∧ p.chunk? p.entry = none
  obtain ⟨-, same, absent⟩ := run_missesOnly (program missing) (fun absent => ⟨rfl, absent⟩) h rfl
  cases same
  exact ⟨rfl, absent⟩

end Linear
end PinsBackend
