import PinsBackend.Machine.Linear

/-! The states that a run of linear code passes through. -/
namespace PinsBackend.Linear

open Ir

/-- The state in which a call from outside starts. -/
def Starts (p : LinearProgram) (label : String) (machine : Machine) (s : State) : Prop :=
  ∃ c args, p.chunk? label = some c ∧ Machine.zeroArguments c.frame.parameterCount = .ok args ∧
    call p label args none ⟨machine, []⟩ = .ok () s

/-- The states of a call from outside. -/
inductive Passes (p : LinearProgram) (budget : Option Nat) (label : String) (machine : Machine) :
    State → Prop
  | start {s : State} (h : Starts p label machine s) : Passes p budget label machine s
  | next {s s' : State} (h : Passes p budget label machine s)
      (step : step p budget s = .ok none s') :
    Passes p budget label machine s'

/-- The states of a run: those of the global initializers and, once they have returned, those of the
entry function. -/
inductive Visits (p : LinearProgram) (budget : Option Nat) (machine : Machine) : State → Prop
  | init {allocated : Machine} {s : State}
      (static : Machine.onMemory (Memory.allocateGlobals p.globals) machine = .ok () allocated)
      (h : Passes p budget Frame.initLabel allocated s) : Visits p budget machine s
  | entry {allocated : Machine} {last returned s : State} {v : Value}
      (static : Machine.onMemory (Memory.allocateGlobals p.globals) machine = .ok () allocated)
      (before : Passes p budget Frame.initLabel allocated last)
      (returns : step p budget last = .ok (some v) returned)
      (h : Passes p budget p.entry returned.machine s) : Visits p budget machine s

/-! ## Finding states -/

/-- The state in which a call from outside starts, if it does. -/
def begun? (p : LinearProgram) (label : String) (machine : Machine) : Option State :=
  (p.chunk? label).bind fun c =>
    match Machine.zeroArguments c.frame.parameterCount with
    | .error _ => none
    | .ok args =>
      match call p label args none ⟨machine, []⟩ with
      | .ok () s => some s
      | .error _ _ => none

/-- The state so many steps later, if the call goes on so long. -/
def later? (p : LinearProgram) (budget : Option Nat) : Nat → State → Option State
  | 0, s => some s
  | n + 1, s =>
    match step p budget s with
    | .ok none s' => later? p budget n s'
    | _ => none

/-- The state that a run has come to after so many steps of the global initializers, which then
return, and so many steps of the entry function. -/
def visited? (p : LinearProgram) (budget : Option Nat) (machine : Machine) (n m : Nat) :
    Option State :=
  match Machine.onMemory (Memory.allocateGlobals p.globals) machine with
  | .error _ _ => none
  | .ok () allocated =>
    ((begun? p Frame.initLabel allocated).bind (later? p budget n)).bind fun last =>
      match step p budget last with
      | .ok (some _) returned => (begun? p p.entry returned.machine).bind (later? p budget m)
      | _ => none

section

variable {s : State}

variable {p : LinearProgram} {budget : Option Nat} {machine : Machine} {label : String}

theorem starts_of_begun? (h : begun? p label machine = some s) : Starts p label machine s := by
  obtain ⟨c, hc, h⟩ := Option.bind_eq_some_iff.1 h
  split at h
  · cases h
  · next args hargs =>
    split at h
    · next called =>
      cases h
      exact ⟨c, args, hc, hargs, called⟩
    · cases h

theorem passes_of_later? {n : Nat} {s' : State} (h : Passes p budget label machine s)
    (later : later? p budget n s = some s') : Passes p budget label machine s' := by
  induction n generalizing s with
  | zero =>
    cases later
    exact h
  | succ n ih =>
    rw [later?] at later
    split at later
    · next stepped => exact ih (.next h stepped) later
    · cases later

theorem visits_of_visited? {n m : Nat} (h : visited? p budget machine n m = some s) :
    Visits p budget machine s := by
  unfold visited? at h
  split at h
  · cases h
  · next static =>
    obtain ⟨last, before, h⟩ := Option.bind_eq_some_iff.1 h
    obtain ⟨first, begun, later⟩ := Option.bind_eq_some_iff.1 before
    split at h
    · next returns =>
      obtain ⟨first', begun', later'⟩ := Option.bind_eq_some_iff.1 h
      exact .entry static (passes_of_later? (.start (starts_of_begun? begun)) later) returns
        (passes_of_later? (.start (starts_of_begun? begun')) later')
    · cases h

end

end PinsBackend.Linear
