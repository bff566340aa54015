import PinsBackend.Proofs.Machine.Stack

/-! The clock of the linear machine.

Each statement is counted once, before it is executed, and nothing else is. A step ends without
fuel, so only a loop can be left unfinished. -/
namespace PinsBackend.Linear

open Ir

variable {s s' s₁ : State}

theorem Deed.clock {res : EStateM.Result (Halt Fault) State Unit} (h : Deed s res) :
    (left res).machine.steps = s.machine.steps := by
  cases h with
  | goes _ clock | calls _ _ clock | stops _ clock => exact clock

theorem Deed.ends {halt : Halt Fault} (h : Deed s (.error halt s')) :
    halt ≠ .unfinished := by
  cases h with
  | stops why _ => cases why <;> exact nofun

theorem Same.length (h : Same s s') : s'.stack.length = s.stack.length := by
  simpa [Linear.outline] using congrArg List.length h.outline

theorem Deed.depth (h : Deed s (.ok () s')) : s'.stack.length ≤ s.stack.length + 1 := by
  cases h with
  | goes same _ =>
    rw [same.length]
    exact Nat.le_succ _
  | calls stack _ _ => rw [stack, List.length_cons]

/-- The running activation has a statement to execute. -/
def State.Pending (s : State) : Prop := ∃ act callers, s.stack = act :: callers ∧ act.rest ≠ []

/-- What a step without a budget does to the clock, to the host and to the number of activations: a
statement is counted, also one that faults, and a return is not. -/
inductive Beat (s : State) : EStateM.Result (Halt Fault) State (Option Value) → Prop
  | executes {s' : State} (pending : s.Pending) (clock : s'.machine.steps = s.machine.steps + 1)
      (depth : s'.stack.length ≤ s.stack.length + 1) : Beat s (.ok none s')
  | returns {r : Option Value} {s' : State} (idle : ¬ s.Pending)
      (clock : s'.machine.steps = s.machine.steps) (host : s'.machine.host = s.machine.host)
      (depth : s'.stack.length < s.stack.length) : Beat s (.ok r s')
  | faults {halt : Halt Fault} {s' : State} (pending : s.Pending)
      (clock : s'.machine.steps = s.machine.steps + 1) (ends : halt ≠ .unfinished) : Beat s
      (.error halt s')
  | stops {halt : Halt Fault} {s' : State} (idle : ¬ s.Pending)
      (clock : s'.machine.steps = s.machine.steps) (ends : halt ≠ .unfinished) : Beat s
      (.error halt s')

theorem State.Next.pending (h : s.Next s₁) : s.Pending := by
  obtain ⟨act, callers, stmt, rest, stack, code, -⟩ := h
  exact ⟨act, callers, stack, by simp [code]⟩

theorem State.Next.clock (h : s.Next s₁) : s₁.machine.steps = s.machine.steps + 1 := by
  obtain ⟨act, callers, stmt, rest, -, -, rfl⟩ := h
  rfl

theorem step_beat (p : LinearProgram) (s : State) : Beat s (step p none s) := by
  have turn : Turn none s (step p none s) := step_turn rfl
  have idle {act : Activation} {callers : List Activation} (stack : s.stack = act :: callers)
      (rest : act.rest = []) : ¬ s.Pending := by
    rintro ⟨act', callers', stack', some⟩
    rw [stack] at stack'
    cases stack'
    exact some rest
  generalize step p none s = res at turn
  cases turn with
  | executes next deed =>
    have depth := deed.depth
    rw [next.same.length] at depth
    exact .executes next.pending (deed.clock.trans next.clock) depth
  | stops next deed => exact .faults next.pending (deed.clock.trans next.clock) deed.ends
  | timeout _ limited => cases limited
  | leaves stack rest same machine =>
    apply Beat.returns (idle stack rest) (by rw [machine]) (by rw [machine])
    rw [same.length, stack]
    exact Nat.lt_succ_self _
  | returns stack rest eq =>
    subst eq
    exact .returns (idle stack rest) rfl rfl (by simp [stack])
  | refuses rest clock =>
    refine .stops ?_ clock nofun
    rintro ⟨act, callers, stack, some⟩
    exact some (rest act callers stack)

end PinsBackend.Linear
