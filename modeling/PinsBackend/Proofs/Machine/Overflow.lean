import PinsBackend.Proofs.Canonical.Preservation
import PinsBackend.Proofs.Machine.Stack

/-! Overflows of the stack.

The stack pointer never is below the static data, and a frame that does not fit would take it there.
So an overflow of the stack always reports a pointer below the one that stands. -/
namespace PinsBackend

open Ir

namespace Linear

variable {p : LinearProgram} {s s' : State} {low : Int}

/-- A statement overflows the stack if the record of a callee would reach into static data. -/
theorem Deed.overflow (h : Deed s (.error (.fault (.stackOverflow low)) s')) :
    low < s.machine.memory.staticTop ∧ s'.machine.memory = s.machine.memory := by
  cases h with
  | stops why _ =>
    cases why with
    | noRoom below memory => exact ⟨below, memory⟩
    | plain h => cases h

theorem step_overflow (h : step p none s = .error (.fault (.stackOverflow low)) s') :
    low < s.machine.memory.staticTop ∧ s'.machine.memory = s.machine.memory := by
  cases step_turn h with
  | stops next deed =>
    obtain ⟨act, callers, stmt, rest, -, -, rfl⟩ := next
    exact deed.overflow

section

variable {top static : Int} {fuel : Nat}

theorem loop_overflow (h : InOrder top static s)
    (stopped : loop p none fuel s = .error (.fault (.stackOverflow low)) s') :
    low < s'.machine.memory.sp := by
  induction fuel generalizing s with
  | zero => cases stopped
  | succ fuel ih =>
    rcases bind_eq_error.1 stopped with stopped | ⟨r, s₁, stepped, stopped⟩
    · obtain ⟨below, memory⟩ := step_overflow stopped
      have := h.room
      have := h.staticTop
      rw [memory]
      omega
    · cases r with
      | some v => cases stopped
      | none => exact ih (h.turn (step_turn stepped)) stopped

theorem invoke_overflow {label function : String} {machine last : Machine}
    (h : InOrder top static ⟨machine, []⟩)
    (stopped : invoke p none fuel label machine = .error (.fault ⟨function, .stackOverflow low⟩)
      last) :
    low < last.memory.sp := by
  unfold invoke at stopped
  split at stopped
  · cases stopped
  · split at stopped
    · cases stopped
    · dsimp only at stopped
      split at stopped
      · cases stopped
      · next halt s body =>
        cases halt with
        | overflow | unfinished => cases stopped
        | fault f =>
          cases stopped
          rcases bind_eq_error.1 body with body | ⟨_, s₁, called, body⟩
          · obtain ⟨below, memory⟩ := (call_deed body).overflow
            have := h.room
            have := h.staticTop
            rw [memory]
            omega
          · exact loop_overflow (h.deed (call_deed called)) body

end

end Linear

/-- An overflow of the stack reports a pointer below the one that stands. -/
theorem Linear.run_overflow_below {p : LinearProgram} {fuel words : Nat} {sink : Sink}
    {function : String} {low : Int} {last : Machine}
    (h : run p none fuel (Machine.create words sink) =
      .error (.fault ⟨function, .stackOverflow low⟩) last) :
    low < last.memory.sp := by
  rw [Canonical.linear_run_eq, Canonical.runBy] at h
  split at h
  · next halt m stopped =>
    simp only [Machine.onMemory] at stopped
    split at stopped
    · cases stopped
    · next refused =>
      cases stopped
      rcases Memory.allocateGlobals_eq_error refused with ⟨o, rfl⟩ | ⟨n, k, rfl⟩ <;> cases h
  · next allocated static =>
    have inOrder := allocated_inOrder static
    split at h
    · next stopped =>
      cases h
      exact invoke_overflow inOrder stopped
    · next initialized init =>
      split at h
      · next stopped =>
        cases h
        exact invoke_overflow (invoke_inOrder inOrder init) stopped
      · cases h

end PinsBackend
