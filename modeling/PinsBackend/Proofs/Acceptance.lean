import PinsBackend.Compilation
import PinsBackend.Proofs.Monad

/-! What it means that a program was compiled: every stage went through without a report. -/
namespace PinsBackend

open Ir

variable {parsed : Parsed} {options : Options} {comp : Compilation} {C : LinearProgram}

/-- All stages, from the trees of a program to its linear code. -/
structure Accepted (source : Syntax.Source) (entry : String) (layout : Layout) (tree : TreeProgram)
    (linear : LinearProgram) : Prop where
  named : source.resolve.errors = []
  typed : (source.check source.resolve.bindings).errors = #[]
  laid : source.layout source.resolve.bindings (source.check source.resolve.bindings).types =
    .ok layout
  lowered : source.lower source.resolve.bindings (source.check source.resolve.bindings).types layout
    entry = .ok tree
  canonical : tree.canonical = .ok linear

namespace Compilation

theorem finish_eq_ok {ds : List Diagnostic} {c c' : Compilation} {u : Unit} :
    finish ds c = .ok u c' ↔ ds = [] ∧ c' = c := by
  unfold finish
  cases ds <;> simp [pure_apply, throw_apply, eq_comm]

theorem lift_eq_ok {α ε : Type} {wrap : ε → CompileError} {x : Except ε α} {a : α}
    {c c' : Compilation} : lift wrap x c = .ok a c' ↔ x = .ok a ∧ c' = c := by
  unfold lift
  cases x <;> simp [eq_comm]

end Compilation

/-- A compilation that got as far as linear code went through all stages. -/
theorem accepted_with_layout (h : parsed.compile options = .ok () comp)
    (hl : comp.linear = some C) :
    ∃ layout P, comp.layout = some layout ∧ comp.tree = some P ∧
      Accepted parsed.arena.source options.entry layout P C := by
  unfold Parsed.compile Compilation.stages at h
  -- each stage that could have been the last one leaves no linear code
  by_cases stop : options.stopAfter = .parsed
  · simp only [stop, ↓reduceIte, Compilation.finish_eq_ok] at h
    simp [h.2] at hl
  simp only [stop, ↓reduceIte, bind_eq_ok, modify_apply] at h
  obtain ⟨_, _, ⟨⟩, h⟩ := h
  by_cases stop : options.stopAfter = .names
  · simp only [stop, ↓reduceIte, Compilation.finish_eq_ok] at h
    simp [h.2] at hl
  simp only [stop, ↓reduceIte, bind_eq_ok, modify_apply, Compilation.finish_eq_ok] at h
  obtain ⟨_, _, ⟨⟩, _, _, ⟨reports, rfl⟩, h⟩ := h
  by_cases stop : options.stopAfter = .types
  · simp only [stop, ↓reduceIte, pure_eq_ok] at h
    simp [← h.2] at hl
  simp only [stop, ↓reduceIte, bind_eq_ok, modify_apply, Compilation.lift_eq_ok] at h
  obtain ⟨layout, _, ⟨laid, rfl⟩, _, _, ⟨⟩, h⟩ := h
  by_cases stop : options.stopAfter = .frames
  · simp only [stop, ↓reduceIte, pure_eq_ok] at h
    simp [← h.2] at hl
  simp only [stop, ↓reduceIte, bind_eq_ok, modify_apply, Compilation.lift_eq_ok] at h
  obtain ⟨P, _, ⟨lowered, rfl⟩, _, _, ⟨⟩, h⟩ := h
  by_cases stop : options.stopAfter = .ir
  · simp only [stop, ↓reduceIte, pure_eq_ok] at h
    simp [← h.2] at hl
  simp only [stop, ↓reduceIte, bind_eq_ok, modify_apply, Compilation.lift_eq_ok] at h
  obtain ⟨linear, _, ⟨canonical, rfl⟩, ⟨⟩⟩ := h
  obtain rfl : linear = C := by simpa using hl
  simp only [List.append_eq_nil_iff, List.map_eq_nil_iff] at reports
  exact ⟨layout, P, rfl, rfl, reports.1.2, by simpa using reports.2, laid, lowered, canonical⟩

theorem accepted_of_compile (h : parsed.compile options = .ok () comp) (hl : comp.linear = some C) :
    ∃ layout P, comp.tree = some P ∧ Accepted parsed.arena.source options.entry layout P C := by
  obtain ⟨layout, P, -, tree, accepted⟩ := accepted_with_layout h hl
  exact ⟨layout, P, tree, accepted⟩

/-- The tree code and the linear code of a program. -/
def Parsed.code? (parsed : Parsed) (options : Options) : Option (TreeProgram × LinearProgram) :=
  match parsed.compile options with
  | .ok () comp => comp.tree.bind fun P => comp.linear.map fun C => (P, C)
  | .error _ _ => none

theorem code?_eq_some {P : TreeProgram} (h : parsed.code? options = some (P, C)) :
    ∃ comp, parsed.compile options = .ok () comp ∧ comp.tree = some P ∧ comp.linear = some C := by
  unfold Parsed.code? at h
  split at h
  · rename_i comp compiled
    simp only [Option.bind_eq_some_iff, Option.map_eq_some_iff, Prod.mk.injEq] at h
    obtain ⟨_, tree, _, linear, rfl, rfl⟩ := h
    exact ⟨comp, compiled, tree, linear⟩
  · cases h

end PinsBackend
