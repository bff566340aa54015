import PinsBackend.Proofs.Kinds.Linked
import PinsBackend.Proofs.Layout.Nesting

/-! Jumps in the code of a program.

Every construct takes its labels from one counter and puts them into the sequence that jumps to
them. So a label stands at one place of the whole program, next to the jumps that go there, and
splitting leaves it in the chunk where it was. -/
namespace PinsBackend

open Ir

/-- Each label of a program is defined at one place, and each jump goes to a label of the sequence
in which it stands. No run ends at a label that is not there, neither of the tree code nor of the
linear code, whatever the entry is. -/
theorem control_flow_is_closed {a : Arena} {layout : Layout} (program : a.LaidOut layout)
    {entry : String} {P : TreeProgram}
    (lowered : a.source.lower a.source.resolve.bindings
      (a.source.check a.source.resolve.bindings).types layout entry = .ok P) :
    ((P.init :: P.chunks).flatMap fun c => c.body.labels).Nodup ∧
    (∀ c ∈ P.init :: P.chunks, c.body.isClosed [] = true) ∧
    (∀ maxCallDepth budget fuel machine crash last,
      Nested.run ⟨P, maxCallDepth, budget⟩ fuel machine = .error (.fault crash) last →
      ∀ l, crash.fault ≠ .undefinedLabel l) ∧
    ∀ C, P.canonical = .ok C → ∀ budget fuel machine crash last,
      Linear.run C budget fuel machine = .error (.fault crash) last →
      ∀ l, crash.fault ≠ .undefinedLabel l := by
  obtain ⟨t, h⟩ := Kinds.analysed_of_laid program.tree program.named program.typed program.laid
  have closed := Nested.closed_of_lower lowered
  refine ⟨h.labels_nodup lowered, closed, ?_, ?_⟩
  · intro maxCallDepth budget fuel machine crash last run
    exact Nested.run_ne_undefinedLabel closed run
  · intro C canonical budget fuel machine crash last run
    have linked := h.linear_linked lowered canonical fun _ => True
    exact (Linear.run_missesOnly linked (fun _ => trivial) run).ne_undefinedLabel

/-- A loop in a loop, whose condition calls a function inside. -/
def nestedLoops : Arena where
  nodes := #[
    ⟨.point 2 11, .type (.atom .integer)⟩,
    ⟨.point 2 7, .decl (.var "i" 0 none)⟩,
    ⟨.point 3 17, .type (.atom .integer)⟩,
    ⟨.point 3 12, .decl (.param "n" 2)⟩,
    ⟨.point 3 24, .type (.atom .logical)⟩,
    ⟨.point 3 34, .expr (.name "n")⟩,
    ⟨.point 3 39, .expr (.literal (.integer 0))⟩,
    ⟨.point 3 34, .expr (.binary .eq 5 6)⟩,
    ⟨.point 3 48, .expr (.name "n")⟩,
    ⟨.point 3 52, .expr (.literal (.integer 1))⟩,
    ⟨.point 3 48, .expr (.binary .sub 8 9)⟩,
    ⟨.point 3 43, .expr (.call "ends" [10])⟩,
    ⟨.point 3 34, .expr (.binary .or 7 11)⟩,
    ⟨.point 3 7, .decl (.function "ends" [3] 4 12)⟩,
    ⟨.point 1 28, .expr (.name "i")⟩,
    ⟨.point 1 32, .expr (.literal (.integer 0))⟩,
    ⟨.point 1 35, .expr (.literal (.integer 3))⟩,
    ⟨.point 1 38, .expr (.literal (.integer 1))⟩,
    ⟨.point 1 52, .expr (.name "i")⟩,
    ⟨.point 1 48, .expr (.call "ends" [18])⟩,
    ⟨.point 1 57, .expr (.name "i")⟩,
    ⟨.point 1 61, .expr (.literal (.integer 4))⟩,
    ⟨.point 1 57, .expr (.assign 20 21)⟩,
    ⟨.point 1 42, .expr (.whileDo 19 22)⟩,
    ⟨.point 1 24, .expr (.forDo 14 15 16 17 23)⟩,
    ⟨.point 1 66, .expr (.name "i")⟩,
    ⟨.point 1 23, .expr (.block [24, 25])⟩,
    ⟨.point 1 23, .expr (.scoped [1, 13] 26)⟩,
    ⟨.point 1 13, .type (.atom .integer)⟩,
    ⟨.point 1 1, .decl (.function "main" [] 28 27)⟩]
  definitions := [29]

theorem control_flow_is_closed_nestedLoops :
    ∃ layout P C, nestedLoops.LaidOut layout ∧
      nestedLoops.source.lower nestedLoops.source.resolve.bindings
        (nestedLoops.source.check nestedLoops.source.resolve.bindings).types layout "main" = .ok P ∧
      P.canonical = .ok C ∧
      ((P.init :: P.chunks).flatMap fun c => c.body.labels) =
        ["L1", "L2", "L6", "L7", "L3", "L4", "L5", "L8"] ∧
      (∀ c ∈ P.init :: P.chunks, c.body.isClosed [] = true) ∧
      (∀ machine crash last, Nested.run ⟨P, 8, none⟩ 100 machine = .error (.fault crash) last →
        crash.fault ≠ .undefinedLabel "L1") ∧
      ∀ machine crash last, Linear.run C none 100 machine = .error (.fault crash) last →
        crash.fault ≠ .undefinedLabel "L1" := by
  have checked : ∃ layout ∈ nestedLoops.layout?,
      ∃ P ∈ (nestedLoops.source.lower nestedLoops.source.resolve.bindings
          (nestedLoops.source.check nestedLoops.source.resolve.bindings).types layout
          "main").toOption,
        P.canonical.toOption.isSome ∧ ((P.init :: P.chunks).flatMap fun c => c.body.labels) =
          ["L1", "L2", "L6", "L7", "L3", "L4", "L5", "L8"] := by
    decide +kernel
  obtain ⟨layout, laid, P, lowered, linear, labels⟩ := checked
  obtain ⟨C, canonical⟩ := Option.isSome_iff_exists.1 linear
  have program := Arena.laidOut_of_mem laid
  have lowered := eq_ok_of_mem_toOption lowered
  have canonical : P.canonical = .ok C := eq_ok_of_mem_toOption canonical
  obtain ⟨-, closed, nested, runs⟩ := control_flow_is_closed program lowered
  exact ⟨layout, P, C, program, lowered, canonical, labels, closed,
    fun machine crash last run => nested _ _ _ machine crash last run "L1",
    fun machine crash last run => runs C canonical _ _ machine crash last run "L1"⟩

end PinsBackend
