import PinsBackend.Proofs.Kinds.Linked

/-! Faults of linear code, beside those of the tree code it comes from.

The splitter may evaluate an operand after statements that stood behind it, if the operand announces
no trap. Words of the wrong kind and bad addresses are not announced, so such a fault may come late
and another one may come first. Every other fault of tree code stops the linear machine in the same
function, with the same output and the same memory. -/
namespace PinsBackend

open Ir

/-- If a run of tree code stops with a fault that the splitter knows of, and not because calls nest
too deep, the linear machine stops in the same function after the same output, either with this
fault or with one that it does not know of. Those are bad addresses and words of the wrong kind. If
the arena is no tree, the labels of a chunk are to be defined once, and code may also be out of
place. The guard on the depth of calls reports the stack pointer as it is; a frame that does not fit
reports the lower one that it would need. Left out is an entry that names only a built-in: the
evaluator calls it, and the linear machine does not. -/
theorem canonical_keeps_announced_faults {parsed : Parsed} {options : Options} {comp : Compilation}
    {P : TreeProgram} {C : LinearProgram} (compiled : parsed.compile options = .ok () comp)
    (tree : comp.tree = some P) (linear : comp.linear = some C) {crash : Crash}
    (shape : parsed.arena.IsTree ∨
      (∀ c ∈ P.init :: P.chunks, c.body.labels.Nodup) ∧ crash.fault.isForeign = false)
    (entry : Canonical.Callable P P.entry)
    (memoryWords : Nat) (sink : Sink) (maxCallDepth fuel : Nat) {last : Machine}
    (run : Nested.run ⟨P, maxCallDepth, none⟩ fuel (Machine.create memoryWords sink) =
      .error (.fault crash) last) (announced : crash.fault.isSilent = false)
    (guard : crash.fault ≠ .stackOverflow last.memory.sp) :
    ∃ f steps, (f = crash.fault ∨ f.isSilent = true ∨
        f.isForeign = true ∧ ¬ parsed.arena.IsTree) ∧
      Linear.RunsTo C (Machine.create memoryWords sink)
        (.error (.fault ⟨crash.function, f⟩) ⟨last.memory, last.host, steps⟩) := by
  obtain ⟨layout, P', tree', accepted⟩ := accepted_of_compile compiled linear
  obtain rfl : P' = P := by simpa [tree] using tree'.symm
  obtain ⟨unique, native⟩ : (∀ c ∈ P'.init :: P'.chunks, c.body.labels.Nodup) ∧
      crash.fault.isForeign = false := by
    rcases shape with shape | known
    · obtain ⟨t, analysed⟩ := Kinds.analysed_of_accepted shape accepted
      exact ⟨(List.nodup_flatMap.1 (analysed.labels_nodup accepted.lowered)).1,
        analysed.nested_native accepted.lowered run⟩
    · exact known
  have runs := Canonical.follows_run ⟨P', maxCallDepth, none⟩ accepted.canonical unique fuel
    (Machine.create memoryWords sink)
  have defined := Nested.run_ne_undefinedLabel (Nested.closed_of_lower accepted.lowered) run
  rw [run] at runs
  have reported : crash.fault.isAnnounced = true := by
    cases hf : crash.fault with
    | undefinedLabel l => exact absurd hf (defined l)
    | _ => simp_all [Fault.isAnnounced, Fault.isQuiet]
  obtain ⟨f, steps, same, n, stops⟩ := runs reported rfl guard entry
  refine ⟨f, steps, same.imp_right fun quiet => ?_, n, stops⟩
  rcases Bool.or_eq_true_iff.1 quiet with silent | foreign
  · exact .inl silent
  · refine .inr ⟨foreign, fun shape => ?_⟩
    obtain ⟨t, analysed⟩ := Kinds.analysed_of_accepted shape accepted
    have native :=
      analysed.linear_native accepted.lowered accepted.canonical (stops n (Nat.le_refl n))
    rw [foreign] at native
    cases native

/-- `1 / 0 + (s == "a", 5)`, where `s` is a string that was never set. -/
def divideBeforeCompare : Parsed where
  arena :=
    { nodes := #[
        ⟨.point 1 13, .type (.atom .integer)⟩,
        ⟨.point 2 11, .type (.atom .string)⟩,
        ⟨.point 2 7, .decl (.var "s" 1 none)⟩,
        ⟨.point 1 23, .expr (.literal (.integer 1))⟩,
        ⟨.point 1 27, .expr (.literal (.integer 0))⟩,
        ⟨.point 1 23, .expr (.binary .div 3 4)⟩,
        ⟨.point 1 32, .expr (.name "s")⟩,
        ⟨.point 1 37, .expr (.literal (.string "a"))⟩,
        ⟨.point 1 32, .expr (.binary .eq 6 7)⟩,
        ⟨.point 1 42, .expr (.literal (.integer 5))⟩,
        ⟨.point 1 31, .expr (.block [8, 9])⟩,
        ⟨.point 1 23, .expr (.binary .add 5 10)⟩,
        ⟨.point 1 23, .expr (.scoped [2] 11)⟩,
        ⟨.point 1 1, .decl (.function "main" [] 0 12)⟩]
      definitions := [13] }

theorem canonical_keeps_announced_faults_divideBeforeCompare :
    ∃ comp P C last f steps, divideBeforeCompare.compile {} = .ok () comp ∧
      comp.tree = some P ∧ comp.linear = some C ∧ divideBeforeCompare.arena.IsTree ∧
      Canonical.Callable P P.entry ∧
      Nested.run ⟨P, 8, none⟩ 20 (Machine.create 8 {}) =
        .error (.fault ⟨"main", .divisionByZero⟩) last ∧
      Fault.divisionByZero.isSilent = false ∧ Fault.divisionByZero ≠ .stackOverflow last.memory.sp ∧
      (f = .divisionByZero ∨ f.isSilent = true ∨
        f.isForeign = true ∧ ¬ divideBeforeCompare.arena.IsTree) ∧
      Linear.RunsTo C (Machine.create 8 {})
        (.error (.fault ⟨"main", f⟩) ⟨last.memory, last.host, steps⟩) := by
  have checked : divideBeforeCompare.arena.IsTree ∧ ∃ code ∈ divideBeforeCompare.code? {},
      (code.1.chunk? code.1.entry = none → Builtin.ofLabel? code.1.entry = none) ∧
      failure? (Nested.run ⟨code.1, 8, none⟩ 20 (Machine.create 8 {})) =
        some (.fault ⟨"main", .divisionByZero⟩) := by decide +kernel
  obtain ⟨shape, ⟨P, C⟩, code, entry, failure⟩ := checked
  obtain ⟨comp, compiled, tree, linear⟩ := code?_eq_some code
  obtain ⟨last, run⟩ := failure?_eq_some failure
  obtain ⟨f, steps, hf, runs⟩ := canonical_keeps_announced_faults compiled tree linear
    (.inl shape) entry 8 {} 8 20 run rfl nofun
  exact ⟨comp, P, C, last, f, steps, compiled, tree, linear, shape, entry, run, rfl,
    nofun, hf, runs⟩

/-- `(s == "a") == (1 / 0 == 1 & true)`, where `s` is a string that was never set. -/
def compareBeforeDivide : Parsed where
  arena :=
    { nodes := #[
        ⟨.point 2 11, .type (.atom .string)⟩,
        ⟨.point 2 7, .decl (.var "s" 0 none)⟩,
        ⟨.point 1 13, .type (.atom .logical)⟩,
        ⟨.point 1 24, .expr (.name "s")⟩,
        ⟨.point 1 29, .expr (.literal (.string "a"))⟩,
        ⟨.point 1 24, .expr (.binary .eq 3 4)⟩,
        ⟨.point 1 38, .expr (.literal (.integer 1))⟩,
        ⟨.point 1 42, .expr (.literal (.integer 0))⟩,
        ⟨.point 1 38, .expr (.binary .div 6 7)⟩,
        ⟨.point 1 47, .expr (.literal (.integer 1))⟩,
        ⟨.point 1 38, .expr (.binary .eq 8 9)⟩,
        ⟨.point 1 51, .expr (.literal (.logical true))⟩,
        ⟨.point 1 38, .expr (.binary .and 10 11)⟩,
        ⟨.point 1 24, .expr (.binary .eq 5 12)⟩,
        ⟨.point 1 23, .expr (.scoped [1] 13)⟩,
        ⟨.point 1 1, .decl (.function "main" [] 2 14)⟩]
      definitions := [15] }

/-- The evaluator stops at the comparison with a word of the wrong kind, the linear machine at the
division behind it. -/
theorem canonical_faults_differ :
    (compareBeforeDivide.executeTree { memoryWords := 8 } {} 30).result =
        .error (.halt (.fault ⟨"main", .malformed (.incomparable .integer .string)⟩)) ∧
      (compareBeforeDivide.execute { memoryWords := 8 } {} 30).result =
        .error (.halt (.fault ⟨"main", .divisionByZero⟩)) := by
  decide +kernel

end PinsBackend
