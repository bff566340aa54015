import PinsBackend.Proofs.Safety.Runs

/-! Runs of compiled programs.

The size of memory cannot be seen from outside unless memory runs out. A word of the wrong kind
stops a program only if the program has variables for strings. -/
namespace PinsBackend

open Ir Kinds Safety
open Syntax (Env Level)

/-- A function of this name stands at the top level and has no parameters. -/
def Arena.HasEntry (a : Arena) (name : String) : Prop :=
  ∃ id ∈ a.definitions, ∃ result body, a.decl? id = some (.function name [] result body)

theorem Arena.HasEntry.definition {a : Arena} {name : String} (h : a.HasEntry name) :
    ∃ site result body, Syntax.Decl.function site name [] result body ∈ a.source.definitions := by
  obtain ⟨id, mem, result, body, decl⟩ := h
  have pos : 0 < a.nodes.size := by
    refine Nat.pos_of_ne_zero fun none => ?_
    simp [Arena.decl?, Arena.node?, Array.eq_empty_of_size_eq_zero none] at decl
  obtain ⟨depth, size⟩ := Nat.exists_eq_add_of_lt pos
  refine ⟨a.site id, a.typeTree depth result, a.exprTree depth body, List.mem_map.2 ⟨id, mem, ?_⟩⟩
  rw [size, Nat.zero_add, Arena.declTree, decl]
  rfl

theorem Machine.start_eq_ok {words : Nat} {sink : Sink} {machine : Machine} :
    Machine.start words sink = .ok machine ↔ words ≤ Word.blockLimit ∧
      machine = .create words sink := by
  simp only [Machine.start, except_bind_eq_ok]
  constructor
  · rintro ⟨_, exist, ⟨⟩⟩
    exact ⟨Memory.checkCapacity_eq_ok.1 exist, rfl⟩
  · rintro ⟨le, rfl⟩
    exact ⟨(), Memory.checkCapacity_eq_ok.2 le, rfl⟩

namespace Kinds

variable {arena : Arena} {layout : Layout} {t : Layout.Tables} {sort : NodeId → Syntax.NodeSort}

/-- The entry of a program can be called from outside. -/
theorem Analysed.outermost (h : Analysed arena.source (tablesOf arena.source layout) t sort)
    {C : LinearProgram} (sound : Sound (contextOf arena.source (tablesOf arena.source layout))
      (frameOf layout) arena.source.init C) (entry : arena.HasEntry C.entry) :
    ∃ k l c, Outermost (contextOf arena.source (tablesOf arena.source layout)) (frameOf layout)
      arena.source.init C C.entry (some k) l c := by
  obtain ⟨site, result, body, mem⟩ := entry.definition
  have declared : ([], Syntax.Decl.function site C.entry [] result body) ∈
    arena.source.declarations :=
    List.mem_flatMap.2 ⟨_, mem, Syntax.Decl.mem_declarations _ _⟩
  have facts := h.decl_facts declared
  obtain ⟨frame, laid, of⟩ := facts.2.2.2.2.1
  obtain ⟨ps, τ, typed, -⟩ := facts.2.2.2.1
  have label : frame.label = C.entry := of.label
  rw [h.describes.frame] at laid
  let r : Routine := ⟨Syntax.Decl.level site [] body, [], τ.leaf⟩
  have routine : (contextOf arena.source (tablesOf arena.source layout)).routine C.entry r :=
    ⟨site, C.entry, [], result, body, frame, ps, τ, declared, rfl, laid, label, typed, rfl⟩
  obtain ⟨c, chunk, framed, coded⟩ := sound.routine routine
  exact ⟨_, _, c, chunk, framed, sound.record routine, rfl, .inr ⟨_, r, routine, rfl⟩, coded,
    fun d hd string => ⟨d, string, .inr (.inr ⟨_, r, routine, hd⟩)⟩⟩

/-- A variable is declared at a node of the arena. -/
theorem Analysed.var_node (h : Analysed arena.source (tablesOf arena.source layout) t sort)
    {Γ : Env} {d : Syntax.Decl} (declared : (Γ, d) ∈ arena.source.declarations)
    (isVar : d.isVar = true) :
    ∃ name type init, arena.decl? d.id = some (.var name type init) := by
  have signed := h.signature declared
  cases d with
  | var site x type init =>
    have table : arena.signatures.get? site.id = some (.var type) := signed
    rw [Arena.get?_signatures, Arena.signature?] at table
    split at table <;> cases table
    rename_i name type init node
    exact ⟨name, type, init, node⟩
  | _ => cases isVar

/-- Strings that are never set are those of a variable. -/
theorem Analysed.loose (h : Analysed arena.source (tablesOf arena.source layout) t sort)
    (loose : Loose (contextOf arena.source (tablesOf arena.source layout)) arena.source.init) :
    ∃ id name type init τ, arena.decl? id = some (.var name type init) ∧
      (arena.source.check arena.source.resolve.bindings).types.get? id = some τ ∧
        τ.leaf = .string := by
  obtain ⟨d, content, place⟩ := loose
  have found : ∃ Γ decl, (Γ, decl) ∈ arena.source.declarations ∧ decl.id = d ∧
      decl.isVar = true := by
    rcases place with global | initial | ⟨label, r, routine, inner⟩
    · obtain ⟨e, he, rfl⟩ := List.mem_map.1 global
      obtain ⟨mem, isVar⟩ := List.mem_filter.1 he
      exact ⟨_, e, List.mem_flatMap.2 ⟨e, mem, e.mem_declarations _⟩, rfl, isVar⟩
    · exact ⟨_, h.local_declared .init initial⟩
    · obtain ⟨site, f, params, result, body, frame, ps, τ, declared, level, -⟩ := routine
      rw [level] at inner
      exact ⟨_, h.local_declared (.function (h.decl_facts declared).2.2.2.2.2.1 declared) inner⟩
  obtain ⟨Γ, decl, declared, rfl, isVar⟩ := found
  obtain ⟨name, type, init, node⟩ := h.var_node declared isVar
  obtain ⟨τ, typed, -⟩ := h.variable_type declared (.inl isVar)
  have own : isParameter arena.source decl.id = false := by
    rw [h.isParameter_eq declared]
    cases decl <;> first | rfl | cases isVar
  rw [contextOf_storage, content_variable typed own] at content
  exact ⟨_, name, type, init, τ, node, typed, Content.word.inj content⟩

end Kinds

/-- A program was compiled: its arena is a tree, and it has an entry function. -/
structure Compiled (parsed : Parsed) (options : Options) (comp : Compilation) (C : LinearProgram) :
    Prop where
  tree : parsed.arena.IsTree
  entry : parsed.arena.HasEntry options.entry
  compiled : parsed.compile options = .ok () comp
  linear : comp.linear = some C

/-- What the machine may rely on when it runs a compiled program. -/
theorem Compiled.sound {parsed : Parsed} {options : Options} {comp : Compilation}
    {C : LinearProgram} (h : Compiled parsed options comp C) :
    ∃ layout t k l c, comp.layout = some layout ∧
      Analysed parsed.arena.source (tablesOf parsed.arena.source layout) t parsed.arena.sort ∧
      Sound (contextOf parsed.arena.source (tablesOf parsed.arena.source layout)) (frameOf layout)
        parsed.arena.source.init C ∧
      Outermost (contextOf parsed.arena.source (tablesOf parsed.arena.source layout))
        (frameOf layout)
        parsed.arena.source.init C C.entry (some k) l c := by
  obtain ⟨layout, P, laid, -, accepted⟩ := accepted_with_layout h.compiled h.linear
  obtain ⟨t, analysed⟩ := analysed_of_accepted h.tree accepted
  have sound := sound_of_accepted accepted analysed
  have entry : C.entry = options.entry :=
    (TreeProgram.canonical_globals accepted.canonical).2.trans
      (analysed.lowered accepted.lowered).2.2.2.2
  obtain ⟨k, l, c, outermost⟩ := analysed.outermost sound (entry ▸ h.entry)
  exact ⟨layout, t, k, l, c, laid, analysed, sound, outermost⟩

/-- Whatever a program does in a memory that is large enough, it does in every larger one: it ends
with the same value or the same fault in the same function, after as many steps and the same output.
-/
theorem memory_size_unobservable {parsed : Parsed} {options : Options} {comp : Compilation}
    {C : LinearProgram} (program : Compiled parsed options comp C) {words words' : Nat}
    (le : words ≤ words') {sink : Sink} {machine machine' : Machine}
    (start : Machine.start words sink = .ok machine)
    (start' : Machine.start words' sink = .ok machine') (budget : Option Nat) (fuel : Nat)
    (enough : ∀ crash last, Linear.run C budget fuel machine = .error (.fault crash) last →
      lacksMemory crash.fault = false) :
    seen (Linear.run C budget fuel machine') = seen (Linear.run C budget fuel machine) := by
  obtain ⟨layout, t, k, l, c, -, -, sound, entry⟩ := program.sound
  obtain ⟨small, rfl⟩ := Machine.start_eq_ok.1 start
  obtain ⟨small', rfl⟩ := Machine.start_eq_ok.1 start'
  rcases run_alike sound id budget fuel entry le (Word.fits_of_le_blockLimit small)
    (Word.fits_of_le_blockLimit small')
    sink with ⟨crash, last, run, lacks⟩ | same
  · rw [enough crash last run] at lacks
    cases lacks
  · exact same.1

/-- `a[1] := 5, f(a)`, where `f` adds one to the last element of an array. -/
def bumpElement : Parsed where
  arena :=
    { nodes := #[
        ⟨.point 2 16, .type (.atom .integer)⟩,
        ⟨.point 2 11, .type (.array 2 0)⟩,
        ⟨.point 2 7, .decl (.var "a" 1 none)⟩,
        ⟨.point 3 20, .type (.atom .integer)⟩,
        ⟨.point 3 15, .type (.array 2 3)⟩,
        ⟨.point 3 11, .decl (.param "x" 4)⟩,
        ⟨.point 3 30, .type (.atom .integer)⟩,
        ⟨.point 3 40, .expr (.name "x")⟩,
        ⟨.point 3 42, .expr (.literal (.integer 1))⟩,
        ⟨.point 3 40, .expr (.binary .index 7 8)⟩,
        ⟨.point 3 47, .expr (.literal (.integer 1))⟩,
        ⟨.point 3 40, .expr (.binary .add 9 10)⟩,
        ⟨.point 3 7, .decl (.function "f" [5] 6 11)⟩,
        ⟨.point 1 24, .expr (.name "a")⟩,
        ⟨.point 1 26, .expr (.literal (.integer 1))⟩,
        ⟨.point 1 24, .expr (.binary .index 13 14)⟩,
        ⟨.point 1 31, .expr (.literal (.integer 5))⟩,
        ⟨.point 1 24, .expr (.assign 15 16)⟩,
        ⟨.point 1 36, .expr (.name "a")⟩,
        ⟨.point 1 34, .expr (.call "f" [18])⟩,
        ⟨.point 1 23, .expr (.block [17, 19])⟩,
        ⟨.point 1 23, .expr (.scoped [2, 12] 20)⟩,
        ⟨.point 1 13, .type (.atom .integer)⟩,
        ⟨.point 1 1, .decl (.function "main" [] 22 21)⟩]
      definitions := [23] }

theorem memory_size_unobservable_bumpElement :
    ∃ comp C machine machine' last, Compiled bumpElement {} comp C ∧
      Machine.start 16 {} = .ok machine ∧ Machine.start 64 {} = .ok machine' ∧
      Linear.run C none 60 machine = .ok ⟨.int 6, 5⟩ last ∧
      seen (Linear.run C none 60 machine') = seen (Linear.run C none 60 machine) := by
  have checked : bumpElement.arena.IsTree ∧ ∃ code ∈ bumpElement.code? {},
      value? (Linear.run code.2 none 60 (Machine.create 16 {})) = some ⟨.int 6, 5⟩ := by
    decide +kernel
  obtain ⟨tree, ⟨P, C⟩, code, value⟩ := checked
  obtain ⟨comp, compiled, -, linear⟩ := code?_eq_some code
  obtain ⟨last, run⟩ := value?_eq_some value
  have program : Compiled bumpElement {} comp C :=
    ⟨tree, ⟨23, by decide, 22, 21, rfl⟩, compiled, linear⟩
  have start : Machine.start 16 {} = .ok (.create 16 {}) := Machine.start_eq_ok.2 ⟨by decide, rfl⟩
  have start' : Machine.start 64 {} = .ok (.create 64 {}) := Machine.start_eq_ok.2 ⟨by decide, rfl⟩
  refine ⟨comp, C, _, _, last, program, start, start', run, ?_⟩
  exact memory_size_unobservable program (by decide) start start' none 60 fun crash last failed =>
    absurd (run.symm.trans failed) nofun

/-- Words of the wrong kind stop a program only where a string meets an integer or an integer is to
be printed as a string, and only if some variable is declared to hold strings. Such a variable holds
zero at first. -/
theorem malformed_only_with_string_variables {parsed : Parsed} {options : Options}
    {comp : Compilation} {C : LinearProgram} (program : Compiled parsed options comp C)
    {words : Nat} {sink : Sink} {machine : Machine} (start : Machine.start words sink = .ok machine)
    (budget : Option Nat) (fuel : Nat) {function : String} {m : Malformation} {last : Machine}
    (run : Linear.run C budget fuel machine = .error (.fault ⟨function, .malformed m⟩) last) :
    (m ∈ [Malformation.stringExpected .integer, .incomparable .integer .string,
        .incomparable .string .integer]) ∧
      ∃ id name type init τ, parsed.arena.decl? id = some (.var name type init) ∧
        (parsed.arena.source.check parsed.arena.source.resolve.bindings).types.get? id = some τ ∧
        τ.leaf = .string := by
  obtain ⟨layout, t, k, l, c, -, analysed, sound, entry⟩ := program.sound
  obtain ⟨small, rfl⟩ := Machine.start_eq_ok.1 start
  have fits := Word.fits_of_le_blockLimit small
  have possible : Possible
    (Loose (contextOf parsed.arena.source (tablesOf parsed.arena.source layout))
      parsed.arena.source.init) (.malformed m) := by
    rcases run_alike sound id budget fuel entry (Nat.le_refl words) fits fits sink with
      ⟨crash, last, run', lacks⟩ | ⟨-, possible⟩
    · rw [run] at run'
      cases run'
      cases lacks
    · exact possible _ _ run
  cases possible with
  | unset loose mem => exact ⟨mem, analysed.loose loose⟩

/-- `s == "a"`, where `s` is a string that was never set. -/
def compareUnset : Parsed where
  arena :=
    { nodes := #[
        ⟨.point 2 11, .type (.atom .string)⟩,
        ⟨.point 2 7, .decl (.var "s" 0 none)⟩,
        ⟨.point 1 13, .type (.atom .logical)⟩,
        ⟨.point 1 24, .expr (.name "s")⟩,
        ⟨.point 1 29, .expr (.literal (.string "a"))⟩,
        ⟨.point 1 24, .expr (.binary .eq 3 4)⟩,
        ⟨.point 1 23, .expr (.scoped [1] 5)⟩,
        ⟨.point 1 1, .decl (.function "main" [] 2 6)⟩]
      definitions := [7] }

/-- A program that was compiled stops at a word of the wrong kind. -/
theorem unset_string_is_malformed :
    compareUnset.arena.IsTree ∧ compareUnset.arena.HasEntry "main" ∧
      (compareUnset.execute { memoryWords := 8 } {} 30).result =
        .error (.halt (.fault ⟨"main", .malformed (.incomparable .integer .string)⟩)) :=
  ⟨by decide +kernel, ⟨7, by decide, 2, 6, rfl⟩, by decide +kernel⟩

theorem malformed_only_with_string_variables_compareUnset :
    ∃ comp C machine last, Compiled compareUnset {} comp C ∧ Machine.start 8 {} = .ok machine ∧
      Linear.run C none 30 machine =
        .error (.fault ⟨"main", .malformed (.incomparable .integer .string)⟩) last ∧
      ∃ id name type init τ, compareUnset.arena.decl? id = some (.var name type init) ∧
        (compareUnset.arena.source.check compareUnset.arena.source.resolve.bindings).types.get? id =
          some τ ∧ τ.leaf = .string := by
  have checked : compareUnset.arena.IsTree ∧ ∃ code ∈ compareUnset.code? {},
      failure? (Linear.run code.2 none 30 (Machine.create 8 {})) =
        some (.fault ⟨"main", .malformed (.incomparable .integer .string)⟩) := by decide +kernel
  obtain ⟨tree, ⟨P, C⟩, code, failure⟩ := checked
  obtain ⟨comp, compiled, -, linear⟩ := code?_eq_some code
  obtain ⟨last, run⟩ := failure?_eq_some failure
  have program : Compiled compareUnset {} comp C :=
    ⟨tree, ⟨7, by decide, 2, 6, rfl⟩, compiled, linear⟩
  have start : Machine.start 8 {} = .ok (.create 8 {}) := Machine.start_eq_ok.2 ⟨by decide, rfl⟩
  exact ⟨comp, C, _, last, program, start, run,
    (malformed_only_with_string_variables program start none 30 run).2⟩

end PinsBackend
