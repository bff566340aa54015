import PinsBackend.Proofs.Meaning.Pieces
import PinsBackend.Proofs.Safety.Programs

/-! What a program means and what its tree code does.

The calls of the source are compared with the calls of the code by induction on how deep they nest.
A program is then its initializers and a call of its entry, on both sides. -/
namespace PinsBackend.Meaning

open Ir Kinds Safety
open Nested (Setting State)
open Syntax (Decl Env Level Site Source)

variable {setting : Setting} {machine : Machine}

section

variable {source : Source} {ctx : Lowering.Context} {t : Layout.Tables}
  {sort : NodeId → Syntax.NodeSort}
  {entry : String} {P : TreeProgram}

/-! ## Functions -/

theorem function?_eq (h : Analysed source ctx t sort) {Γ : Env} {site : Site} {f : String}
    {params : List Decl} {result : Syntax.TypeExpr} {body : Syntax.Expr}
    (declared : (Γ, .function site f params result body) ∈ source.declarations) :
    (tables source ctx).function? site.id = some (Γ, .function site f params result body) := by
  have some : ((tables source ctx).function? site.id).isSome = true :=
    List.find?_isSome.2 ⟨_, declared, by simp [Decl.isFunction, Decl.id, Decl.site]⟩
  obtain ⟨⟨Γ', d⟩, found⟩ := Option.isSome_iff_exists.1 some
  have holds := List.find?_some found
  simp only [Bool.and_eq_true, decide_eq_true_eq] at holds
  obtain ⟨rfl, rfl⟩ := h.declared_unique (List.mem_of_find?_eq_some found) declared holds.2
  exact found

/-- Calls that never come to an end agree with code that has no fuel. -/
theorem calls_unfinished (W : World) : Calls W 0 fun _ _ => throw .unfinished := by
  intro label r f _ _ σ s args n _ _ _ _
  apply Simulates.unfinished rfl
  intro n hn
  obtain rfl : n = 0 := by omega
  exact ⟨s, rfl⟩

/-- The chunks of a program do what the bodies of its functions do, and the initializers what those
of its globals do. -/
theorem agrees_of_lowered (h : Analysed source ctx t sort)
    (hp : source.lower ctx.bindings ctx.types ctx.layout entry = .ok P) :
    (∀ c ∈ P.chunks, ChunkAgrees source ctx c) ∧
      ∃ inits hi, P.init = { frame := ctx.layout.init, body := .seq inits } ∧
        ∀ R : Run, R.Good source ctx →
        Executes (R.world source ctx) R.bound [source.init] Temp.firstFree hi
          (decls (tables source ctx) R.call R.limit (source.definitions.filter Decl.isVar))
          inits := by
  -- some calls that agree, for the chunks do not depend on them
  let R : Run := ⟨0, ⟨P, 0, none⟩, fun _ _ => throw .unfinished, 0, 0⟩
  have good : R.Good source ctx :=
    ⟨calls_unfinished _, Nat.le_refl 0, fun b free => h.chunk?_builtin hp free⟩
  obtain ⟨inits, rest, s₁, s₂, vars, functions, standsVars, standsFunctions, rfl⟩ := h.lowers hp
  have free : Temp.firstFree ≤ s₁.nextTemp := nextTemp_le vars
  constructor
  · have first := (follows_of_lowers h vars standsVars good (Nat.le_refl _)).2 (by simp)
    have all := (follows_of_lowers h functions standsFunctions good free).2 first
    intro c hc
    exact all c (Array.mem_toList_iff.1 hc)
  · exact ⟨inits, s₁.nextTemp, rfl, fun R good =>
      (follows_of_lowers h vars standsVars good (Nat.le_refl _)).1⟩

/-- A machine that runs a lowered program, beside calls of the source that nest so deep at most. -/
def runAt (source : Source) (ctx : Lowering.Context) (top : Int) (setting : Setting)
    (limit depth : Nat) : Run where
  top := top
  setting := setting
  call := call (tables source ctx) limit depth
  limit := limit
  bound := min depth limit

theorem good_runAt (h : Analysed source ctx t sort) (top : Int) {setting : Setting}
    (hp : source.lower ctx.bindings ctx.types ctx.layout entry = .ok setting.program)
    (limit depth : Nat) :
    (runAt source ctx top setting limit depth).Good source ctx := by
  refine ⟨?_, Nat.min_le_right .., fun b free => h.chunk?_builtin hp free⟩
  induction depth with
  | zero =>
    rw [runAt, Nat.zero_min]
    exact calls_unfinished _
  | succ depth ih =>
    have good : (runAt source ctx top setting limit depth).Good source ctx :=
      ⟨ih, Nat.min_le_right .., fun b free => h.chunk?_builtin hp free⟩
    rintro label r f routine function σ s args n related typed linked kinds
    obtain ⟨c, mem, chunk, named, frame⟩ := h.chunk?_routine hp routine
    obtain ⟨Γ, site, x, params, result, body, code, hi, declared, laid, hbody, agrees⟩ :=
      (agrees_of_lowered h hp).1 c mem
    have facts := h.decl_facts declared
    obtain ⟨ps, τ, type, atomic, has, -⟩ := facts.2.2.2.1
    -- the label leads to the chunk of this very function
    have own : (contextOf source ctx).routine label ⟨Decl.level site params body, Γ, τ.leaf⟩ :=
      ⟨site, x, params, result, body, c.frame, ps, τ, declared, rfl, laid, named, type, rfl⟩
    obtain rfl := h.routine_unique routine own
    obtain rfl : site.id = f := Option.some.inj function
    have value := (agrees _ good).has has (Ty.isData_of_isAtomic atomic)
    rw [Ty.kind_of_isAtomic atomic] at value
    have scope : source.Scope (Decl.level site params body :: Γ) :=
      .function facts.2.2.2.2.2.1 declared
    have code : setting.program.chunk? label = some ⟨c.frame, .move (.temp Temp.rv) code⟩ := by
      rw [chunk, ← hbody]
    have called :=
      simulates_call code (frame ▸ h.recorded scope) (congrArg Frame.label frame) value related
      typed linked kinds n
    refine .congr ?_ (called.less (by simp only [runAt]; omega))
    simp only [runAt, call, function?_eq h declared]
    rfl

end

/-! ## Calls from outside -/

/-- A run that comes to a limit of the machine. -/
def Overruns {β : Type} (setting : Setting) (y : Nat → EStateM (Halt Crash) Machine β)
    (machine : Machine) : Prop :=
  ∃ h function last, Exhausted setting h ∧ Ends y machine (.error (h.blame function) last)

/-- A run ends as the source does. A fault is blamed on the function of the running activation, and
the output is the same. If the source needs more fuel than it has, so does the run with fuel up to
`bound`. -/
inductive EndsAs (layout : Layout) (bound : Nat) {α β : Type}
    (y : Nat → EStateM (Halt Crash) Machine β) (machine : Machine)
    (post : α → Store → β → Machine → Prop) : EStateM.Result Stop Store α → Prop
  | ok {a : α} {σ : Store} {b : β} {last : Machine} (ends : Ends y machine (.ok b last))
      (holds : post a σ b last) :
    EndsAs layout bound y machine post (.ok a σ)
  | fault {f : Fault} {σ : Store} {act : Activation} {last : Machine}
      (running : σ.stack.getLast? = some act)
      (ends : Ends y machine (.error (.fault ⟨(frameOf layout act.level).label, f⟩) last))
        (host : last.host = σ.host) :
    EndsAs layout bound y machine post (.error (.fault f) σ)
  | unfinished {σ : Store} (longer : ∀ n ≤ bound, Unfinished (y n machine)) :
    EndsAs layout bound y machine post (.error .unfinished σ)

theorem EndsAs.bind {layout : Layout} {bound : Nat} {α β γ δ : Type}
    {y : Nat → EStateM (Halt Crash) Machine β} {g : β → Nat → EStateM (Halt Crash) Machine δ}
    {post : α → Store → β → Machine → Prop} {last : γ → Store → δ → Machine → Prop} {x : RunM α}
    {f : α → RunM γ} {σ : Store}
    (h : Overruns setting y machine ∨ EndsAs layout bound y machine post (x σ))
    (next : ∀ a σ' b m, post a σ' b m → Overruns setting (g b) m ∨
      EndsAs layout bound (g b) m last (f a σ')) :
    Overruns setting (fun n => y n >>= fun b => g b n) machine ∨
      EndsAs layout bound (fun n => y n >>= fun b => g b n) machine last ((x >>= f) σ) := by
  rcases h with ⟨h, function, m, limit, ends⟩ | h
  · exact .inl ⟨h, function, m, limit, ends.bind_error⟩
  rw [bind_apply]
  generalize x σ = r at h
  cases h with
  | fault running ends host => exact .inr (.fault running ends.bind_error host)
  | unfinished longer =>
    refine .inr (.unfinished fun n hn => ?_)
    obtain ⟨m, more⟩ := longer n hn
    exact ⟨m, by simp only [bind_apply, more]⟩
  | ok ends holds =>
    rcases next _ _ _ _ holds with ⟨h, function, m, limit, rest⟩ | rest
    · exact .inl ⟨h, function, m, limit, ends.bind rest⟩
    dsimp only
    generalize f _ _ = r at rest
    cases rest with
    | ok rest holds => exact .inr (.ok (ends.bind rest) holds)
    | fault running rest host => exact .inr (.fault running (ends.bind rest) host)
    | unfinished longer =>
      refine .inr (.unfinished fun n hn => ?_)
      simp only [bind_apply]
      rcases ends.before n with ended | ⟨m, more⟩
      · simp only [ended]
        exact longer n hn
      · exact ⟨m, by simp only [more]⟩

/-- What a call from outside makes of the end of a call. -/
def blamed (label : String) :
    EStateM.Result (Halt Fault) State Value → EStateM.Result (Halt Crash) Machine Value
  | .ok v s => .ok v s.machine
  | .error h s => .error (h.blame (s.calls.headD label)) s.machine

section

variable {machine : Machine}

variable {setting : Setting} {label : String}
  (noParams : (setting.program.chunk? label).elim 0 (fun c => c.frame.parameterCount) = 0)

include noParams

theorem invoke_eq (fuel : Nat) (machine : Machine) : Nested.invoke setting fuel label machine =
    blamed label (Nested.call setting fuel label [.zero] { machine }) := by
  simp only [Nested.invoke, noParams, zeroArguments_none]
  cases Nested.call setting fuel label [.zero] { machine } <;> rfl

theorem unfinished_invoke {fuel : Nat}
    (h : Unfinished (Nested.call setting fuel label [.zero] { machine })) :
    Unfinished (Nested.invoke setting fuel label machine) := by
  obtain ⟨s, more⟩ := h
  exact ⟨s.machine, by rw [invoke_eq noParams, more]; rfl⟩

theorem Ends.invoke {r : EStateM.Result (Halt Fault) State Value}
    (h : Ends (fun n => Nested.call setting n label [.zero]) { machine } r) :
    Ends (fun n => Nested.invoke setting n label) machine (blamed label r) := by
  obtain ⟨N, eventually⟩ := h.eventually
  constructor
  · exact ⟨N, fun n hn => by rw [invoke_eq noParams, eventually n hn]⟩
  · intro n
    rcases h.before n with ended | more
    · exact .inl (by rw [invoke_eq noParams, ended])
    · exact .inr (unfinished_invoke noParams more)

end

/-- A call that does what the source does, from outside. -/
theorem Simulates.invoke {source : Source} {ctx : Lowering.Context} {top : Int} {bound : Nat}
    {α : Type} {x : RunM α} {label : String} {post : α → Store → Value → State → Prop}
    {last : α → Store → Value → Machine → Prop} {σ : Store}
    (noParams : (setting.program.chunk? label).elim 0 (fun c => c.frame.parameterCount) = 0)
    (h : Simulates (worldOf source ctx top setting) bound x
      (fun n => Nested.call setting n label [.zero]) post σ { machine })
    (outside : ∀ a σ' v s, post a σ' v s → last a σ' v s.machine) :
    Overruns setting (fun n => Nested.invoke setting n label) machine ∨
      EndsAs ctx.layout bound (fun n => Nested.invoke setting n label) machine last (x σ) := by
  cases h with
  | ok hx ends holds =>
    rw [hx]
    exact .inr (.ok (ends.invoke noParams) (outside _ _ _ _ holds))
  | exhausted limit ends => exact .inl ⟨_, _, _, limit, ends.invoke noParams⟩
  | unfinished hx longer =>
    rw [hx]
    exact .inr (.unfinished fun n hn => unfinished_invoke noParams (longer n hn))
  | @fault f σ' s' hx ends runs =>
    rw [hx]
    obtain ⟨front, act, stack⟩ : ∃ front act, σ'.stack = front ++ [act] :=
      ⟨_, _, (List.dropLast_append_getLast runs.running).symm⟩
    have calls : s'.calls.headD label = (frameOf ctx.layout act.level).label := by
      simp [runs.calls, stack]
    have ends := ends.invoke noParams
    rw [blamed, calls] at ends
    exact .inr (.fault (by simp [stack]) ends runs.host)

/-! ## Runs -/

section

variable {params : List Decl} {C : LinearProgram}

variable {source : Source} {ctx : Lowering.Context} {t : Layout.Tables}
  {sort : NodeId → Syntax.NodeSort}
  {entry : String} {setting : Setting} {top : Int} {σ : Store} {machine : Machine} {site : Site}
  {result : Syntax.TypeExpr} {body : Syntax.Expr}

/-- Between calls from outside, the machine holds a store without activations. -/
structure Idle (W : World) (σ : Store) (machine : Machine) : Prop where
  related : W.Relates σ { machine }
  typed : Typed W.storage True σ
  empty : σ.stack = []

theorem Idle.after {W : World} (h : Idle W σ machine) {lo hi : Nat} {σ' : Store} {s : State}
    (stays : Stays W lo hi σ { machine } σ' s) : Idle W σ' s.machine := by
  have empty : σ'.stack = [] := stays.stack.trans h.empty
  refine ⟨⟨stays.related.memory, stays.related.host, ?_⟩, stays.typed, empty⟩
  simp [empty]

/-- The initializers of the globals. -/
theorem initializers_end (h : Analysed source ctx t sort)
    (hp : source.lower ctx.bindings ctx.types ctx.layout entry = .ok setting.program)
    (idle : Idle (worldOf source ctx top setting) σ machine) (fuel : Nat) :
    Overruns setting (fun n => Nested.invoke setting n Frame.initLabel) machine ∨
      EndsAs ctx.layout fuel (fun n => Nested.invoke setting n Frame.initLabel) machine
        (fun _ σ' _ m => Idle (worldOf source ctx top setting) σ' m)
        ((enter source.init none [] >>= fun _ =>
          decls (tables source ctx) (call (tables source ctx) fuel fuel) fuel
            (source.definitions.filter Decl.isVar) >>= fun _ => leave >>= fun _ => pure ()) σ) := by
  obtain ⟨-, inits, hi, init, executes⟩ := agrees_of_lowered h hp
  have executes := executes _ (good_runAt h top hp fuel fuel)
  have record := h.recorded .init
  have chunk : setting.program.chunk? Frame.initLabel = some ⟨ctx.layout.init, .seq inits⟩ := by
    rw [h.chunk?_init hp, init]
  have noParams : (setting.program.chunk? Frame.initLabel).elim 0
      (fun c => c.frame.parameterCount) = 0 := by
    rw [chunk]
    exact record.count
  have linked : Linked σ.stack none [] := trivial
  have called :=
    simulates_activation (W := worldOf source ctx top setting) chunk record rfl (fun _ _ => True)
    (fun σ₁ s₁ ready =>
      ((executes.simulates ready).sequence (flattenList_eq_self executes.flat)).imp
      fun _ σ' _ s' ⟨next, stays⟩ => ⟨next, stays.related, stays.typed, stays.stack, trivial⟩)
    idle.related idle.typed linked .nil 0
  have bound : fuel ≤ (runAt source ctx top setting fuel fuel).bound + 1 := by simp [runAt]
  exact (called.less bound).invoke noParams fun _ σ' _ s' ⟨stays, _⟩ => idle.after stays

theorem routine_of_definition (h : Analysed source ctx t sort)
    (definition : .function site entry params result body ∈ source.definitions) :
    source.Scope [Decl.level site params body] ∧
      ∃ k, (contextOf source ctx).routine entry ⟨Decl.level site params body, [], k⟩ := by
  have declared : ([], Decl.function site entry params result body) ∈ source.declarations :=
    List.mem_flatMap.2 ⟨_, definition, Decl.mem_declarations _ _⟩
  have facts := h.decl_facts declared
  obtain ⟨frame, laid, of⟩ := facts.2.2.2.2.1
  obtain ⟨ps, τ, typed, -⟩ := facts.2.2.2.1
  rw [h.describes.frame] at laid
  refine ⟨.function facts.2.2.2.2.2.1 declared, τ.leaf, ?_⟩
  exact ⟨site, entry, params, result, body, frame, ps, τ, declared, rfl, laid, of.label, typed, rfl⟩

/-- The entry is the one function of the top level with its name. -/
theorem main?_eq (h : Analysed source ctx t sort)
    (definition : .function site entry params result body ∈ source.definitions) :
    (tables source ctx).main? entry = some site.id := by
  have found : ((tables source ctx).main? entry).isSome = true :=
    List.findSome?_isSome_iff.2 ⟨_, definition, by simp⟩
  obtain ⟨f, main⟩ := Option.isSome_iff_exists.1 found
  obtain ⟨d, hd, own⟩ := List.exists_of_findSome?_eq_some main
  split at own
  · split at own
    · next same =>
      subst same
      obtain rfl := Option.some.inj own
      obtain ⟨-, k, routine⟩ := routine_of_definition h definition
      obtain ⟨-, k', routine'⟩ := routine_of_definition h hd
      have level := congrArg Routine.level (h.routine_unique routine routine')
      rw [main]
      exact (congrArg Level.function level).symm
    · cases own
  · cases own

/-- The call of the entry. -/
theorem entry_ends (h : Analysed source ctx t sort)
    (hp : source.lower ctx.bindings ctx.types ctx.layout entry = .ok setting.program)
    (definition : .function site entry [] result body ∈ source.definitions)
    (idle : Idle (worldOf source ctx top setting) σ machine) (fuel : Nat) :
    Overruns setting (fun n => Nested.invoke setting n entry) machine ∨
      EndsAs ctx.layout fuel (fun n => Nested.invoke setting n entry) machine
        (fun d σ' v m => d = .word v ∧ m.host = σ'.host)
        (call (tables source ctx) fuel fuel site.id [] σ) := by
  obtain ⟨scope, k, routine⟩ := routine_of_definition h definition
  obtain ⟨c, -, chunk, -, framed⟩ := h.chunk?_routine hp routine
  have noParams : (setting.program.chunk? entry).elim 0 (fun c => c.frame.parameterCount) = 0 := by
    rw [chunk, Option.elim_some, framed]
    exact (h.recorded scope).count
  have calls :=
    (good_runAt h top hp fuel fuel).calls routine rfl (n := 0) idle.related idle.typed trivial .nil
  have bound : fuel ≤ (runAt source ctx top setting fuel fuel).bound := by simp [runAt]
  apply (calls.less bound).invoke noParams
  rintro d σ' _ s' ⟨stays, rfl, kind⟩
  obtain ⟨w, rfl, -⟩ := kind.word
  exact ⟨rfl, stays.related.host⟩

/-- Reserves static data. -/
def reserve (globals : List Global) : EStateM (Halt Crash) Machine Unit := fun machine =>
  match Machine.onMemory (Memory.allocateGlobals globals) machine with
  | .ok () machine => .ok () machine
  | .error h machine => .error (h.blame Frame.initLabel) machine

theorem run_eq (setting : Setting) (n : Nat) : Nested.run setting n =
    reserve setting.program.globals >>= fun _ =>
    Nested.invoke setting n Frame.initLabel >>= fun _ =>
      Nested.invoke setting n setting.program.entry >>= fun value =>
        get >>= fun m => pure { value, steps := m.steps } := rfl

/-- Reserving static data is nothing to the source: its globals are all zero. -/
theorem reserve_ends {K : Kinds.Context} {frame : Level → Frame} {init : Level}
    (sound : Sound K frame init C) {W : World} (context : W.context = K) {words : Nat}
    (top : W.top = words * Word.bytes) (small : words ≤ Word.blockLimit) (sink : Sink)
    (layout : Layout) (fuel : Nat) :
    Overruns W.setting (fun _ => reserve C.globals) (.create words sink) ∨
      EndsAs layout fuel (fun _ => reserve C.globals) (.create words sink)
        (fun _ σ _ m => σ = { host := { sink } } ∧ Idle W σ m)
        ((pure () : RunM Unit) { host := { sink } }) := by
  subst context
  have fits := Word.fits_of_le_blockLimit small
  have typed := typed_start sound (fun _ => trivial) { sink }
  have ends := Ends.const (reserve C.globals) (.create words sink)
  simp only [reserve, Machine.onMemory, Machine.create] at ends
  rcases allocate_alike sound (Nat.le_refl words) fits fits { sink } with
    ⟨a, b, m, full⟩ | ⟨o, m, -, refused, -⟩ | ⟨m, -, ok, -, here, -⟩
  · rw [full] at ends
    exact .inl ⟨_, _, _, .data a b, ends⟩
  · rw [refused] at ends
    exact .inl ⟨_, _, _, .size o, ends⟩
  · rw [ok] at ends
    exact .inr (.ok ends ⟨rfl, ⟨top ▸ here, rfl, rfl⟩, typed, rfl⟩)

/-- A run of a program. -/
theorem run_ends (h : Analysed source ctx t sort)
    (hp : source.lower ctx.bindings ctx.types ctx.layout entry = .ok setting.program)
    (definition : .function site entry [] result body ∈ source.definitions)
    (sound : Sound (contextOf source ctx) (frameOf ctx.layout) source.init C)
    (data : setting.program.globals = C.globals) {words : Nat} (small : words ≤ Word.blockLimit)
    (sink : Sink) (fuel : Nat) :
    Overruns setting (Nested.run setting) (.create words sink) ∨
      EndsAs ctx.layout fuel (Nested.run setting) (.create words sink)
        (fun d σ outcome m => d = .word outcome.value ∧ m.host = σ.host)
        (Meaning.run (tables source ctx) entry fuel { host := { sink } }) := by
  have parts : Meaning.run (tables source ctx) entry fuel = pure () >>= fun _ =>
    (enter source.init none [] >>= fun _ =>
        decls (tables source ctx) (call (tables source ctx) fuel fuel) fuel
          (source.definitions.filter Decl.isVar) >>=
          fun _ => leave >>= fun _ => pure ()) >>= fun _ =>
            call (tables source ctx) fuel fuel site.id [] >>= pure := by
    simp only [Meaning.run, main?_eq h definition, bind_assoc, pure_bind, bind_pure]
  rw [funext (run_eq setting), parts, data, (h.lowered hp).2.2.2.2]
  apply EndsAs.bind
    (reserve_ends (W := worldOf source ctx (words * Word.bytes) setting) sound rfl rfl small
    sink _ fuel)
  rintro _ _ _ m ⟨rfl, idle⟩
  apply EndsAs.bind (initializers_end h hp idle fuel)
  intro _ σ' _ m idle
  apply EndsAs.bind (entry_ends h hp definition idle fuel)
  intro d σ'' v m' holds
  exact .inr (.ok (.const _ m') holds)

end

end PinsBackend.Meaning

namespace PinsBackend

open Ir Kinds Meaning

/-- **Lowering keeps the meaning of programs.** Unless the machine comes to one of its limits, a run
of the tree code ends as the program does, for every amount of fuel that the program is given: with
the same value and the same output, with the same fault in the same function after the same output,
or not before the program. -/
theorem lowering_preserves_meaning {parsed : Parsed} {options : Options} {comp : Compilation}
    {C : LinearProgram} (program : Compiled parsed options comp C) {layout : Layout}
    (laid : comp.layout = some layout) {P : TreeProgram} (code : comp.tree = some P) {words : Nat}
    {sink : Sink} {machine : Machine} (start : Machine.start words sink = .ok machine)
    (maxCallDepth : Nat) (budget : Option Nat) :
    Overruns ⟨P, maxCallDepth, budget⟩ (Nested.run ⟨P, maxCallDepth, budget⟩) machine ∨
    ∀ fuel, EndsAs layout fuel (Nested.run ⟨P, maxCallDepth, budget⟩) machine
      (fun d σ outcome last => d = .word outcome.value ∧ last.host = σ.host)
      (Meaning.run ⟨parsed.arena.source, parsed.arena.source.resolve.bindings,
        (parsed.arena.source.check parsed.arena.source.resolve.bindings).types⟩ options.entry fuel
        { host := { sink } }) := by
  obtain ⟨layout', P', laid', code', accepted⟩ :=
    accepted_with_layout program.compiled program.linear
  obtain rfl : layout = layout' := Option.some.inj (laid.symm.trans laid')
  obtain rfl : P = P' := Option.some.inj (code.symm.trans code')
  obtain ⟨t, analysed⟩ := analysed_of_accepted program.tree accepted
  have sound := sound_of_accepted accepted analysed
  obtain ⟨small, rfl⟩ := Machine.start_eq_ok.1 start
  obtain ⟨site, result, body, definition⟩ := program.entry.definition
  have data : P.globals = C.globals := (TreeProgram.canonical_globals accepted.canonical).1.symm
  let setting : Nested.Setting := ⟨P, maxCallDepth, budget⟩
  have lowered : parsed.arena.source.lower _ _ layout options.entry = .ok setting.program :=
    accepted.lowered
  have each := run_ends analysed lowered definition sound data small sink
  by_cases overruns : Overruns ⟨P, maxCallDepth, budget⟩ (Nested.run ⟨P, maxCallDepth, budget⟩)
    (.create words sink)
  · exact .inl overruns
  · exact .inr fun fuel => (each fuel).resolve_left overruns

/-- The array that `main` changes is the one that `f` reads. -/
theorem lowering_preserves_meaning_bumpElement :
    ∃ comp C layout P machine last, Compiled bumpElement {} comp C ∧ comp.layout = some layout ∧
      comp.tree = some P ∧
      Machine.start 16 {} = .ok machine ∧
      value? (Meaning.run ⟨bumpElement.arena.source, bumpElement.arena.source.resolve.bindings,
        (bumpElement.arena.source.check bumpElement.arena.source.resolve.bindings).types⟩
        "main" 2 {}) =
          some (.word (.int 6)) ∧
      Ends (Nested.run ⟨P, 2, none⟩) machine (.ok ⟨.int 6, 6⟩ last) := by
  have checked : bumpElement.arena.IsTree ∧ (∃ code ∈ bumpElement.code? {},
      value? (Nested.run ⟨code.1, 2, none⟩ 60 (Machine.create 16 {})) = some ⟨.int 6, 6⟩) ∧
      value? (Meaning.run ⟨bumpElement.arena.source, bumpElement.arena.source.resolve.bindings,
        (bumpElement.arena.source.check bumpElement.arena.source.resolve.bindings).types⟩
        "main" 2 {}) =
          some (.word (.int 6)) := by
    decide +kernel
  obtain ⟨tree, ⟨⟨P, C⟩, found, value⟩, meaning⟩ := checked
  obtain ⟨comp, compiled, code, linear⟩ := code?_eq_some found
  obtain ⟨layout, -, laid, -⟩ := accepted_with_layout compiled linear
  have program : Compiled bumpElement {} comp C :=
    ⟨tree, ⟨23, by decide, 22, 21, rfl⟩, compiled, linear⟩
  have start : Machine.start 16 {} = .ok (.create 16 {}) := Machine.start_eq_ok.2 ⟨by decide, rfl⟩
  obtain ⟨last, run⟩ := value?_eq_some value
  -- a run that ends otherwise does not end with a value after sixty units of fuel
  have only {r} (ends : Ends (Nested.run ⟨P, 2, none⟩) (.create 16 {}) r) : r =
      .ok ⟨.int 6, 6⟩ last := by
    rcases ends.before 60 with ended | ⟨s, more⟩
    · rw [← ended, run]
    · cases run.symm.trans more
  refine ⟨comp, C, layout, P, _, last, program, laid, code, start, meaning, ?_⟩
  obtain ⟨σ, meaning⟩ := value?_eq_some meaning
  rcases lowering_preserves_meaning program laid code start 2 none with
    ⟨h, function, m, -, ends⟩ | same
  · cases only ends
  · have same := same 2
    rw [meaning] at same
    cases same with
    | ok ends holds => exact only ends ▸ ends

end PinsBackend
