import PinsBackend.Proofs.Canonical.Skeleton
import PinsBackend.Proofs.Kinds.Compiled
import PinsBackend.Proofs.Lowering.Success
import PinsBackend.Proofs.Names.Free
import PinsBackend.Proofs.Typing.Decision

/-! Programs without diagnostics.

If a program without placeholders has neither name nor type errors, then no later stage finds
anything wrong with it: it gets a layout, tree code and linear code, unless sizes or temporaries
cannot be counted. -/
namespace PinsBackend

open Ir

/-! ## What the first stages leave -/

namespace Arena

variable {a : Arena}

/-- What a well-typed program assigns can be assigned. -/
theorem source_assignable (tree : a.IsTree) {B : NodeTable Binding} {T : NodeId → Ty}
    (typed : Assignment.WellTyped a B T) : a.source.Everywhere Syntax.assignable := by
  -- a tree of a place has the form of the node, for it has a level at least
  have target {n : Nat} {id : NodeId} (ready : a.Ready n .expr id)
      (place : Assignment.IsPlace a id) : (a.exprTree n id).isTarget = true := by
    cases n with
    | zero => exact (ready.not_zero tree).elim
    | succ n =>
      rcases place with ⟨x, he⟩ | ⟨l, r, he⟩
      · simp [exprTree, he, Syntax.Expr.isTarget]
      · simp [exprTree, he, Syntax.Expr.isTarget]
  refine source_everywhere tree (fun Γ n id ready => ?_) fun _ _ _ _ _ => trivial
  rw [exprTree]
  cases he : a.expr? id with
  | none => trivial
  | some e =>
    obtain ⟨position, hnode⟩ := node?_of_expr? he
    have rule := typed.rules ready.deep.reached hnode
    cases e with
    | assign t v =>
      exact target (ready.child tree hnode (p := (.expr, t)) (by simp)) rule.1
    | forDo c lo hi st b =>
      exact target (ready.child tree hnode (p := (.expr, c)) (by simp)) (.inl rule.1)
    | ifThen c t e => cases e <;> trivial
    | _ => trivial

/-- The names that the trees of the top level declare are those of its nodes. -/
theorem name_of_mem_namesOf {x : String} (h : x ∈ Layout.namesOf a.source.definitions) :
    ∃ id ∈ a.definitions, ∃ d, a.decl? id = some d ∧ d.name = x := by
  obtain ⟨⟨kind, _⟩, mem, rfl⟩ := List.mem_map.1 h
  obtain ⟨tree, mem, declared⟩ := List.mem_filterMap.1 mem
  obtain ⟨id, hid, rfl⟩ := List.mem_map.1 mem
  refine ⟨id, hid, ?_⟩
  cases size : a.nodes.size with
  | zero =>
    rw [size, declTree] at declared
    cases declared
  | succ n =>
    rw [size, declTree] at declared
    cases hd : a.decl? id with
    | none =>
      rw [hd] at declared
      cases declared
    | some d =>
      rw [hd] at declared
      cases d <;> cases declared <;> exact ⟨_, rfl, rfl⟩

end Arena

/-! ## Moves of lowered code -/

namespace Kinds

variable {ctx : Lowering.Context} {t : Layout.Tables} {entry : String}

/-- The destinations of the moves in a piece of code. -/
def Task.destinations : Task → List Expr
  | .value _ e _ => e.destinations
  | .stmt _ _ s _ => s.destinations
  | .run _ _ ss _ => Stmt.destinationsList ss

theorem destinations_frameAt (hops : Nat) : (Lowering.frameAt hops).destinations = [] := by
  induction hops with
  | zero => rfl
  | succ hops ih => rw [Lowering.frameAt, Expr.destinations, ih]

theorem destinationsList_temps (ts : List Temp) : Expr.destinationsList (ts.map .temp) = [] := by
  induction ts with
  | nil => rfl
  | cons t ts ih =>
    rw [List.map_cons, Expr.destinationsList, ih, Expr.destinations, List.nil_append]

theorem LinkTo.destinations {Γ outer : Syntax.Env} {link : Expr} (h : LinkTo Γ outer link) :
    link.destinations = [] := by
  rcases h with ⟨-, rfl⟩ | ⟨hops, -, -, rfl⟩
  · rfl
  · exact destinations_frameAt hops

/-- Code that has kinds moves to locations only. -/
theorem Kinded.located {K : Context} {Γ : Syntax.Env} {κ : Temp → Option Kind} {task : Task}
    (h : Kinded K Γ κ task) : Canonical.Located task.destinations := by
  induction h with
  | int | str | temp | global => simp [Task.destinations, Expr.destinations]
  | slot => simp [Task.destinations, Expr.destinations, Expr.int, destinations_frameAt]
  | load _ _ ih => exact ih
  | element _ _ _ _ _ ihb ihi =>
    simp only [Task.destinations] at ihb ihi
    simp [Task.destinations, Lowering.elementExpr, Expr.destinations, Expr.int, ihb, ihi]
  | arithmetic _ _ _ ihl ihr | comparison _ _ _ ihl ihr =>
    simp only [Task.destinations] at ihl ihr
    simp [Task.destinations, Expr.destinations, ihl, ihr]
  | builtin =>
    simp [Task.destinations, Expr.destinations, Expr.destinationsList, Expr.int,
      destinationsList_temps]
  | call _ linked _ =>
    simp [Task.destinations, Expr.destinations, Expr.destinationsList, linked.destinations,
      destinationsList_temps]
  | eseq _ _ _ ihs ihv =>
    simp only [Task.destinations] at ihs ihv
    simp [Task.destinations, Expr.destinations, Stmt.destinations, ihs, ihv]
  | assign _ _ _ ih =>
    simp only [Task.destinations] at ih
    simp [Task.destinations, Stmt.destinations, Expr.destinations, Expr.isLocation, ih]
  | store _ _ _ iha ihv =>
    simp only [Task.destinations] at iha ihv
    simp [Task.destinations, Stmt.destinations, Expr.destinations, Expr.isLocation, iha, ihv]
  | eval _ ih => exact ih
  | cjump _ _ _ _ _ ih => exact ih
  | jump | label | nil => simp [Task.destinations, Stmt.destinations, Stmt.destinationsList]
  | cons _ _ ihs ihss =>
    simp only [Task.destinations] at ihs ihss
    simp [Task.destinations, Stmt.destinationsList, ihs, ihss]

open Syntax in
/-- Lowering an analysed program fails only if its sizes cannot be counted. -/
theorem Analysed.lower_eq_error {source : Source} {sort : NodeId → NodeSort}
    (h : Analysed source ctx t sort) (targets : source.Everywhere assignable) {e : IrError}
    (failed : source.lower ctx.bindings ctx.types ctx.layout entry = .error e) :
    ∃ o, e = .overflow o ∧ ¬ source.Fits ctx.types := by
  have top {Γ : Env} (keep : Decl → Bool) (env : ∀ d, keep d = true → source.envOf d = Γ)
      (var : ∀ d, keep d = true → d.isVar = true → Γ.length = 1) :
      Lowering.Settles (source.Fits ctx.types)
        (Lowering.decls ctx ctx.layout.init.depth (source.definitions.filter keep)) := by
    obtain ⟨facts, own⟩ := h.stands_top keep env var
    refine decls_settles h _ facts (Decl.everywhereList_iff.2 fun d hd => ?_) own
    obtain ⟨mem, hk⟩ := List.mem_filter.1 hd
    exact env d hk ▸ targets d mem
  have settles : Lowering.Settles (source.Fits ctx.types)
      (Lowering.program ctx source.definitions entry) := by
    refine .bind (top (Γ := [source.init]) Decl.isVar (fun d hd => if_pos hd) fun _ _ _ => rfl)
      fun _ =>
      .bind (top (Γ := []) Decl.isFunction (fun d hd => if_neg ?_) fun d hd isVar => ?_) fun _ =>
        .bind .get fun _ => .pure _
    · simp [Decl.isVar_of_isFunction hd]
    · simp [Decl.isVar_of_isFunction hd] at isVar
  have same : (⟨source.signatures, ctx.bindings, ctx.types, ctx.layout⟩ : Lowering.Context) =
      ctx := by
    rw [← h.signatures]
  simp only [Source.lower, same] at failed
  split at failed
  · cases failed
  · next stopped =>
    cases failed
    exact settles.fails stopped

/-- All moves of lowered code go to locations. -/
theorem Analysed.located {source : Syntax.Source} {sort : NodeId → Syntax.NodeSort}
    (h : Analysed source ctx t sort) {P : TreeProgram}
    (lowered : source.lower ctx.bindings ctx.types ctx.layout entry = .ok P) :
    ∀ c ∈ P.init :: P.chunks, Canonical.Located c.body.destinations := by
  obtain ⟨⟨κ, inits, init, -, leaves, -⟩, chunks, -⟩ := h.lowered lowered
  refine List.forall_mem_cons.2 ⟨?_, fun c hc => ?_⟩
  · rw [init]
    exact (leaves ∅).located
  · obtain ⟨⟨r, κ, e, -, -, -, body, -, -, value, -⟩, -⟩ := chunks c hc
    rw [body, Stmt.destinations]
    have inner : Canonical.Located e.destinations := (value ∅).located
    simpa [Expr.destinations, Expr.isLocation] using inner

end Kinds

/-! ## Linear code -/

namespace Ir

variable {e : IrError} {P : TreeProgram}

/-- There are temporaries enough to split the chunk. -/
def Chunk.HasRoom (c : Chunk Stmt) : Prop :=
  ∃ n, Temp.firstFree ≤ n ∧ c.body.effects.Below n ∧ n + c.body.slots ≤ Temp.last

theorem mapM_canonical_eq_error {cs : List (Chunk Stmt)} (h : cs.mapM Chunk.canonical = .error e) :
    ∃ c ∈ cs, c.canonical = .error e := by
  induction cs with
  | nil => cases h
  | cons c cs ih =>
    rw [List.mapM_cons] at h
    rcases except_bind_eq_error.1 h with h | ⟨_, -, h⟩
    · exact ⟨c, List.mem_cons_self, h⟩
    · rcases except_bind_eq_error.1 h with h | ⟨_, -, h⟩
      · obtain ⟨c', hc', failed⟩ := ih h
        exact ⟨c', List.mem_cons_of_mem _ hc', failed⟩
      · cases h

/-- A program that cannot be split has a chunk that cannot. -/
theorem TreeProgram.canonical_eq_error (h : P.canonical = .error e) :
    ∃ c ∈ P.init :: P.chunks, c.canonical = .error e := by
  unfold TreeProgram.canonical at h
  rcases except_bind_eq_error.1 h with h | ⟨_, -, h⟩
  · exact ⟨P.init, List.mem_cons_self, h⟩
  · rcases except_bind_eq_error.1 h with h | ⟨_, -, h⟩
    · obtain ⟨c, hc, failed⟩ := mapM_canonical_eq_error h
      exact ⟨c, List.mem_cons_of_mem _ hc, failed⟩
    · cases h

/-- Code whose moves go to locations is split, unless temporaries run out. -/
theorem TreeProgram.canonical_of_located
    (located : ∀ c ∈ P.init :: P.chunks, Canonical.Located c.body.destinations)
    (h : P.canonical = .error e) :
    (∃ o, e = .overflow o) ∧ ¬ ∀ c ∈ P.init :: P.chunks, c.HasRoom := by
  obtain ⟨c, hc, failed⟩ := canonical_eq_error h
  have failed := Chunk.canonical_eq_error.1 failed
  rcases Canonical.linearize_error failed with ⟨o, rfl⟩ | bad
  · refine ⟨⟨o, rfl⟩, fun room => ?_⟩
    obtain ⟨n, two, below, room⟩ := room c hc
    exact Canonical.linearize_no_overflow two below room o failed
  · exact absurd (located c hc) bad

end Ir

/-! ## The stages after the checks -/

/-- How a stage after the checks can end: it succeeds if everything can be counted, and otherwise
fails with an overflow at most. -/
def Succeeds {ε α : Type} (overflow : Overflow → ε) (countable : Prop) (x : Except ε α) : Prop :=
  (countable → ∃ a, x = .ok a) ∧ ∀ e, x = .error e → ∃ o, e = overflow o

theorem succeeds_of_error {ε α : Type} {overflow : Overflow → ε} {countable : Prop} {x : Except ε α}
    (h : ∀ e, x = .error e → (∃ o, e = overflow o) ∧ ¬ countable) :
    Succeeds overflow countable x := by
  refine ⟨fun fits => ?_, fun e failed => (h e failed).1⟩
  cases x with
  | ok a => exact ⟨a, rfl⟩
  | error e => exact absurd fits (h e rfl).2

namespace Compilation

variable {e : CompileError}

theorem finish_eq_error {ds : List Diagnostic} {c c' : Compilation}
    (h : finish ds c = .error e c') : e = .diagnostics ds := by
  unfold finish at h
  split at h
  · cases h
  · cases h
    rfl

theorem lift_eq_error {α ε : Type} {wrap : ε → CompileError} {x : Except ε α} {c c' : Compilation}
    (h : lift wrap x c = .error e c') : ∃ e', x = .error e' ∧ e = wrap e' := by
  unfold lift at h
  split at h
  · cases h
  · cases h
    exact ⟨_, rfl, rfl⟩

/-- Which stage stopped the compilation of a program without name and type errors. -/
theorem compile_eq_error {parsed : Parsed} {options : Options} {comp : Compilation}
    (named : parsed.arena.source.resolve.errors = [])
    (typed : (parsed.arena.source.check parsed.arena.source.resolve.bindings).errors = #[])
    (h : parsed.compile options = .error e comp) :
    let source := parsed.arena.source
    let bindings := source.resolve.bindings
    let types := (source.check bindings).types
    e = .diagnostics (parsed.errors.map .parse) ∨
      (∃ e', source.layout bindings types = .error e' ∧ e = .layout e') ∨
      ∃ layout, source.layout bindings types = .ok layout ∧
        ((∃ e', source.lower bindings types layout options.entry = .error e' ∧ e = .ir e') ∨
        ∃ P, source.lower bindings types layout options.entry = .ok P ∧
          ∃ e', P.canonical = .error e' ∧ e = .ir e') := by
  unfold Parsed.compile stages at h
  simp only [named, typed, List.map_nil, List.append_nil] at h
  split at h
  · exact .inl (finish_eq_error h)
  rcases bind_eq_error.1 h with h | ⟨_, _, -, h⟩
  · cases h
  split at h
  · exact .inl (finish_eq_error h)
  rcases bind_eq_error.1 h with h | ⟨_, _, -, h⟩
  · cases h
  rcases bind_eq_error.1 h with h | ⟨_, _, -, h⟩
  · exact .inl (finish_eq_error h)
  split at h
  · cases h
  rcases bind_eq_error.1 h with h | ⟨layout, _, laid, h⟩
  · exact .inr (.inl (lift_eq_error h))
  rcases bind_eq_error.1 h with h | ⟨_, _, -, h⟩
  · cases h
  refine .inr (.inr ⟨layout, (lift_eq_ok.1 laid).1, ?_⟩)
  split at h
  · cases h
  rcases bind_eq_error.1 h with h | ⟨P, _, lowered, h⟩
  · exact .inl (lift_eq_error h)
  rcases bind_eq_error.1 h with h | ⟨_, _, -, h⟩
  · cases h
  refine .inr ⟨P, (lift_eq_ok.1 lowered).1, ?_⟩
  split at h
  · cases h
  rcases bind_eq_error.1 h with h | ⟨_, _, -, h⟩
  · exact lift_eq_error h
  · cases h

end Compilation

section Clean

variable {layout : Layout}

variable {a : Arena} (tree : a.IsTree) (whole : ∀ id, a.Reached id → a.expr? id ≠ some .hole)
  (named : a.source.resolve.errors = [])
  (typed : (a.source.check a.source.resolve.bindings).errors = #[])

include tree whole named typed

theorem layout_succeeds
    (plain : ∀ id ∈ a.definitions, ∀ d, a.decl? id = some d → '.' ∉ d.name.toList) :
    Succeeds .overflow (a.source.Fits (a.source.check a.source.resolve.bindings).types)
      (a.source.layout a.source.resolve.bindings
        (a.source.check a.source.resolve.bindings).types) := by
  have nodup := Arena.source_ids_nodup tree
  have complete : a.source.Everywhere (Syntax.complete a.source.signatures) :=
    (Arena.source_good tree).1.left
  have bound := Arena.source_bound tree named
  have wellTyped := Arena.source_wellTyped tree whole named typed
  have facts := complete.and (bound.and (wellTyped.and (Syntax.Source.everywhere_listed complete)))
  have undotted : ∀ x ∈ Layout.namesOf a.source.definitions, '.' ∉ x.toList := by
    intro x hx
    obtain ⟨id, hid, d, hd, rfl⟩ := Arena.name_of_mem_namesOf hx
    exact plain id hid d hd
  refine succeeds_of_error fun e failed => ?_
  obtain ⟨o, rfl, large⟩ :=
    Syntax.Source.layout_eq_error facts nodup (Syntax.Source.names_nodup named)
    undotted (fun d hd => Lexical.free_globals tree hd) failed
  exact ⟨⟨o, rfl⟩, large⟩

theorem lower_succeeds
    (laid : a.source.layout a.source.resolve.bindings
      (a.source.check a.source.resolve.bindings).types = .ok layout) (entry : String) :
    Succeeds .overflow (a.source.Fits (a.source.check a.source.resolve.bindings).types)
      (a.source.lower a.source.resolve.bindings
        (a.source.check a.source.resolve.bindings).types layout
        entry) := by
  have shaped := tree.isTreeShaped
  have bound := Lexical.bound_of_clean shaped named
  have wellTyped := (Assignment.assigns_derived shaped bound typed).wellTyped shaped bound whole
  obtain ⟨t, analysed⟩ := Kinds.analysed_of_laid tree named typed laid
  refine succeeds_of_error fun e failed => ?_
  obtain ⟨o, rfl, large⟩ := analysed.lower_eq_error (Arena.source_assignable tree wellTyped) failed
  exact ⟨⟨o, rfl⟩, large⟩

omit whole in
theorem canonical_succeeds
    (laid : a.source.layout a.source.resolve.bindings
      (a.source.check a.source.resolve.bindings).types = .ok layout) {entry : String}
    {P : TreeProgram}
    (lowered : a.source.lower a.source.resolve.bindings
      (a.source.check a.source.resolve.bindings).types layout entry = .ok P) :
    Succeeds .overflow (∀ c ∈ P.init :: P.chunks, c.HasRoom) P.canonical := by
  obtain ⟨t, analysed⟩ := Kinds.analysed_of_laid tree named typed laid
  exact succeeds_of_error fun e failed =>
    TreeProgram.canonical_of_located (analysed.located lowered) failed

end Clean

/-- A program without placeholders, whose top level has no dots in its names and in which names and
types are right, gets a layout, tree code and linear code, unless a size or a temporary cannot be
counted. Nothing but that and what the parser found ends its compilation. -/
theorem clean_programs_have_code {parsed : Parsed} (tree : parsed.arena.IsTree)
    (whole : ∀ id, parsed.arena.Reached id → parsed.arena.expr? id ≠ some .hole)
    (plain : ∀ id ∈ parsed.arena.definitions, ∀ d, parsed.arena.decl? id = some d →
      '.' ∉ d.name.toList) (named : parsed.arena.source.resolve.errors = [])
    (typed : (parsed.arena.source.check parsed.arena.source.resolve.bindings).errors = #[])
    (options : Options) : let source :=
  parsed.arena.source
    let bindings := source.resolve.bindings
    let types := (source.check bindings).types
    Succeeds .overflow (source.Fits types) (source.layout bindings types) ∧
      (∀ layout, source.layout bindings types = .ok layout →
        Succeeds .overflow (source.Fits types) (source.lower bindings types layout options.entry) ∧
        ∀ P, source.lower bindings types layout options.entry = .ok P →
          Succeeds .overflow (∀ c ∈ P.init :: P.chunks, c.HasRoom) P.canonical) ∧
      ∀ e comp, parsed.compile options = .error e comp →
        e = .diagnostics (parsed.errors.map .parse) ∨
          ∃ o, e = .layout (.overflow o) ∨ e = .ir (.overflow o) := by
  intro source bindings types
  have layouts := layout_succeeds tree whole named typed plain
  refine ⟨layouts, fun layout laid =>
    ⟨lower_succeeds tree whole named typed laid _, fun P lowered =>
    canonical_succeeds tree named typed laid lowered⟩, fun e comp stopped => ?_⟩
  rcases Compilation.compile_eq_error named typed stopped with
    reported | ⟨e', failed, rfl⟩ | ⟨layout, laid, ⟨e', failed, rfl⟩ | ⟨P, lowered, e', failed, rfl⟩⟩
  · exact .inl reported
  · obtain ⟨o, rfl⟩ := layouts.2 e' failed
    exact .inr ⟨o, .inl rfl⟩
  · obtain ⟨o, rfl⟩ := (lower_succeeds tree whole named typed laid _).2 e' failed
    exact .inr ⟨o, .inr rfl⟩
  · obtain ⟨o, rfl⟩ := (canonical_succeeds tree named typed laid lowered).2 e' failed
    exact .inr ⟨o, .inr rfl⟩

theorem storeInPair_fits :
    let source := (Assignment.storeInPair (.integer 5)).source
    source.Fits (source.check source.resolve.bindings).types := by
  intro source
  refine ⟨fun {id τ} found => ?_, fun {l Γ} scope => ?_, fun {Γ} scope => ?_⟩
  · have sizes : ∀ p ∈ (source.check source.resolve.bindings).types.toList,
        Word.Fits (p.2.extent * Word.bytes) := by decide +kernel
    exact sizes (id, τ) (Std.TreeMap.mem_toList_iff_getElem?_eq_some.2 found)
  · have sizes : ∀ p ∈ source.declarations, ∀ l ∈ (p.2.inner p.1).head?,
        Word.Fits (l.bytes (source.check source.resolve.bindings).types) := by decide +kernel
    cases scope with
    | init => decide +kernel
    | function outer declared => exact sizes _ declared _ rfl
  · have depths : ∀ p ∈ source.declarations, p.1.length < 2 := by decide +kernel
    cases scope with
    | top | init => decide
    | function outer declared =>
      exact Nat.lt_trans (Nat.succ_lt_succ (depths _ declared)) (by decide)

theorem clean_programs_have_code_storeInPair :
    let a := Assignment.storeInPair (.integer 5)
    let types := (a.source.check a.source.resolve.bindings).types
    a.IsTree ∧ a.source.resolve.errors = [] ∧
    (∃ layout P C, a.source.layout a.source.resolve.bindings types = .ok layout ∧
      a.source.lower a.source.resolve.bindings types layout "main" = .ok P ∧
      P.canonical = .ok C) ∧
    ∀ e comp, Parsed.compile { arena := a } {} = .error e comp →
      e = .diagnostics [] ∨ ∃ o, e = .layout (.overflow o) ∨ e = .ir (.overflow o) := by
  intro a types
  have tree : a.IsTree := by decide +kernel
  have named : a.source.resolve.errors = [] := by decide +kernel
  have whole (id : NodeId) (_ : a.Reached id) : a.expr? id ≠ some .hole := by
    intro hole
    obtain ⟨position, hnode⟩ := Arena.node?_of_expr? hole
    have mem := Array.mem_of_getElem? hnode
    simp [a, Assignment.storeInPair] at mem
  have plain : ∀ id ∈ a.definitions, ∀ d, a.decl? id = some d → '.' ∉ d.name.toList := by
    intro id hid d hd
    simp only [a, Assignment.storeInPair, List.mem_cons, List.not_mem_nil, or_false] at hid
    rcases hid with rfl | rfl | rfl <;> cases hd <;> decide
  obtain ⟨layouts, stages, failures⟩ :=
    @clean_programs_have_code { arena := a } tree whole plain named (by decide +kernel) {}
  obtain ⟨layout, laid⟩ := layouts.1 storeInPair_fits
  obtain ⟨P, lowered⟩ := (stages layout laid).1.1 storeInPair_fits
  have rooms : ∀ c ∈ P.init :: P.chunks, c.HasRoom := by
    have checked : ∀ layout ∈ (a.source.layout a.source.resolve.bindings types).toOption,
        ∀ P ∈ (a.source.lower a.source.resolve.bindings types layout "main").toOption,
        ∀ c ∈ P.init :: P.chunks, ((∀ t ∈ c.body.effects.reads, t < 10) ∧
          ∀ t ∈ c.body.effects.writes, t < 10) ∧ 10 + c.body.slots ≤ Temp.last := by
      decide +kernel
    intro c hc
    obtain ⟨below, room⟩ := checked layout (by rw [laid]; rfl) P (by rw [lowered]; rfl) c hc
    exact ⟨10, by decide, below, room⟩
  obtain ⟨C, canonical⟩ := ((stages layout laid).2 P lowered).1 rooms
  exact ⟨tree, named, ⟨layout, P, C, laid, lowered, canonical⟩, failures⟩

end PinsBackend
