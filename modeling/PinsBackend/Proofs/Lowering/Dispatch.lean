import PinsBackend.Proofs.Canonical.FixedPoint
import PinsBackend.Proofs.Kinds.Linked
import PinsBackend.Proofs.Layout.Nesting

/-! Calls find what they are bound to.

Names are bound to declarations, but a machine finds a function by the label of its code, in one
table with the code of all other functions, the code that sets the globals and the built-ins. Every
chunk is the code of one function and no two functions share a label, so the table has what the name
was bound to. -/
namespace PinsBackend

open Ir
open Syntax (Env Level)

/-! ## The chunks of functions -/

namespace Kinds

variable {Γ : Env} {source : Syntax.Source} {ctx : Lowering.Context} {t : Layout.Tables}
  {sort : NodeId → Syntax.NodeSort} {entry : String} {P : TreeProgram}

/-- The label of a function finds the code of the function. -/
theorem Analysed.chunk?_function (h : Analysed source ctx t sort)
    (hp : source.lower ctx.bindings ctx.types ctx.layout entry = .ok P) {site : Syntax.Site}
    {f : String} {params : List Syntax.Decl} {result : Syntax.TypeExpr} {body : Syntax.Expr}
    (declared : (Γ, .function site f params result body) ∈ source.declarations) {frame : Frame}
    (laid : ctx.layout.frames.get? site.id = some frame) :
    ∃ c, P.chunk? frame.label = some c ∧ c.frame = frame ∧
      Lowering.IsCodeOf ctx c (.function site f params result body) := by
  obtain ⟨-, chunks, -⟩ := h.lowered hp
  obtain ⟨ps, τ, type, -⟩ := (h.decl_facts declared).2.2.2.1
  have routine : (contextOf source ctx).routine frame.label
    ⟨Syntax.Decl.level site params body, Γ, τ.leaf⟩ :=
    ⟨site, f, params, result, body, frame, ps, τ, declared, rfl, laid, rfl, type, rfl⟩
  obtain ⟨c, mem, found, label, own⟩ := h.chunk?_routine hp routine
  have own : c.frame = frame := by
    rw [own]
    simp [frameOf, Syntax.Decl.level, laid]
  refine ⟨c, found, own, ?_⟩
  -- the chunk is the code of some function, whose frame it has
  obtain ⟨⟨r, _, _, -, -, -, -, -, -, -, d, declared', code⟩, -⟩ := chunks c mem
  cases d with
  | function site' f' params' result' body' =>
    have laid' : ctx.layout.frames.get? site'.id = some frame := own ▸ code.1
    rw [← h.describes.frame] at laid laid'
    obtain ⟨-, same⟩ := h.declared_unique declared' declared (h.describes.labels laid' laid rfl)
    exact same ▸ code
  | _ => cases code

end Kinds

/-! ## Nodes -/

namespace Arena

/-- The code of a call node calls this label, wherever the node is lowered. -/
def CallsLabel (a : Arena) (ctx : Lowering.Context) (n : NodeId) (label : String) : Prop :=
  ∀ k depth s value s', Lowering.expr ctx depth (a.exprTree k n) s = .ok value s' →
    ∃ moves link temps, value = .after (.seq moves) (.call label (link :: temps))

/-- The chunk leaves the value of this node in `Temp.rv`. -/
def IsCode (a : Arena) (ctx : Lowering.Context) (b : NodeId) (c : Chunk Stmt) : Prop :=
  ∃ k s value s', Lowering.expr ctx c.frame.depth (a.exprTree k b) s = .ok value s' ∧
    c.body = .move (.temp Temp.rv) value

/-- A call that is bound to a function finds the chunk with the code of its body, and one that is
bound to a built-in finds no chunk but the built-in. -/
structure Dispatches (a : Arena) (ctx : Lowering.Context) {Body : Type} (p : Program Body)
    (code : NodeId → Chunk Body → Prop) : Prop where
  function : ∀ n x args f, a.Reached n → a.expr? n = some (.call x args) →
    ctx.bindings.get? n = some (.decl f) →
    ∃ name ps r b frame c, a.decl? f = some (.function name ps r b) ∧
      ctx.layout.frames.get? f = some frame ∧ a.CallsLabel ctx n frame.label ∧
      p.chunk? frame.label = some c ∧ c.frame = frame ∧ code b c
  builtin : ∀ n x args b, a.Reached n → a.expr? n = some (.call x args) →
    ctx.bindings.get? n = some (.builtin b) →
    a.CallsLabel ctx n b.name ∧ p.chunk? b.name = none ∧ Builtin.ofLabel? b.name = some b

variable {a : Arena} {ctx : Lowering.Context} {n : NodeId} {label : String}

theorem callsLabel_of_callee {x : String} {args : List NodeId}
    (node : a.expr? n = some (.call x args))
    (callee : ∀ {depth label' link}, Lowering.Callee ctx depth n label' link → label' = label) :
    a.CallsLabel ctx n label := by
  intro k depth s value s' lowered
  cases k with
  | zero => cases lowered
  | succ k =>
    simp only [exprTree, node] at lowered
    have lowers := Lowering.expr_lowers _ lowered
    cases lowers with
    | call called _ =>
      cases callee called
      exact ⟨_, _, _, rfl⟩

end Arena

section

open Kinds

variable {a : Arena} {ctx : Lowering.Context} {t : Layout.Tables} {sort : NodeId → Syntax.NodeSort}
  {entry : String} {P : TreeProgram}

/-- The label of a function node finds the code of the function. -/
theorem Kinds.Analysed.chunk?_node (h : Analysed a.source ctx t sort) (tree : a.IsTree)
    (hp : a.source.lower ctx.bindings ctx.types ctx.layout entry = .ok P) {f : NodeId}
    (reached : a.Reached f) {name : String} {ps : List NodeId} {r b : NodeId}
    (node : a.decl? f = some (.function name ps r b)) :
    ∃ frame c, ctx.layout.frames.get? f = some frame ∧ P.chunk? frame.label = some c ∧
      c.frame = frame ∧
      a.IsCode ctx b c := by
  obtain ⟨Δ, around⟩ := reached.within
  obtain ⟨k, Γ, -, -, facts⟩ := (around.shown tree h.nodes).function_facts node
  simp only [Arena.declTree, node] at facts
  obtain ⟨frame, laid, -⟩ := facts.here.2.2.2.2.1
  rw [h.describes.frame] at laid
  obtain ⟨c, found, own, -, s, value, s', lowered, body⟩ :=
    h.chunk?_function hp facts.here.2.2.2.2.2.2 laid
  exact ⟨frame, c, laid, found, own, k, s, value, s', lowered, body⟩

theorem Kinds.Analysed.dispatches (h : Analysed a.source ctx t sort) (tree : a.IsTree)
    (hp : a.source.lower ctx.bindings ctx.types ctx.layout entry = .ok P) :
    a.Dispatches ctx P (a.IsCode ctx) := by
  constructor
  · intro n x args f reached node bound
    obtain ⟨Δ, around⟩ := reached.within
    obtain ⟨k, Γ, -, -, facts⟩ := (around.shown tree h.nodes).expr_facts node
    simp only [Arena.exprTree, node] at facts
    obtain ⟨Γ', site, g, params, result, body, -, rfl, declared⟩ :=
      h.called_function facts.here bound
    obtain ⟨reached', decl, hdecl, mirrors⟩ := a.node_of_declared tree declared
    cases decl with
    | function name ps r b =>
      obtain ⟨frame, c, laid, found, own, code⟩ := h.chunk?_node tree hp reached' hdecl
      have calls : a.CallsLabel ctx n frame.label := by
        apply Arena.callsLabel_of_callee node
        intro depth label link callee
        cases callee with
        | builtin bound' => simp [bound] at bound'
        | top bound' laid' | nested bound' laid' =>
          rw [bound] at bound'
          cases bound'
          exact congrArg Frame.label (Option.some.inj (laid'.symm.trans laid))
      exact ⟨name, ps, r, b, frame, c, hdecl, laid, calls, found, own, code⟩
    | «alias» | param | var => cases mirrors
  · intro n x args b reached node bound
    obtain ⟨Δ, around⟩ := reached.within
    obtain ⟨k, Γ, -, -, facts⟩ := (around.shown tree h.nodes).expr_facts node
    simp only [Arena.exprTree, node] at facts
    have free : a.source.IsBuiltin b := by
      have bound : ctx.bindings.get? (a.site n).id = some (.builtin b) := bound
      rcases facts.here.2.2.1 with ⟨b', bound', free⟩ | ⟨d, bound', -⟩
      · have same : b = b' := by simpa [bound] using bound'
        exact same ▸ free
      · simp [bound] at bound'
    refine ⟨?_, h.chunk?_builtin hp free, Builtin.ofLabel?_name b⟩
    apply Arena.callsLabel_of_callee node
    intro depth label link callee
    cases callee with
    | builtin bound' =>
      rw [bound] at bound'
      cases bound'
      rfl
    | top bound' | nested bound' => simp [bound] at bound'

/-- Splitting leaves the chunks where they were. -/
theorem Arena.Dispatches.canonical {code : NodeId → Chunk Stmt → Prop} (h : a.Dispatches ctx P code)
    {C : LinearProgram} (canonical : P.canonical = .ok C) :
    a.Dispatches ctx C fun b c' => ∃ c, code b c ∧ c.canonical = .ok c' := by
  constructor
  · intro n x args f reached node bound
    obtain ⟨name, ps, r, b, frame, c, hdecl, laid, calls, found, own, hcode⟩ :=
      h.function n x args f reached node bound
    obtain ⟨c', found', split⟩ := TreeProgram.chunk?_of_canonical canonical found
    have own' : c'.frame = frame := (Chunk.canonical_eq_ok.1 split).1.trans own
    exact ⟨name, ps, r, b, frame, c', hdecl, laid, calls, found', own', c, hcode, split⟩
  · intro n x args b reached node bound
    obtain ⟨calls, absent, builtin⟩ := h.builtin n x args b reached node bound
    refine ⟨calls, ?_, builtin⟩
    rw [← Option.not_isSome_iff_eq_none, TreeProgram.isSome_chunk?_canonical canonical, absent]
    exact Bool.false_ne_true

/-- Functions have labels of their own, none of them that of the code that sets the globals, and
calls find what they are bound to, in tree code and in linear code. So the only function that a run
can miss is the entry. -/
theorem calls_reach_their_functions {layout : Layout} (program : a.LaidOut layout)
    (lowered : a.source.lower a.source.resolve.bindings
      (a.source.check a.source.resolve.bindings).types layout entry = .ok P) :
    (∀ f name ps r b, a.Reached f → a.decl? f = some (.function name ps r b) →
      ∃ frame, layout.frames.get? f = some frame ∧ frame.label ≠ Frame.initLabel) ∧
    (∀ f g frame frame', layout.frames.get? f = some frame → layout.frames.get? g = some frame' →
      frame.label = frame'.label → f = g) ∧
    a.Dispatches (tablesOf a.source layout) P (a.IsCode (tablesOf a.source layout)) ∧
    (∀ maxCallDepth budget fuel machine function l last,
      Nested.run ⟨P, maxCallDepth, budget⟩ fuel machine =
        .error (.fault ⟨function, .unknownFunction l⟩) last →
      l = entry ∧ P.chunk? entry = none ∧ Builtin.ofLabel? entry = none) ∧
    ∀ C, P.canonical = .ok C →
      (a.Dispatches (tablesOf a.source layout) C fun b c' =>
        ∃ c, a.IsCode (tablesOf a.source layout) b c ∧ c.canonical = .ok c') ∧
      ∀ budget fuel machine function l last,
        Linear.run C budget fuel machine = .error (.fault ⟨function, .unknownFunction l⟩) last →
        l = entry ∧ C.chunk? entry = none := by
  obtain ⟨t, h⟩ := analysed_of_laid program.tree program.named program.typed program.laid
  have closed := Nested.closed_of_lower lowered
  obtain ⟨-, -, -, -, hentry⟩ := h.lowered lowered
  have init := h.chunk?_init lowered
  have dispatches := h.dispatches program.tree lowered
  refine ⟨?_, ?_, dispatches, ?_, ?_⟩
  · intro f name ps r b reached node
    obtain ⟨frame, -, laid, -⟩ := h.chunk?_node program.tree lowered reached node
    exact ⟨frame, laid, h.describes.notInit (h.describes.frame ▸ laid)⟩
  · intro f g frame frame' laid laid' same
    have laid : t.frame f = some frame := h.describes.frame ▸ laid
    exact h.describes.labels laid (h.describes.frame ▸ laid') same
  · intro maxCallDepth budget fuel machine function l last run
    rw [← hentry]
    exact Nested.eq_entry_of_unknownFunction ⟨P, maxCallDepth, budget⟩ closed (h.linked lowered)
      (by rw [init]; rfl) run
  · intro C canonical
    refine ⟨dispatches.canonical canonical, ?_⟩
    intro budget fuel machine function l last run
    rw [← hentry, ← (TreeProgram.canonical_globals canonical).2]
    exact Linear.eq_entry_of_unknownFunction (h.linear_linked lowered canonical) run

end

/-- Two functions have the name `f`, one inside `main`, and `main` calls both. -/
def sameNames : Arena where
  nodes := #[
    ⟨.point 1 9, .type (.atom .integer)⟩,
    ⟨.point 1 7, .decl (.param "n" 0)⟩,
    ⟨.point 1 19, .type (.atom .integer)⟩,
    ⟨.point 1 29, .expr (.name "n")⟩,
    ⟨.point 1 33, .expr (.literal (.integer 1))⟩,
    ⟨.point 1 29, .expr (.binary .add 3 4)⟩,
    ⟨.point 1 1, .decl (.function "f" [1] 2 5)⟩,
    ⟨.point 3 9, .type (.atom .integer)⟩,
    ⟨.point 3 7, .decl (.param "n" 7)⟩,
    ⟨.point 3 19, .type (.atom .integer)⟩,
    ⟨.point 3 29, .expr (.name "n")⟩,
    ⟨.point 3 33, .expr (.literal (.integer 2))⟩,
    ⟨.point 3 29, .expr (.binary .mul 10 11)⟩,
    ⟨.point 3 3, .decl (.function "f" [8] 9 12)⟩,
    ⟨.point 2 38, .expr (.literal (.integer 1))⟩,
    ⟨.point 2 36, .expr (.call "f" [14])⟩,
    ⟨.point 2 35, .expr (.scoped [13] 15)⟩,
    ⟨.point 2 25, .expr (.call "print_int" [16])⟩,
    ⟨.point 2 48, .expr (.literal (.integer 1))⟩,
    ⟨.point 2 46, .expr (.call "f" [18])⟩,
    ⟨.point 2 24, .expr (.block [17, 19])⟩,
    ⟨.point 2 13, .type (.atom .integer)⟩,
    ⟨.point 2 1, .decl (.function "main" [] 21 20)⟩]
  definitions := [6, 22]

theorem calls_reach_their_functions_sameNames :
    ∃ layout P C last, sameNames.LaidOut layout ∧
      sameNames.source.lower sameNames.source.resolve.bindings
        (sameNames.source.check sameNames.source.resolve.bindings).types layout "start" = .ok P ∧
      P.canonical = .ok C ∧ sameNames.source.resolve.bindings.get? 15 = some (.decl 13) ∧
      sameNames.source.resolve.bindings.get? 17 = some (.builtin .printInt) ∧
      sameNames.source.resolve.bindings.get? 19 = some (.decl 6) ∧
      (sameNames.Dispatches (Kinds.tablesOf sameNames.source layout) C fun b c' =>
        ∃ c, sameNames.IsCode (Kinds.tablesOf sameNames.source layout) b c ∧ c.canonical = .ok c') ∧
      Linear.run C none 1 (Machine.create 8 {}) =
        .error (.fault ⟨"start", .unknownFunction "start"⟩) last ∧ C.chunk? "start" = none := by
  have checked : sameNames.source.resolve.bindings.get? 15 = some (.decl 13) ∧
      sameNames.source.resolve.bindings.get? 17 = some (.builtin .printInt) ∧
      sameNames.source.resolve.bindings.get? 19 = some (.decl 6) ∧
      ∃ layout ∈ sameNames.layout?,
        ∃ P ∈ (sameNames.source.lower sameNames.source.resolve.bindings
            (sameNames.source.check sameNames.source.resolve.bindings).types layout
            "start").toOption,
          ∃ C ∈ P.canonical.toOption, failure? (Linear.run C none 1 (Machine.create 8 {})) =
            some (.fault ⟨"start", .unknownFunction "start"⟩) := by
    decide +kernel
  obtain ⟨inner, builtin, outer, layout, laid, P, lowered, C, canonical, failed⟩ := checked
  have program := Arena.laidOut_of_mem laid
  have lowered := eq_ok_of_mem_toOption lowered
  have canonical := eq_ok_of_mem_toOption canonical
  obtain ⟨last, run⟩ := failure?_eq_some failed
  obtain ⟨-, -, -, -, linear⟩ := calls_reach_their_functions program lowered
  obtain ⟨dispatches, unknown⟩ := linear C canonical
  exact ⟨layout, P, C, last, program, lowered, canonical, inner, builtin, outer, dispatches, run,
    (unknown _ _ _ _ _ _ run).2⟩

end PinsBackend
