import PinsBackend.Proofs.Kinds.Compiled
import PinsBackend.Proofs.Machine.Linking

/-! Kinded code is linked.

Its jumps go to labels of the sequence in which they stand, its calls to functions of the program or
to built-ins, and the data that it addresses are globals. It never writes the frame pointer, for
that has no kind. So the code of a program that is a tree needs nothing that is not there, before
and after it is split. -/
namespace PinsBackend.Kinds

open Ir
open Syntax (Env)

variable {K : Context} {Γ : Env} {κ : Temp → Option Kind} {task : Task}

/-! ## Jumps -/

/-- Jumps go to labels that are known where they stand. -/
def Task.Closed : Task → Prop
  | .value _ e _ => e.isClosed = true
  | .stmt Ψ _ s _ => ∀ targets, (∀ l E, Ψ l = some E → l ∈ targets) → s.isClosed targets = true
  | .run Ψ _ ss _ =>
    ∀ targets, (∀ l E, Ψ l = some E → l ∈ targets) → Stmt.allClosed targets ss = true

theorem LinkTo.isClosed {outer : Env} {link : Expr} (h : LinkTo Γ outer link) :
    link.isClosed = true := by
  rcases h with ⟨-, rfl⟩ | ⟨hops, -, -, rfl⟩
  · rfl
  · exact Lowering.isClosed_frameAt hops

theorem allClosed_temps (ts : List Temp) : Expr.allClosed (ts.map .temp) = true := by
  simp [Expr.isClosed]

theorem Kinded.closed (h : Kinded K Γ κ task) : task.Closed := by
  induction h with
  | int | str | temp | global => rfl
  | slot => simp [Task.Closed, Expr.isClosed, Expr.int, Lowering.isClosed_frameAt]
  | load _ _ ih => exact ih
  | element _ _ _ _ _ ihb ihi => exact Lowering.isClosed_elementExpr ihb ihi
  | arithmetic _ _ _ ihl ihr | comparison _ _ _ ihl ihr => exact Bool.and_eq_true_iff.2 ⟨ihl, ihr⟩
  | builtin => exact allClosed_temps _
  | call _ linked _ => exact Bool.and_eq_true_iff.2 ⟨linked.isClosed, allClosed_temps _⟩
  | eseq own _ _ ihs ihv =>
    refine Bool.and_eq_true_iff.2 ⟨ihs _ fun l E known => ?_, ihv⟩
    exact List.mem_filterMap.2 ⟨_, own known, rfl⟩
  | assign _ _ _ ih => exact fun _ _ => ih
  | store _ _ _ iha ihv => exact fun _ _ => Bool.and_eq_true_iff.2 ⟨iha, ihv⟩
  | eval _ ih => exact fun _ _ => ih
  | jump target _ => exact fun _ known => List.contains_iff_mem.2 (known _ _ target)
  | cjump _ onTrue _ onFalse _ ih =>
    intro targets known
    simp only [Stmt.isClosed, Bool.and_eq_true, List.contains_iff_mem]
    exact ⟨⟨ih, known _ _ onTrue⟩, known _ _ onFalse⟩
  | label | nil => exact fun _ _ => rfl
  | cons _ _ ihs ihss =>
    exact fun targets known => Bool.and_eq_true_iff.2 ⟨ihs targets known, ihss targets known⟩

/-! ## Needs -/

/-- What code of the program may need. -/
def Context.Needs (K : Context) : Fault → Prop
  | .unknownFunction l => (∃ b : Builtin, l = b.name) ∨ ∃ r, K.routine l r
  | .malformed (.unknownData l) => ∃ d ∈ K.storage.globals, l = K.storage.label d
  | _ => False

def Task.needs : Task → List Fault
  | .value _ e _ => e.needs
  | .stmt _ _ s _ => s.needs
  | .run _ _ ss _ => Stmt.needsList ss

theorem needs_frameAt (hops : Nat) : (Lowering.frameAt hops).needs = [] := by
  induction hops with
  | zero => rfl
  | succ hops ih => rw [Lowering.frameAt, Expr.needs, ih]

theorem LinkTo.needs {outer : Env} {link : Expr} (h : LinkTo Γ outer link) : link.needs = [] := by
  rcases h with ⟨-, rfl⟩ | ⟨hops, -, -, rfl⟩
  · rfl
  · exact needs_frameAt hops

theorem needsList_temps (ts : List Temp) : Expr.needsList (ts.map .temp) = [] := by
  induction ts with
  | nil => rfl
  | cons t ts ih => rw [List.map_cons, Expr.needsList, Expr.needs, ih, List.nil_append]

theorem Kinded.needs (fp : κ Temp.fp = none) (h : Kinded K Γ κ task) :
    ∀ f ∈ task.needs, K.Needs f := by
  induction h with
  | int | str | temp | jump | label | nil => exact nofun
  | slot => simp [Task.needs, Expr.needs, Expr.int, needs_frameAt]
  | global mem => exact List.forall_mem_singleton.2 ⟨_, mem, rfl⟩
  | load _ _ ih | eval _ ih | cjump _ _ _ _ _ ih => exact ih
  | element _ _ _ _ _ ihb ihi =>
    simp only [Task.needs] at ihb ihi
    simpa [Task.needs, Lowering.elementExpr, Expr.needs, Expr.int, or_imp, forall_and] using
      ⟨ihb, ihi⟩
  | arithmetic _ _ _ ihl ihr | comparison _ _ _ ihl ihr | store _ _ _ ihl ihr
  | eseq _ _ _ ihl ihr | cons _ _ ihl ihr => exact List.forall_mem_append.2 ⟨ihl, ihr⟩
  | @builtin _ b ts =>
    rw [Task.needs, Expr.needs, Expr.needsList, needsList_temps]
    exact List.forall_mem_singleton.2 (.inl ⟨b, rfl⟩)
  | @call _ _ r _ ts callee linked _ =>
    rw [Task.needs, Expr.needs, Expr.needsList, linked.needs, needsList_temps]
    exact List.forall_mem_singleton.2 (.inr ⟨r, callee⟩)
  | @assign _ _ t _ _ _ kind _ _ ih =>
    have own : t ≠ Temp.fp := by
      rintro rfl
      rw [fp] at kind
      cases kind
    simpa [Task.needs, Stmt.needs, Expr.target, Expr.needs, own] using ih

/-! ## Programs -/

variable {source : Syntax.Source} {ctx : Lowering.Context} {t : Layout.Tables}
  {sort : NodeId → Syntax.NodeSort} {entry : String} {P : TreeProgram} {C : LinearProgram}

section

variable (h : Analysed source ctx t sort)
  (hp : source.lower ctx.bindings ctx.types ctx.layout entry = .ok P)

include h hp

/-- What code of the program needs is there. -/
theorem Analysed.has {f : Fault} (need : (contextOf source ctx).Needs f) : P.Has f := by
  match f, need with
  | .unknownFunction _, .inl ⟨b, eq⟩ => exact .inr (by rw [eq, Builtin.ofLabel?_name]; rfl)
  | .unknownFunction _, .inr ⟨r, routine⟩ =>
    obtain ⟨c, -, found, -⟩ := h.chunk?_routine hp routine
    exact .inl (by rw [found]; rfl)
  | .malformed (.unknownData _), ⟨d, mem, eq⟩ =>
    obtain ⟨g, placed, label, -⟩ := exists_of_mem_left h.data mem
    obtain ⟨-, -, -, globals, -⟩ := h.lowered hp
    rw [Program.Has, globals, eq, ← label]
    exact List.mem_map_of_mem placed

/-- All that the chunks of a program need is there. -/
theorem Analysed.linked (missing : Fault → Prop) : Nested.LinkedProgram P missing := by
  obtain ⟨⟨κ, inits, init, fp, leaves, -⟩, chunks, -⟩ := h.lowered hp
  intro c hc f need
  refine .inl (h.has hp ?_)
  rcases List.mem_cons.1 hc with rfl | hc
  · rw [init] at need
    exact (leaves_nil.1 leaves ∅).needs fp f need
  · obtain ⟨⟨r, κ, e, -, -, -, body, -, fp, value, -⟩, -⟩ := chunks c hc
    rw [body] at need
    exact (value ∅).needs fp f need

/-- Every chunk of linear code is coded, and its labels are defined once. -/
theorem Analysed.coded (canonical : P.canonical = .ok C) : ∀ c' ∈ C.init :: C.chunks,
    (labelsOf c'.body).Nodup ∧ ∃ Γ result, Coded (contextOf source ctx) Γ result c'.body := by
  obtain ⟨⟨κ, inits, init, fp, leaves, nodup⟩, chunks, -⟩ := h.lowered hp
  intro c' hc
  obtain ⟨c, mem, split⟩ := exists_of_mem_left (TreeProgram.canonical_chunks canonical).flip hc
  obtain ⟨limit, lin⟩ := Chunk.linearized_of_canonical split
  rw [lin.labels]
  rcases List.mem_cons.1 mem with rfl | mem
  · rw [init] at split ⊢
    exact ⟨nodup, _, _, (leaves.coded fp nodup split).2⟩
  · obtain ⟨suits, nodup⟩ := chunks c mem
    obtain ⟨r, -, -, coded⟩ := suits.coded nodup split
    exact ⟨nodup, _, _, coded⟩

/-- The linear code of a program is linked. -/
theorem Analysed.linear_linked (canonical : P.canonical = .ok C) (missing : Fault → Prop) :
    Linear.LinkedProgram C missing := by
  have coded := h.coded hp canonical
  have globals : C.asTree.globals = P.globals := (TreeProgram.canonical_globals canonical).1
  have chunks (l : String) : (C.asTree.chunk? l).isSome = (P.chunk? l).isSome := by
    rw [C.chunk?_asTree, Option.isSome_map, TreeProgram.isSome_chunk?_canonical canonical]
  have trees {c : Chunk Stmt} (hc : c ∈ C.asTree.init :: C.asTree.chunks) :
      ∃ c' ∈ C.init :: C.chunks, c = c'.asTree := by
    obtain ⟨c', mem, rfl⟩ := List.mem_map.1 (show c ∈ (C.init :: C.chunks).map Chunk.asTree from hc)
    exact ⟨c', mem, rfl⟩
  refine ⟨?_, Lockstep.exists_regular (fun c' mem => ?_) fun c' mem => (coded c' mem).1, ?_, ?_⟩
  · rw [TreeProgram.isSome_chunk?_canonical canonical, h.chunk?_init hp]
    rfl
  · obtain ⟨-, Γ, result, code⟩ := coded c' mem
    exact List.all_eq_true.2 code.canonical
  · intro c hc
    obtain ⟨c', mem, rfl⟩ := trees hc
    obtain ⟨-, Γ, result, -, κ, Ψ, D, -, own, run, -⟩ := coded c' mem
    exact run.closed _ fun l E known => List.mem_filterMap.2 ⟨_, own l E known, rfl⟩
  · intro c hc f need
    obtain ⟨c', mem, rfl⟩ := trees hc
    obtain ⟨-, Γ, result, -, κ, Ψ, D, fp, -, run, -⟩ := coded c' mem
    exact .inl ((h.has hp (run.needs fp f need)).congr globals chunks)

/-- Whatever the entry is, tree code of a program is never out of place. -/
theorem Analysed.nested_native {maxCallDepth fuel : Nat} {budget : Option Nat}
    {machine last : Machine} {crash : Crash}
    (run : Nested.run ⟨P, maxCallDepth, budget⟩ fuel machine = .error (.fault crash) last) :
    crash.fault.isForeign = false := by
  have functions (l : String) : P.Meets (fun f => f.isForeign = false) [.unknownFunction l] :=
    Program.meets_singleton.2 (.inr rfl)
  exact (Nested.run_missesOnly (Nested.closed_of_lower hp) (h.linked hp _) (functions _)
    (functions _) run).isForeign

theorem Analysed.linear_native (canonical : P.canonical = .ok C) {fuel : Nat} {budget : Option Nat}
    {machine last : Machine} {crash : Crash}
    (run : Linear.run C budget fuel machine = .error (.fault crash) last) :
    crash.fault.isForeign = false := by
  have linked := h.linear_linked hp canonical fun f => f.isForeign = false
  exact (Linear.run_missesOnly linked (fun _ => rfl) run).isForeign

end

end PinsBackend.Kinds
