import PinsBackend.Proofs.Canonical.Correspondence
import PinsBackend.Proofs.Lowering.Closed
import PinsBackend.Proofs.Machine.Missing

/-! Closed tree code never jumps to a label that is not there, and it misses nothing else if all
that it needs is there. -/
namespace PinsBackend.Nested

open Ir

variable {label l : String} {s : Stmt} {ss rest : List Stmt}

/-- Control goes on or to one of these labels. -/
def Flow.Within (targets : List String) : Flow → Prop
  | .next => True
  | .jump l => l ∈ targets

variable {targets : List String} {all : List Stmt} {S : State}

theorem Flow.Within.mono {flow : Flow} (h : flow.Within []) : flow.Within targets := by
  cases flow with
  | next => trivial
  | jump l => exact absurd h (by simp [Flow.Within])

/-! ## Closed code -/

/-- More targets close a statement just as well. -/
theorem isClosed_mono {targets' : List String} (h : targets ⊆ targets')
    (hs : s.isClosed targets = true) : s.isClosed targets' = true := by
  cases s with
  | jump l =>
    simp only [Stmt.isClosed, List.contains_iff_mem] at hs ⊢
    exact h hs
  | cjump c l k =>
    simp only [Stmt.isClosed, Bool.and_eq_true, List.contains_iff_mem] at hs ⊢
    exact ⟨⟨hs.1.1, h hs.1.2⟩, h hs.2⟩
  | move | eval | label | seq => exact hs

/-- A label of a list is one of the flattened list. -/
theorem mem_flattenList_of_label (h : l ∈ ss.filterMap Stmt.label?) :
    Stmt.label l ∈ Stmt.flattenList ss := by
  induction ss with
  | nil => simp at h
  | cons s ss ih =>
    rw [Stmt.flattenList, List.mem_append]
    obtain ⟨x, hx, hl⟩ := List.mem_filterMap.1 h
    rcases List.mem_cons.1 hx with rfl | hx
    · cases x <;> simp only [Stmt.label?, Option.some.injEq, reduceCtorEq] at hl
      subst hl
      exact .inl (by simp [Stmt.flatten])
    · exact .inr (ih (List.mem_filterMap.2 ⟨x, hx, hl⟩))

mutual

/-- Flattening a closed statement leaves its parts closed where all its labels are targets. -/
theorem isClosed_flatten {targets around : List String} {x : Stmt} : ∀ (s : Stmt),
    s.isClosed targets = true → targets ⊆ around →
    (∀ l, Stmt.label l ∈ s.flatten → l ∈ around) → x ∈ s.flatten → x.isClosed around = true
  | .seq ss, hs, _, labels, hx => by
    rw [Stmt.isClosed, Stmt.allClosed_eq, List.all_eq_true] at hs
    refine isClosed_flattenList ss hs (fun l hl => labels l ?_) labels hx
    exact mem_flattenList_of_label hl
  | .move _ _, hs, sub, _, hx | .eval _, hs, sub, _, hx | .jump _, hs, sub, _, hx
  | .cjump _ _ _, hs, sub, _, hx | .label _, hs, sub, _, hx => by
    rw [List.mem_singleton.1 hx]
    exact isClosed_mono sub hs

theorem isClosed_flattenList {targets around : List String} {x : Stmt} : ∀ (ss : List Stmt),
    (∀ s ∈ ss, s.isClosed targets = true) → targets ⊆ around →
    (∀ l, Stmt.label l ∈ Stmt.flattenList ss → l ∈ around) → x ∈ Stmt.flattenList ss →
    x.isClosed around = true
  | [], _, _, _, hx => by simp [Stmt.flattenList] at hx
  | s :: ss, hs, sub, labels, hx => by
    rw [Stmt.flattenList, List.mem_append] at hx
    rcases hx with hx | hx
    · refine isClosed_flatten s (hs s (by simp)) sub (fun l hl => labels l ?_) hx
      exact List.mem_append_left _ hl
    · refine isClosed_flattenList ss (fun s h => hs s (by simp [h])) sub
        (fun l hl => labels l ?_) hx
      exact List.mem_append_right _ hl

end

theorem mem_of_seek (h : seek l all = some rest) : rest ⊆ all := by
  induction all with
  | nil => simp [seek] at h
  | cons s all ih =>
    rw [seek] at h
    split at h
    · cases h
      exact List.Subset.refl _
    · exact List.subset_cons_of_subset _ (ih h)

/-- A label that stands in the sequence is found. -/
theorem seek_isSome (h : Stmt.label l ∈ all) : ∃ rest, seek l all = some rest := by
  induction all with
  | nil => simp at h
  | cons s all ih =>
    by_cases hs : s.isLabel l = true
    · exact ⟨s :: all, by rw [seek, if_pos hs]⟩
    · rcases List.mem_cons.1 h with rfl | h
      · simp [Stmt.isLabel] at hs
      · rw [seek, if_neg hs]
        exact ih h

/-- A part of a flattened statement needs no more than the statement. -/
theorem meets_of_mem_flattenList {Body : Type} {p : Program Body} {missing : Fault → Prop}
    (h : p.Meets missing (Stmt.needsList ss)) (hs : s ∈ Stmt.flattenList ss) :
    p.Meets missing s.needs := by
  intro f need
  apply h
  rw [← Stmt.flattenList_needs]
  exact List.mem_flatMap.2 ⟨s, hs, need⟩

/-- All chunks of the program are closed. -/
def ClosedProgram (p : TreeProgram) : Prop := ∀ c ∈ p.init :: p.chunks, c.body.isClosed [] = true

/-- All that the chunks need is there, or it may be missing. -/
def LinkedProgram (p : TreeProgram) (missing : Fault → Prop) : Prop :=
  ∀ c ∈ p.init :: p.chunks, p.Meets missing c.body.needs

/-- Lowered code is closed. -/
theorem closed_of_lower {source : Syntax.Source} {bindings : NodeTable Binding}
    {types : NodeTable Ty} {layout : Layout} {entry : String} {P : TreeProgram}
    (lowered : source.lower bindings types layout entry = .ok P) : ClosedProgram P := by
  obtain ⟨inits, rest, s₁, s₂, hinit, hrest, rfl⟩ := Lowering.lower_eq_ok lowered
  have inits := Lowering.closed_of_lowers hinit
  have chunks := (Lowering.closed_of_lowers hrest).2 (inits.2 (by simp))
  intro c hc
  rcases List.mem_cons.1 hc with rfl | hc
  · exact Stmt.isClosed_moves inits.1
  · exact chunks c (by simpa using hc)

variable {setting : Setting} {missing : Fault → Prop} {fuel : Nat}

/-- With this much fuel, closed code stays where it stands and finds what it needs. -/
structure Confined (setting : Setting) (missing : Fault → Prop) (fuel : Nat) : Prop where
  eval : ∀ {e S}, setting.Stocked S → e.isClosed = true → setting.program.Meets missing e.needs →
    Finds setting missing (fun _ => True) (eval setting fuel e S)
  exec : ∀ {targets s S}, setting.Stocked S → s.isClosed targets = true →
    setting.program.Meets missing s.needs →
    Finds setting missing (Flow.Within targets) (exec setting fuel s S)
  execFrom : ∀ {targets all rest S}, setting.Stocked S →
    (∀ s ∈ all, s.isClosed targets = true ∧ setting.program.Meets missing s.needs) →
    (∀ l ∈ targets, Stmt.label l ∈ all) → rest ⊆ all →
    Finds setting missing (Flow.Within []) (execFrom setting fuel all rest S)
  move : ∀ {dst src S}, setting.Stocked S → (Stmt.move dst src).isClosed [] = true →
    setting.program.Meets missing (Stmt.move dst src).needs →
    Finds setting missing (Flow.Within []) (move setting fuel dst src S)
  call : ∀ {label args S}, setting.Stocked S →
    setting.program.Meets missing [.unknownFunction label] →
    Finds setting missing (fun _ => True) (call setting fuel label args S)

theorem confined_args (h : Confined setting missing fuel) {es : List Expr}
    (stocked : setting.Stocked S) (closed : ∀ e ∈ es, e.isClosed = true)
    (met : setting.program.Meets missing (Expr.needsList es)) :
    Finds setting missing (fun _ => True) (es.mapM (Nested.eval setting fuel) S) := by
  induction es generalizing S with
  | nil => exact ⟨trivial, stocked⟩
  | cons e es ih =>
    rw [Expr.needsList, Program.meets_append] at met
    rw [List.mapM_cons]
    apply (h.eval stocked (closed e (by simp)) met.1).bind
    intro v S₁ _ stocked
    apply (ih stocked (fun e he => closed e (by simp [he])) met.2).bind
    intro vs S₂ _ stocked
    exact ⟨trivial, stocked⟩

theorem confined_eval (h : Confined setting missing fuel) {e : Expr} (stocked : setting.Stocked S)
    (he : e.isClosed = true) (met : setting.program.Meets missing e.needs) :
    Finds setting missing (fun _ => True) (Nested.eval setting (fuel + 1) e S) := by
  cases e with
  | const v => exact ⟨trivial, stocked⟩
  | data l =>
    rw [Nested.eval, bind_apply, get_apply]
    exact finds_data stocked met
  | temp t => exact ⟨trivial, stocked⟩
  | mem a =>
    apply (h.eval (e := a) stocked he met).bind
    intro v S' _ stocked
    exact (nameless_load v).finds stocked
  | binop op l r =>
    simp only [Expr.isClosed, Bool.and_eq_true] at he
    rw [Expr.needs, Program.meets_append] at met
    apply (h.eval stocked he.1 met.1).bind
    intro a S₁ _ stocked
    apply (h.eval stocked he.2 met.2).bind
    intro b S₂ _ stocked
    exact (nameless_apply op a b).finds stocked
  | checkIndex i n =>
    apply (h.eval (e := i) stocked he met).bind
    intro v S' _ stocked
    exact (nameless_checkIndex v n).finds stocked
  | call label args =>
    simp only [Expr.isClosed, Expr.allClosed_eq, List.all_eq_true] at he
    rw [Expr.needs, Program.meets_append] at met
    apply (confined_args h stocked he met.1).bind
    intro vs S' _ stocked
    exact h.call stocked met.2
  | eseq s e =>
    simp only [Expr.isClosed, Bool.and_eq_true] at he
    rw [Expr.needs, Program.meets_append] at met
    apply (h.exec stocked he.1 met.1).bind
    intro flow S' within stocked
    cases flow with
    | next => exact h.eval stocked he.2 met.2
    | jump l => exact absurd within (by simp [Flow.Within])

theorem confined_exec (h : Confined setting missing fuel) (stocked : setting.Stocked S)
    (hs : s.isClosed targets = true) (met : setting.program.Meets missing s.needs) :
    Finds setting missing (Flow.Within targets) (Nested.exec setting (fuel + 1) s S) := by
  have ticks : Finds setting missing (fun _ => True) (tick setting S) :=
    (nameless_tick setting).finds stocked
  cases s with
  | seq ss =>
    simp only [Stmt.isClosed, Stmt.allClosed_eq, List.all_eq_true] at hs
    have labels : ∀ l, Stmt.label l ∈ Stmt.flattenList ss →
        l ∈ (Stmt.flattenList ss).filterMap Stmt.label? :=
      fun l hl => List.mem_filterMap.2 ⟨.label l, hl, rfl⟩
    have closed : ∀ s ∈ Stmt.flattenList ss,
        s.isClosed ((Stmt.flattenList ss).filterMap Stmt.label?) = true := fun s hx =>
      isClosed_flattenList ss hs (fun l hl => labels l (mem_flattenList_of_label hl)) labels hx
    refine (h.execFrom stocked (fun s hs => ⟨closed s hs, meets_of_mem_flattenList met hs⟩) ?_
      (List.Subset.refl _)).mono fun flow => Flow.Within.mono
    intro l hl
    obtain ⟨x, hx, hl⟩ := List.mem_filterMap.1 hl
    cases x <;> simp only [Stmt.label?, Option.some.injEq, reduceCtorEq] at hl
    exact hl ▸ hx
  | label l => exact ⟨trivial, stocked⟩
  | jump l => exact ticks.bind fun _ _ _ stocked => ⟨List.contains_iff_mem.1 hs, stocked⟩
  | cjump c l k =>
    simp only [Stmt.isClosed, Bool.and_eq_true, List.contains_iff_mem] at hs
    apply ticks.bind
    intro _ S₁ _ stocked
    apply (h.eval stocked hs.1.1 met).bind
    intro v S₂ _ stocked
    apply ((nameless_isTruthy v).finds stocked).bind
    intro b S₃ _ stocked
    cases b
    · exact ⟨hs.2, stocked⟩
    · exact ⟨hs.1.2, stocked⟩
  | move dst src =>
    apply ticks.bind
    intro _ S₁ _ stocked
    exact (h.move stocked hs met).mono fun flow => Flow.Within.mono
  | eval e =>
    apply ticks.bind
    intro _ S₁ _ stocked
    exact (h.eval (e := e) stocked hs met).bind fun _ _ _ stocked => ⟨trivial, stocked⟩

theorem confined_execFrom (h : Confined setting missing fuel) (stocked : setting.Stocked S)
    (fine : ∀ s ∈ all, s.isClosed targets = true ∧ setting.program.Meets missing s.needs)
    (labels : ∀ l ∈ targets, Stmt.label l ∈ all) (sub : rest ⊆ all) :
    Finds setting missing (Flow.Within [])
      (Nested.execFrom setting (fuel + 1) all rest S) := by
  cases rest with
  | nil => exact ⟨trivial, stocked⟩
  | cons s rest =>
    obtain ⟨closed, met⟩ := fine s (sub (by simp))
    apply (h.exec stocked closed met).bind
    intro flow S' within stocked
    cases flow with
    | next => exact h.execFrom stocked fine labels (List.subset_of_cons_subset sub)
    | jump l =>
      obtain ⟨target, found⟩ := seek_isSome (labels l within)
      simp only [found]
      exact h.execFrom stocked fine labels (mem_of_seek found)

theorem confined_move (h : Confined setting missing fuel) {dst src : Expr}
    (stocked : setting.Stocked S) (closed : (Stmt.move dst src).isClosed [] = true)
    (met : setting.program.Meets missing (Stmt.move dst src).needs) :
    Finds setting missing (Flow.Within []) (Nested.move setting (fuel + 1) dst src S) := by
  simp only [Stmt.isClosed, Bool.and_eq_true] at closed
  simp only [Stmt.needs, Program.meets_append] at met
  obtain ⟨⟨target, metDst⟩, metSrc⟩ := met
  cases dst with
  | temp t =>
    apply (h.eval stocked closed.2 metSrc).bind
    intro v S' _ stocked
    apply (finds_writeTemp stocked target v).bind
    intro _ _ _ stocked
    exact ⟨trivial, stocked⟩
  | mem a =>
    apply (h.eval (e := a) stocked closed.1 metDst).bind
    intro v S₁ _ stocked
    apply ((nameless_asInt v).finds stocked).bind
    intro w S₂ _ stocked
    apply (h.eval stocked closed.2 metSrc).bind
    intro v S₃ _ stocked
    apply ((nameless_store w.toInt v).finds stocked).bind
    intro _ _ _ stocked
    exact ⟨trivial, stocked⟩
  | eseq s e =>
    simp only [Expr.isClosed, Bool.and_eq_true] at closed
    simp only [Expr.needs, Program.meets_append] at metDst
    apply (h.exec stocked closed.1.1 metDst.1).bind
    intro flow S' within stocked
    cases flow with
    | next =>
      refine h.move stocked ?_ ?_
      · simp only [Stmt.isClosed, Bool.and_eq_true]
        exact ⟨closed.1.2, closed.2⟩
      · simp only [Stmt.needs, Program.meets_append]
        exact ⟨⟨target, metDst.2⟩, metSrc⟩
    | jump l => exact ⟨within, stocked⟩
  | const | data | binop | checkIndex | call => exact Fault.missesOnly rfl

theorem confined_call (closed : ClosedProgram setting.program)
    (linked : LinkedProgram setting.program missing) (h : Confined setting missing fuel)
    {args : List Value} (stocked : setting.Stocked S)
    (met : setting.program.Meets missing [.unknownFunction label]) :
    Finds setting missing (fun _ => True) (Nested.call setting (fuel + 1) label args S) := by
  rw [Nested.call]
  cases found : setting.program.chunk? label with
  | none =>
    have known : (Builtin.ofLabel? label).isSome = true ∨ missing (.unknownFunction label) := by
      simpa [Program.Has, found] using met
    exact finds_callBuiltin stocked known args
  | some chunk =>
    have mem := (Program.mem_of_chunk? found).1
    apply (finds_enter stocked label chunk.frame args).bind
    intro caller S₁ _ stocked
    apply (h.exec stocked (closed chunk mem) (linked chunk mem)).bind
    intro flow S₂ within stocked
    cases flow with
    | next => exact ⟨trivial, stocked⟩
    | jump l => exact absurd within (by simp [Flow.Within])

theorem confined (closed : ClosedProgram setting.program)
    (linked : LinkedProgram setting.program missing) : ∀ fuel, Confined setting missing fuel
  | 0 => ⟨fun _ _ _ => trivial, fun _ _ _ => trivial, fun _ _ _ _ => trivial,
      fun _ _ _ => trivial, fun _ _ => trivial⟩
  | fuel + 1 =>
    have h := confined closed linked fuel
    ⟨confined_eval h, confined_exec h, confined_execFrom h, confined_move h,
      confined_call closed linked h⟩

end PinsBackend.Nested
