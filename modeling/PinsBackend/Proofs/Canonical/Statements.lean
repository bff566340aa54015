import PinsBackend.Proofs.Canonical.Simulation

/-! Linear code follows the statements of tree code, and with them whole evaluations. -/
namespace PinsBackend.Canonical

open Ir

variable {result : Option Temp} {k : Track}

variable {setting : Nested.Setting} {p : LinearProgram} {fuel : Nat} {ts : Temps} {rest : List Stmt}
  {S : Nested.State} {fx : Effects}

/-! ## Whole sources -/

theorem finish_call (result : Option Temp) (label : String) (args : List Expr) :
    finish result (.call label args) = [Linear.callStmt result (.call label args)] := by
  cases result <;> rfl

theorem expr_whole {e : Expr} (hc : ∀ l args, e ≠ .call l args) (hs : ∀ st e', e ≠ .eseq st e') :
    Ir.Canonical.expr true e = Ir.Canonical.expr false e := by
  cases e with
  | call l args => exact absurd rfl (hc l args)
  | eseq st e' => exact absurd rfl (hs st e')
  | _ => rfl

/-- Temporaries that agree still do after both received a word. -/
theorem Agree.receive {limit : Temp} {σ σ' : Temps} {v : Value} (h : Agree limit σ ts)
    (hr : σ.receive result v = .ok σ') :
    ∃ ts', ts.receive result v = .ok ts' ∧ Agree limit σ' ts' := by
  cases result with
  | none =>
    simp only [Temps.receive, Except.ok.injEq] at hr
    exact ⟨ts, rfl, hr ▸ h⟩
  | some t =>
    have hset : ts.set t v = .ok ⟨ts.values.insert t v⟩ :=
      Temps.set_eq_ok.2 ⟨(Temps.set_eq_ok.1 hr).1, rfl⟩
    refine ⟨_, hset, fun u hu => ?_⟩
    rw [Temps.read_set hset, Temps.read_set hr, h u hu]

/-- The last statement takes the value that the residual has. -/
theorem Delivers.finishes {rest₀ : List Stmt} {r : Expr}
    {res : EStateM.Result (Halt Fault) Nested.State Value} (hr : ∀ l args, r ≠ .call l args)
    (hcov : Covers fx (finish result r)) (htr : Tracks k ts S)
    (h : Delivers p k rest₀ ts S fx (finish result r ++ rest) setting
      (fun m ts => Linear.eval m ts r) res) :
    Finishes p k rest₀ ts S fx rest setting result res := by
  cases res with
  | ok v S' =>
    obtain ⟨ts', harr, htr', hv⟩ := h
    intro σ hσ
    obtain ⟨ts₂, hts₂, hagree⟩ := htr'.agree.receive hσ
    refine ⟨ts₂, harr.trans ?_, hagree, htr'.calls⟩
    cases result with
    | none =>
      simp only [Temps.receive, Except.ok.injEq] at hts₂
      subst hts₂
      simp only [finish]
      split
      · exact .refl
      · exact ⟨.single (Linear.moves_eval hr hv), .refl _ _ _, rfl⟩
    | some t =>
      have writes := (hcov (.move (.temp t) r) (by simp [finish])).writes t (by simp [Stmt.effects])
      exact ⟨.single (Linear.moves_move_temp hr hv hts₂), .set hts₂ writes, rfl⟩
  | error halt S' =>
    cases halt with
    | fault f =>
      intro hrep
      rcases h hrep with hs | ⟨ts', harr, hv⟩
      · exact hs
      have hcalls := harr.calls.trans htr.calls
      refine .of_steps harr.steps ?_
      cases result with
      | none =>
        by_cases leaf : r.isLeaf
        · -- a leaf has no fault that the effects announce
          have quiet : r.effects.trap = false := by
            cases r <;> simp_all [Expr.isLeaf, Expr.effects]
          exact absurd hrep.announced (Fault.not_isAnnounced (Linear.eval_eq_error r hv quiet))
        · simp only [finish, leaf, Bool.false_eq_true, ↓reduceIte]
          exact .of_faults (Linear.faults_eval hr hv) hcalls
      | some t => exact .of_faults (Linear.faults_move_temp hr hv) hcalls
    | overflow | unfinished => trivial

theorem follows_top_succ (hv : FollowsValue setting p fuel)
    (hv' : FollowsValue setting p (fuel + 1)) (hx : FollowsStmt setting p fuel)
    (ht : FollowsTop setting p fuel) (hc : FollowsCall setting p fuel) :
    FollowsTop setting p (fuel + 1) := by
  intro k e n n' s r rest ts S fx result he hb hn hresult hsuffix hcov htr
  by_cases hcall : ∃ l args, e = .call l args
  · obtain ⟨label, args, rfl⟩ := hcall
    simp only [Ir.Canonical.expr, bind_eq_ok, ↓reduceIte, pure_eq_ok, Prod.mk.injEq] at he
    obtain ⟨parts, m, hargs, ⟨s₁, rs⟩, m₁, hk, ⟨rfl, rfl⟩, rfl⟩ := he
    simp only [Expr.effects, Effects.below_union] at hb
    rw [finish_call] at hsuffix hcov ⊢
    simp only [List.append_assoc, List.cons_append, List.nil_append] at hsuffix ⊢
    have called := follows_call_expr hv hc result hargs hk hb.1 hn hsuffix hcov htr
    generalize Nested.eval setting (fuel + 1) (.call label args) S = res at called
    cases res with
    | ok v S' =>
      obtain ⟨ts₁, hagree, harrives⟩ := called
      intro σ hσ
      obtain ⟨ts', hts', hagree'⟩ := hagree.receive hσ
      have harr := harrives ts' hts'
      exact ⟨ts', harr, hagree', harr.calls.trans htr.calls⟩
    | error halt S' =>
      cases halt with
      | fault f =>
        exact fun hrep => called hrep
      | overflow | unfinished => trivial
  · by_cases heseq : ∃ st e', e = .eseq st e'
    · obtain ⟨st, e', rfl⟩ := heseq
      simp only [Ir.Canonical.expr, bind_eq_ok, pure_eq_ok, Prod.mk.injEq] at he
      obtain ⟨before, m, hst, ⟨s₁, r₁⟩, m₁, he, ⟨rfl, rfl⟩, rfl⟩ := he
      simp only [Expr.effects, Effects.below_union] at hb
      have split := Ir.Canonical.stmt_splits st hst (hb.1.1.mono hn)
      rw [Stmt.code_andThen] at hsuffix hcov ⊢
      simp only [List.append_assoc] at hsuffix hcov ⊢
      obtain ⟨hcov₁, hcov₂⟩ := covers_append.1 hcov
      have first := hx hst hb.1.1 hn hsuffix hcov₁ htr
      rw [Nested.eval, bind_apply]
      generalize Nested.exec setting fuel st S = res at first
      cases res with
      | ok flow S₁ =>
        cases flow with
        | next =>
          obtain ⟨ts₁, harr, htr₁⟩ := first
          have second := ht result he hb.1.2 (Nat.le_trans hn split.le) hresult
            (by rw [List.append_assoc]; exact (List.suffix_append before.code _).trans hsuffix)
            hcov₂ htr₁
          rw [List.append_assoc] at second
          exact second.of_arrives harr
        | jump l =>
          exact fun hrep => (not_reported rfl hrep).elim
      | error halt S₁ =>
        cases halt with
        | fault f =>
          exact fun hrep => first hrep
        | overflow | unfinished => trivial
    · rw [expr_whole (fun l args h => hcall ⟨l, args, h⟩) (fun st e' h => heseq ⟨st, e', h⟩)] at he
      have residual := (Ir.Canonical.expr_splits e he (hb.mono hn)).toResidual.ne_call
      obtain ⟨hcov₁, hcov₂⟩ := covers_append.1 hcov
      rw [List.append_assoc] at hsuffix ⊢
      exact (hv' he hb hn hsuffix hcov₁ htr).finishes residual hcov₂ htr

/-! ## Moves -/

theorem evalAll_two_eq_ok {m : Memory} {a b : Expr} {v w : Value}
    (h : Linear.evalAll m ts [a, b] = .ok [v, w]) :
    Linear.eval m ts a = .ok v ∧ Linear.eval m ts b = .ok w := by
  rw [evalAll_cons, evalAll_cons] at h
  cases ha : Linear.eval m ts a with
  | error f => simp [ha, bind, Except.bind] at h
  | ok v' =>
    cases hb : Linear.eval m ts b with
    | error f => simp [ha, hb, bind, Except.bind] at h
    | ok w' => simpa [ha, hb, bind, Except.bind, Linear.evalAll] using h

/-- An operand of a store whose residual faults is met by the store itself. -/
theorem stops_store {a src : Expr} {f : Fault}
    (hvs : Linear.evalAll S.machine.memory ts [a, src] = .error f) (hcalls : S.calls = k.calls) :
    Stops p (k.config (.move (.mem a) src :: rest) ts S) f S := by
  rw [evalAll_cons, evalAll_cons] at hvs
  cases hva : Linear.eval S.machine.memory ts a with
  | error g =>
    obtain rfl : g = f := by simpa [hva, bind, Except.bind] using hvs
    exact .of_faults (Linear.faults_store (by simp [hva, bind, Except.bind])) hcalls
  | ok va =>
    cases hvsrc : Linear.eval S.machine.memory ts src with
    | ok v => simp [hva, hvsrc, bind, Except.bind, Linear.evalAll] at hvs
    | error g =>
      obtain rfl : g = f := by simpa [hva, hvsrc, bind, Except.bind] using hvs
      cases hint : va.asInt with
      | error e =>
        exact ⟨_, e, k.config rest ts S, .refl,
          Linear.faults_store (by simp [hva, hint, bind, Except.bind]),
          .inr (Fault.isQuiet_of_isSilent (Linear.asInt_eq_error hint)), rfl, rfl, hcalls.symm⟩
      | ok i =>
        exact .of_faults (Linear.faults_store (by simp [hva, hint, hvsrc, bind, Except.bind]))
          hcalls

theorem follows_store (hv : FollowsValue setting p fuel) {a src : Expr} {n m₁ m₂ n' : Temp}
    {left right : Stmt × Expr} {s : Stmt} {a' src' : Expr}
    (ha : Ir.Canonical.expr false a n = .ok left m₁)
    (hsrc : Ir.Canonical.expr false src m₁ = .ok right m₂)
    (hk : Ir.Canonical.keepBoth left right m₂ = .ok (s, a', src') n')
    (hba : a.effects.Below k.limit) (hbs : src.effects.Below k.limit) (hn : k.limit ≤ n)
    (hsuffix : (s.code ++ .move (.mem a') src' :: rest) <:+ k.act.chunk.body)
    (hcov : Covers fx (s.code ++ [.move (.mem a') src'])) (htr : Tracks k ts S) :
    Performs p k (s.code ++ .move (.mem a') src' :: rest) ts S fx rest setting
      (Nested.move setting (fuel + 1) (.mem a) src S) := by
  obtain ⟨hcov₁, hcov₂⟩ := covers_append.1 hcov
  have hstore : fx.store = true :=
    (hcov₂ _ (List.mem_singleton.2 rfl)).store (by simp [Stmt.effects])
  have operands := follows_operands hv (exprs_two ha hsrc) (Nat.le_refl _)
    (Ir.Canonical.keepAll_two hk) (by simpa [Expr.effectsList] using ⟨hba, hbs⟩) hn hsuffix hcov₁
    htr
  have late {S' : Nested.State} {f : Fault}
      (h : Stops p (k.config (s.code ++ .move (.mem a') src' :: rest) ts S) f S' ∨
        ∃ ts', Arrives p k (s.code ++ .move (.mem a') src' :: rest) ts S fx
          (.move (.mem a') src' :: rest) ts' S' ∧
          Linear.evalAll S'.machine.memory ts' [a', src'] = .error f) :
      Stops p (k.config (s.code ++ .move (.mem a') src' :: rest) ts S) f S' := by
    rcases h with hs | ⟨ts', harr, hvs⟩
    · exact hs
    · exact .of_steps harr.steps (stops_store hvs (harr.calls.trans htr.calls))
  rw [mapM_cons_apply] at operands
  rw [Nested.move, bind_apply]
  generalize Nested.eval setting fuel a S = res at operands
  cases res with
  | ok va S₁ =>
    dsimp only at operands ⊢
    rw [mapM_cons_apply] at operands
    rw [bind_apply]
    cases hint : va.asInt with
    | error f =>
      have quiet := Fault.isQuiet_of_isSilent (Linear.asInt_eq_error hint)
      exact fun hrep => absurd hrep.announced (Fault.not_isAnnounced quiet)
    | ok i =>
      simp only [Nested.lift]
      rw [bind_apply]
      generalize Nested.eval setting fuel src S₁ = res at operands
      cases res with
      | ok v S₂ =>
        obtain ⟨ts₂, harr, htr₂, hvs⟩ := operands
        obtain ⟨hva, hvsrc⟩ := evalAll_two_eq_ok hvs
        simp only [bind_apply, Nested.onMachine, Machine.onMemory]
        cases hm : Memory.store i.toInt v S₂.machine.memory with
        | error h m' =>
          obtain ⟨rfl, -⟩ := Memory.store_eq_error hm
          exact fun hrep => absurd hrep.announced (Fault.not_isAnnounced rfl)
        | ok _ m' =>
          obtain ⟨hlabels, hregisters⟩ := Memory.store_keeps hm
          refine ⟨ts₂, harr.trans ⟨.single (Linear.moves_store hva hint hvsrc hm), ?_, rfl⟩,
            htr₂.agree, htr₂.calls⟩
          exact ⟨hlabels, hregisters, fun _ hs => (by rw [hstore] at hs; cases hs), fun _ _ => rfl⟩
      | error halt S₂ =>
        cases halt with
        | fault f =>
          exact fun hrep => late (operands hrep)
        | overflow | unfinished => trivial
  | error halt S₁ =>
    cases halt with
    | fault f =>
      exact fun hrep => late (operands hrep)
    | overflow | unfinished => trivial

theorem follows_move_succ (hv : FollowsValue setting p fuel) (hx : FollowsStmt setting p fuel)
    (ht : FollowsTop setting p fuel) (hm : FollowsMove setting p fuel) :
    FollowsMove setting p (fuel + 1) := by
  intro k dst src n n' s rest ts S fx hs hbd hbs hn hsuffix hcov htr
  cases dst with
  | temp t =>
    simp only [Ir.Canonical.move, bind_eq_ok, pure_eq_ok] at hs
    obtain ⟨⟨s₁, r⟩, m, hsrc, rfl, rfl⟩ := hs
    rw [Stmt.code_andThen, Stmt.code_move] at hsuffix hcov ⊢
    have source := ht (some t) hsrc hbs hn
      (by rintro u ⟨⟩; exact hbd.1 t (by simp [Expr.effects])) hsuffix hcov htr
    rw [Nested.move, bind_apply]
    generalize Nested.eval setting fuel src S = res at source
    cases res with
    | ok v S₁ =>
      dsimp only
      rw [bind_apply, Nested.writeTemp]
      cases hset : S₁.temps.set t v with
      | error f =>
        exact fun hrep =>
          absurd hrep.announced (Fault.not_isAnnounced (Temps.set_eq_error hset ▸ rfl))
      | ok σ =>
        obtain ⟨ts', harr, htr'⟩ := source σ hset
        exact ⟨ts', ⟨harr.steps, harr.kept, harr.calls⟩, htr'⟩
    | error halt S₁ =>
      cases halt with
      | fault f =>
        exact fun hrep => source hrep
      | overflow | unfinished => trivial
  | mem a =>
    simp only [Ir.Canonical.move, bind_eq_ok, pure_eq_ok] at hs
    obtain ⟨left, m₁, ha, right, m₂, hsrc, ⟨s₁, a', src'⟩, m₃, hk, rfl, rfl⟩ := hs
    rw [Stmt.code_andThen, Stmt.code_move] at hsuffix hcov ⊢
    simp only [List.append_assoc, List.cons_append, List.nil_append] at hsuffix ⊢
    have stored := follows_store hv ha hsrc hk (by simpa [Expr.effects] using hbd) hbs hn hsuffix
      hcov htr
    exact .of_arrives .refl stored
  | eseq st e =>
    simp only [Ir.Canonical.move, bind_eq_ok, pure_eq_ok] at hs
    obtain ⟨before, m, hst, after, m₁, hmove, rfl, rfl⟩ := hs
    simp only [Expr.effects, Effects.below_union] at hbd
    have split := Ir.Canonical.stmt_splits st hst (hbd.1.1.mono hn)
    simp only [Stmt.code_seq, Stmt.codeList_cons, Stmt.codeList_nil, List.append_nil,
      List.append_assoc] at hsuffix hcov ⊢
    obtain ⟨hcov₁, hcov₂⟩ := covers_append.1 hcov
    have first := hx hst hbd.1.1 hn hsuffix hcov₁ htr
    rw [Nested.move, bind_apply]
    generalize Nested.exec setting fuel st S = res at first
    cases res with
    | ok flow S₁ =>
      cases flow with
      | next =>
        obtain ⟨ts₁, harr, htr₁⟩ := first
        have second := hm hmove hbd.1.2 hbs (Nat.le_trans hn split.le)
          ((List.suffix_append before.code _).trans hsuffix) hcov₂ htr₁
        exact .of_arrives harr second
      | jump l =>
        exact first
    | error halt S₁ =>
      cases halt with
      | fault f =>
        exact fun hrep => first hrep
      | overflow | unfinished => trivial
  | _ => simp [Ir.Canonical.move, throw_apply] at hs

/-! ## Statements -/

/-- Counting a statement changes nothing that the linear machine shares. -/
theorem Performs.of_tick {rest' : List Stmt} {x : Nested.EvalM Nested.Flow} (htr : Tracks k ts S)
    (h : ∀ S₁, Tracks k ts S₁ → Performs p k rest ts S₁ fx rest' setting (x S₁)) :
    Performs p k rest ts S fx rest' setting
      ((do Nested.tick setting; x : Nested.EvalM _) S) := by
  obtain ⟨⟨m, host, steps⟩, calls, σ⟩ := S
  have harr : Arrives p k rest ts ⟨⟨m, host, steps⟩, calls, σ⟩ fx rest ts
      ⟨⟨m, host, steps + 1⟩, calls, σ⟩ := ⟨.refl, .refl _ _ _, rfl⟩
  have counted : Performs p k rest ts ⟨⟨m, host, steps⟩, calls, σ⟩ fx rest'
      setting
      (x ⟨⟨m, host, steps + 1⟩, calls, σ⟩) :=
    .of_arrives harr (h _ ⟨htr.agree, htr.calls⟩)
  simp only [bind_apply, Nested.tick, Nested.onMachine, Machine.tick]
  cases hb : setting.budget with
  | none => exact counted
  | some limit =>
    by_cases past : limit < steps + 1
    · simp only [past, ↓reduceIte]
      exact fun hrep => by cases hrep.budget.symm.trans hb
    · simp only [past, ↓reduceIte]
      exact counted

theorem follows_stmt_succ (hv : FollowsValue setting p fuel) (ht : FollowsTop setting p fuel)
    (hf : FollowsFrom setting p fuel) (hm : FollowsMove setting p fuel) :
    FollowsStmt setting p (fuel + 1) := by
  intro k st n n' s rest ts S fx hs hb hn hsuffix hcov htr
  cases st with
  | seq ss =>
    simp only [Ir.Canonical.stmt, bind_eq_ok, pure_eq_ok] at hs
    obtain ⟨ss', m, hss, rfl, rfl⟩ := hs
    obtain ⟨fs, hfs, hcode⟩ := Ir.Canonical.stmts_flattenList ss hss
    rw [Stmt.code_seq, ← hcode] at hsuffix hcov ⊢
    have none : Ir.Canonical.stmts [] n = .ok [] n := rfl
    have all :=
      hf none hfs (Stmt.effectsList_below.2 (Stmt.flattenList_below ss hb)) hn hsuffix hcov htr
    exact .of_arrives .refl all
  | label l =>
    simp only [Ir.Canonical.stmt, pure_eq_ok] at hs
    obtain ⟨rfl, rfl⟩ := hs
    exact ⟨ts, ⟨.single Linear.moves_label, .refl _ _ _, rfl⟩, htr⟩
  | jump l =>
    simp only [Ir.Canonical.stmt, pure_eq_ok] at hs
    obtain ⟨rfl, rfl⟩ := hs
    refine .of_tick htr fun S₁ htr₁ target htarget => ?_
    exact ⟨ts, ⟨.single (Linear.moves_jump htarget), .refl _ _ _, rfl⟩, htr₁⟩
  | cjump c l l' =>
    simp only [Ir.Canonical.stmt, bind_eq_ok, pure_eq_ok] at hs
    obtain ⟨⟨s₁, r⟩, m, hc, rfl, rfl⟩ := hs
    rw [Stmt.code_andThen, Stmt.code_cjump] at hsuffix hcov ⊢
    simp only [List.append_assoc, List.cons_append, List.nil_append] at hsuffix ⊢
    simp only [Stmt.effects, Effects.below_union] at hb
    obtain ⟨hcov₁, hcov₂⟩ := covers_append.1 hcov
    refine .of_tick htr fun S₁ htr₁ => ?_
    have cond := hv hc hb.1 hn hsuffix hcov₁ htr₁
    rw [bind_apply]
    generalize Nested.eval setting fuel c S₁ = res at cond
    cases res with
    | ok v S₂ =>
      obtain ⟨ts₂, harr, htr₂, hv₂⟩ := cond
      dsimp only
      rw [bind_apply]
      cases htruth : v.isTruthy with
      | error f =>
        have quiet := Fault.isQuiet_of_isSilent (Linear.isTruthy_eq_error htruth)
        exact fun hrep => absurd hrep.announced (Fault.not_isAnnounced quiet)
      | ok b =>
        intro target htarget
        exact ⟨ts₂, harr.trans ⟨.single (Linear.moves_cjump hv₂ htruth htarget), .refl _ _ _, rfl⟩,
          htr₂⟩
    | error halt S₂ =>
      cases halt with
      | fault f =>
        intro hrep
        rcases cond hrep with hs | ⟨ts₂, harr, hv₂⟩
        · exact hs
        · exact .of_steps harr.steps
            (.of_faults (Linear.faults_cjump hv₂) (harr.calls.trans htr₁.calls))
      | overflow | unfinished => trivial
  | move dst src =>
    obtain ⟨hbd, hbs⟩ := Ir.Canonical.below_move.1 hb
    exact .of_tick htr fun S₁ htr₁ => hm hs hbd hbs hn hsuffix hcov htr₁
  | eval e =>
    simp only [Ir.Canonical.stmt, bind_eq_ok, pure_eq_ok] at hs
    obtain ⟨⟨s₁, r⟩, m, he, rfl, rfl⟩ := hs
    have code : (if r.isLeaf then s₁ else s₁.andThen (.eval r)).code =
        s₁.code ++ finish none r := by
      by_cases leaf : r.isLeaf
      · simp [finish, leaf]
      · simp [finish, leaf, Stmt.code_andThen, Stmt.code_eval (by simpa using leaf)]
    rw [code] at hsuffix hcov ⊢
    refine .of_tick htr fun S₁ htr₁ => ?_
    have source := ht none he (by simpa [Stmt.effects] using hb) hn (by simp) hsuffix hcov htr₁
    rw [bind_apply]
    generalize Nested.eval setting fuel e S₁ = res at source
    cases res with
    | ok v S₂ =>
      exact source S₂.temps rfl
    | error halt S₂ =>
      cases halt with
      | fault f =>
        exact source
      | overflow | unfinished => trivial

theorem follows_from_succ (hx : FollowsStmt setting p fuel) (hf : FollowsFrom setting p fuel) :
    FollowsFrom setting p (fuel + 1) := by
  intro k before after before' after' n m n' rest ts S fx hbefore hafter hb hn hsuffix hcov htr
  cases after with
  | nil =>
    simp only [Ir.Canonical.stmts, pure_eq_ok] at hafter
    obtain ⟨rfl, rfl⟩ := hafter
    exact ⟨ts, .refl, htr⟩
  | cons st after =>
    have whole : Ir.Canonical.stmts (before ++ st :: after) n = .ok (before' ++ after') n' :=
      Ir.Canonical.stmts_append.2 ⟨before', m, after', hbefore, hafter, rfl⟩
    simp only [Ir.Canonical.stmts, bind_eq_ok, pure_eq_ok] at hafter
    obtain ⟨s, m₁, hst, after', m₂, hafter, rfl, rfl⟩ := hafter
    have below := Stmt.effectsList_below.1 hb
    have hm : k.limit ≤ m := Nat.le_trans hn
      (Ir.Canonical.stmts_splits before hbefore (.mono (Stmt.effectsList_below.2 fun s hs =>
        below s (List.mem_append_left _ hs)) hn)).le
    have here : (s.code ++ (Stmt.codeList after' ++ rest)) <:+ k.act.chunk.body := by
      refine .trans ?_ hsuffix
      simp only [Stmt.codeList_append, Stmt.codeList_cons, List.append_assoc]
      exact List.suffix_append _ _
    have covers : Covers fx s.code := by
      simp only [Stmt.codeList_append, Stmt.codeList_cons, covers_append] at hcov
      exact hcov.2.1
    have first := hx hst (below st (by simp)) hm here covers htr
    rw [Nested.execFrom, bind_apply, Stmt.codeList_cons, List.append_assoc]
    generalize Nested.exec setting fuel st S = res at first
    cases res with
    | ok flow S₁ =>
      cases flow with
      | next =>
        obtain ⟨ts₁, harr, htr₁⟩ := first
        have hbefore' : Ir.Canonical.stmts (before ++ [st]) n = .ok (before' ++ [s]) m₁ :=
          Ir.Canonical.stmts_append.2 ⟨before', m, [s], hbefore, by
            simp only [Ir.Canonical.stmts, bind_eq_ok, pure_eq_ok]
            exact ⟨s, m₁, hst, [], m₁, ⟨rfl, rfl⟩, rfl, rfl⟩, rfl⟩
        have next := hf hbefore' hafter (by simpa using hb) hn (by simpa using hsuffix)
          (by simpa using hcov) htr₁
        rw [List.append_assoc] at next
        exact .of_arrives harr next
      | jump l =>
        dsimp only
        cases hseek : Nested.seek l (before ++ st :: after) with
        | none => exact first
        | some target =>
          -- the target stands in this sequence, so its code stands in the chunk
          obtain ⟨b, r, hall, rfl⟩ := nested_seek_eq_some hseek
          rw [hall] at whole hb ⊢
          obtain ⟨b', j, r', hb', hr', hcode⟩ := Ir.Canonical.stmts_append.1 whole
          rw [hcode] at hsuffix hcov
          have hr := hr'
          simp only [Ir.Canonical.stmts, Ir.Canonical.stmt, bind_eq_ok, pure_eq_ok] at hr
          obtain ⟨_, _, ⟨rfl, rfl⟩, r'', _, -, rfl, -⟩ := hr
          have place : (.label l :: (Stmt.codeList r'' ++ rest)) <:+ k.act.chunk.body := by
            refine .trans ?_ hsuffix
            simp only [Stmt.codeList_append, Stmt.codeList_cons, Stmt.code_label, List.append_assoc,
              List.cons_append, List.nil_append]
            exact List.suffix_append _ _
          obtain ⟨ts₁, harr, htr₁⟩ := first _ (seek_of_suffix k.labels place)
          have next := hf hb' hr' hb hn hsuffix hcov htr₁
          exact .of_arrives harr next
    | error halt S₁ =>
      cases halt with
      | fault f =>
        exact fun hrep => first hrep
      | overflow | unfinished => trivial

/-! ## Evaluations -/

/-- The linear machine follows every evaluation of a program whose chunks define each label once. -/
theorem follows (hp : setting.program.canonical = .ok p)
    (hl : ∀ c ∈ setting.program.init :: setting.program.chunks, c.body.labels.Nodup) (fuel : Nat) :
    FollowsValue setting p fuel ∧ FollowsTop setting p fuel ∧ FollowsStmt setting p fuel ∧
      FollowsFrom setting p fuel ∧ FollowsMove setting p fuel ∧ FollowsCall setting p fuel := by
  induction fuel with
  | zero =>
    exact ⟨fun _ _ _ _ _ _ => trivial, fun _ _ _ _ _ _ _ _ => trivial,
      fun _ _ _ _ _ _ => trivial, fun _ _ _ _ _ _ _ => trivial, fun _ _ _ _ _ _ _ => trivial,
      by intro _ _ _ _ _ _ _ _ _ _ _ _ _; trivial⟩
  | succ fuel ih =>
    obtain ⟨hv, ht, hx, hf, hm, hc⟩ := ih
    have hv' : FollowsValue setting p (fuel + 1) := follows_value_succ hv hx hc
    exact ⟨hv', follows_top_succ hv hv' hx ht hc, follows_stmt_succ hv ht hf hm,
      follows_from_succ hx hf, follows_move_succ hv hx ht hm, follows_call_succ hx hp hl⟩

end PinsBackend.Canonical
