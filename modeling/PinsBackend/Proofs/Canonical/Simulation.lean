import PinsBackend.Proofs.Canonical.Following
import PinsBackend.Proofs.Machine.Calls
import PinsBackend.Proofs.Machine.Memory

/-! Linear code follows the evaluation of the tree code it comes from.

The induction is on the fuel of the evaluator. `FollowsValue`, `FollowsTop`, `FollowsStmt`,
`FollowsFrom`, `FollowsMove` and `FollowsCall` say for one amount of fuel that the linear machine
follows the six kinds of evaluation; `follows` proves them together. -/
namespace PinsBackend.Canonical

open Ir

variable {ts₁ : Temps} {S₁ : Nested.State} {result : Option Temp} {t : Temp} {v : Value} {r : Expr}
  {rs args : List Expr}

variable {setting : Nested.Setting} {p : LinearProgram} {fuel : Nat} {k : Track} {rest : List Stmt}
  {ts : Temps} {S : Nested.State} {fx : Effects} {f : Expr → Nested.EvalM Value} {label : String}
  {c : Chunk Stmt}

/-- Values of expressions, through their residuals. -/
def FollowsValue (setting : Nested.Setting) (p : LinearProgram) (fuel : Nat) : Prop :=
  ∀ {k : Track} {e : Expr} {n n' : Temp} {s : Stmt} {r : Expr} {rest : List Stmt} {ts : Temps}
    {S : Nested.State} {fx : Effects},
    Ir.Canonical.expr false e n = .ok (s, r) n' → e.effects.Below k.limit → k.limit ≤ n →
    (s.code ++ rest) <:+ k.act.chunk.body → Covers fx s.code → Tracks k ts S →
    Delivers p k (s.code ++ rest) ts S fx rest setting
      (fun m ts => Linear.eval m ts r) (Nested.eval setting fuel e S)

/-- Statements. -/
def FollowsStmt (setting : Nested.Setting) (p : LinearProgram) (fuel : Nat) : Prop :=
  ∀ {k : Track} {st : Stmt} {n n' : Temp} {s : Stmt} {rest : List Stmt} {ts : Temps}
    {S : Nested.State} {fx : Effects},
    Ir.Canonical.stmt st n = .ok s n' → st.effects.Below k.limit → k.limit ≤ n →
    (s.code ++ rest) <:+ k.act.chunk.body → Covers fx s.code → Tracks k ts S →
    Performs p k (s.code ++ rest) ts S fx rest setting
      (Nested.exec setting fuel st S)

/-- The rest of a flattened sequence. -/
def FollowsFrom (setting : Nested.Setting) (p : LinearProgram) (fuel : Nat) : Prop :=
  ∀ {k : Track} {before after before' after' : List Stmt} {n m n' : Temp} {rest : List Stmt}
    {ts : Temps} {S : Nested.State} {fx : Effects},
    Ir.Canonical.stmts before n = .ok before' m → Ir.Canonical.stmts after m = .ok after' n' →
    (Stmt.effectsList (before ++ after)).Below k.limit → k.limit ≤ n →
    (Stmt.codeList (before' ++ after') ++ rest) <:+ k.act.chunk.body →
    Covers fx (Stmt.codeList (before' ++ after')) → Tracks k ts S →
    Performs p k (Stmt.codeList after' ++ rest) ts S fx rest setting
      (Nested.execFrom setting fuel (before ++ after) after S)

/-- Moves, by their destination. -/
def FollowsMove (setting : Nested.Setting) (p : LinearProgram) (fuel : Nat) : Prop :=
  ∀ {k : Track} {dst src : Expr} {n n' : Temp} {s : Stmt} {rest : List Stmt} {ts : Temps}
    {S : Nested.State} {fx : Effects},
    Ir.Canonical.move (Ir.Canonical.expr true src) (Ir.Canonical.expr false src) dst n =
      .ok s n' →
    dst.effects.Below k.limit → src.effects.Below k.limit → k.limit ≤ n →
    (s.code ++ rest) <:+ k.act.chunk.body → Covers fx s.code → Tracks k ts S →
    Performs p k (s.code ++ rest) ts S fx rest setting
      (Nested.move setting fuel dst src S)

/-- The code that takes what is left of an expression: a move into a temporary, or an `eval` unless
nothing is left to evaluate. -/
def finish (result : Option Temp) (r : Expr) : List Stmt :=
  match result with
  | some t => [.move (.temp t) r]
  | none => if r.isLeaf then [] else [.eval r]

/-- The machine follows an evaluation whose value goes to a temporary or is dropped. -/
def Finishes (p : LinearProgram) (k : Track) (rest : List Stmt) (ts : Temps) (S : Nested.State)
    (fx : Effects) (rest' : List Stmt) (setting : Nested.Setting) (result : Option Temp) :
    EStateM.Result (Halt Fault) Nested.State Value → Prop
  | .ok v S' => ∀ σ, S'.temps.receive result v = .ok σ →
      ∃ ts', Arrives p k rest ts S fx rest' ts' S' ∧ Tracks k ts' { S' with temps := σ }
  | .error (.fault f) S' => Reported setting f S' → Stops p (k.config rest ts S) f S'
  | .error _ _ => True

theorem Finishes.of_arrives {rest₁ rest₂ : List Stmt}
    {res : EStateM.Result (Halt Fault) Nested.State Value}
    (h : Finishes p k rest₁ ts₁ S₁ fx rest₂ setting result res)
    (ha : Arrives p k rest ts S fx rest₁ ts₁ S₁) :
    Finishes p k rest ts S fx rest₂ setting result res := by
  cases res with
  | ok v S' =>
    intro σ hσ
    obtain ⟨ts', harr, htr⟩ := h σ hσ
    exact ⟨ts', ha.trans harr, htr⟩
  | error halt S' =>
    cases halt with
    | fault f =>
      exact fun hrep => (h hrep).of_steps ha.steps
    | overflow | unfinished => trivial

/-- Expressions that are the whole source of a move or the whole of an `eval`. -/
def FollowsTop (setting : Nested.Setting) (p : LinearProgram) (fuel : Nat) : Prop :=
  ∀ {k : Track} {e : Expr} {n n' : Temp} {s : Stmt} {r : Expr} {rest : List Stmt} {ts : Temps}
    {S : Nested.State} {fx : Effects} (result : Option Temp),
    Ir.Canonical.expr true e n = .ok (s, r) n' → e.effects.Below k.limit → k.limit ≤ n →
    (∀ t, result = some t → t < k.limit) →
    (s.code ++ finish result r ++ rest) <:+ k.act.chunk.body →
    Covers fx (s.code ++ finish result r) → Tracks k ts S →
    Finishes p k (s.code ++ finish result r ++ rest) ts S fx rest setting result
      (Nested.eval setting fuel e S)

/-- The machine follows a call whose arguments are evaluated. -/
def Calls (p : LinearProgram) (k : Track) (label : String) (args : List Expr)
    (rest : List Stmt) (ts : Temps) (S : Nested.State) (fx : Effects) (setting : Nested.Setting)
    (result : Option Temp) : EStateM.Result (Halt Fault) Nested.State Value → Prop
  | .ok v S' => S'.temps = S.temps ∧ ∀ ts', ts.receive result v = .ok ts' →
      Arrives p k (Linear.callStmt result (.call label args) :: rest) ts S fx rest ts' S'
  | .error (.fault f) S' => Reported setting f S' →
      Stops p (k.config (Linear.callStmt result (.call label args) :: rest) ts S) f S'
  | .error _ _ => True

def FollowsCall (setting : Nested.Setting) (p : LinearProgram) (fuel : Nat) : Prop :=
  ∀ {k : Track} (label : String) {args : List Expr} {vs : List Value} (rest : List Stmt)
    {ts : Temps} {S : Nested.State} {fx : Effects} (result : Option Temp),
    Linear.evalAll S.machine.memory ts args = .ok vs → Tracks k ts S → fx.call = true →
    (∀ t, result = some t → t ∈ fx.writes) →
    Calls p k label args rest ts S fx setting result
      (Nested.call setting fuel label vs S)

theorem Tracks.get (h : Tracks k ts S) (ht : t < k.limit) :
    ts.get S.machine.memory t = S.temps.get S.machine.memory t := by
  simp only [Temps.get_eq, h.agree t ht]

/-- The temporaries of the linear code are none of the tree code. -/
theorem Tracks.set {ts' : Temps} (h : Tracks k ts S) (le : k.limit ≤ t)
    (hset : ts.set t v = .ok ts') : Tracks k ts' S := by
  refine ⟨fun u hu => ?_, h.calls⟩
  rw [Temps.read_set hset, if_neg, h.agree u hu]
  rintro rfl
  exact absurd (Nat.lt_of_lt_of_le hu le) (Nat.lt_irrefl _)

theorem Track.ne_fp (k : Track) (le : k.limit ≤ t) : t ≠ Temp.fp := by
  rintro rfl
  exact absurd (Nat.le_trans k.two_le le) (by decide)

theorem evalAll_cons (m : Memory) (ts : Temps) (e : Expr) (es : List Expr) :
    Linear.evalAll m ts (e :: es) =
      Linear.eval m ts e >>= fun v => Linear.evalAll m ts es >>= fun vs => .ok (v :: vs) := rfl

/-! ## Operands -/

/-- An operand whose fault was met, with a statement behind it that commutes with it: the machine
runs that statement and then finds the fault. -/
theorem late_fault {after : Stmt} (rest : List Stmt) {f : Fault} (hc : commutes after r = true)
    (hr : Linear.eval S.machine.memory ts r = .error f) (hf : f.isAnnounced = true)
    (hcalls : S.calls = k.calls) :
    Stops p (k.config (after.code ++ rest) ts S) f S ∨
    ∃ ts', Arrives p k (after.code ++ rest) ts S after.effects rest ts' S ∧
      Linear.eval S.machine.memory ts' r = .error f := by
  have loud := Fault.isQuiet_of_isAnnounced hf
  have trap : r.effects.trap = true := by
    cases ht : r.effects.trap with
    | true => rfl
    | false => rw [Linear.eval_eq_error r hr ht] at loud; cases loud
  rcases Linear.commutes_cases hc with
    hn | ⟨v, rfl⟩ | ⟨l, rfl⟩ | ⟨t, rfl, -⟩ | ⟨hcall, hstore, h, -⟩
  · rw [Stmt.code_of_isNop hn, List.nil_append]
    exact .inr ⟨ts, .refl, hr⟩
  · simp [Expr.effects] at trap
  · simp [Expr.effects] at trap
  · simp [Expr.effects] at trap
  · obtain ⟨htrap, hjump⟩ := h trap
    rcases Linear.runs_straight hcall hstore htrap hjump after.code (covers_code after) rest ts with
      ⟨ts', steps, kept⟩ | quiet
    · refine .inr ⟨ts', ⟨steps, kept, rfl⟩, ?_⟩
      rw [Linear.eval_of_commutes hc kept, hr]
    · exact .inl (.of_quiet quiet hcalls)

theorem mapM_cons_apply (e : Expr) (es : List Expr) (S : Nested.State) :
    (e :: es).mapM f S = match f e S with
      | .ok v S₁ => match es.mapM f S₁ with
        | .ok vs S₂ => .ok (v :: vs) S₂
        | .error h S₂ => .error h S₂
      | .error h S₁ => .error h S₁ := by
  rw [List.mapM_cons, bind_apply]
  cases f e S with
  | error => rfl
  | ok v S₁ =>
    dsimp only
    rw [bind_apply]
    cases es.mapM f S₁ <;> rfl

/-- The operands behind one that has its value `v`. They keep this value, and theirs follow it. -/
theorem Delivers.behind {code : List Stmt} {after : Stmt}
    {res : EStateM.Result (Halt Fault) Nested.State (List Value)}
    (harr : Arrives p k code ts S fx (after.code ++ rest) ts₁ S₁) (le : after.effects.Le fx)
    (stays : ∀ {m ts₂}, Linear.Kept after.effects S₁.machine.memory ts₁ m ts₂ →
      Linear.eval m ts₂ r = .ok v) :
    Delivers p k (after.code ++ rest) ts₁ S₁ after.effects rest setting
      (fun m ts => Linear.evalAll m ts rs) res →
    Delivers p k code ts S fx rest setting (fun m ts => Linear.evalAll m ts (r :: rs))
      (match res with
        | .ok vs S₂ => .ok (v :: vs) S₂
        | .error h S₂ => .error h S₂) := by
  intro tail
  cases res with
  | ok vs S₂ =>
    obtain ⟨ts₂, harr₂, htr₂, hvs⟩ := tail
    refine ⟨ts₂, harr.trans (harr₂.mono le), htr₂, ?_⟩
    dsimp only at hvs ⊢
    rw [evalAll_cons, stays harr₂.kept, hvs]
    rfl
  | error halt S₂ =>
    cases halt with
    | fault f =>
      intro hrep
      rcases tail hrep with hs | ⟨ts₂, harr₂, hvs⟩
      · exact .inl (hs.of_steps harr.steps)
      · refine .inr ⟨ts₂, harr.trans (harr₂.mono le), ?_⟩
        dsimp only at hvs ⊢
        rw [evalAll_cons, stays harr₂.kept, hvs]
        rfl
    | overflow | unfinished => trivial

/-- A word is saved in a temporary of the linear code. It is there as long as nothing is written to
this temporary. -/
theorem arrives_save (le : k.limit ≤ t) (call : ∀ l args, r ≠ .call l args)
    (hv : Linear.eval S.machine.memory ts r = .ok v) (writes : t ∈ fx.writes)
    (htr : Tracks k ts S) :
    ∃ ts', Arrives p k (.move (.temp t) r :: rest) ts S fx rest ts' S ∧ Tracks k ts' S ∧
      ∀ {fx' m ts₂}, t ∉ fx'.writes → Linear.Kept fx' S.machine.memory ts' m ts₂ →
        Linear.eval m ts₂ (.temp t) = .ok v := by
  have tfp := k.ne_fp le
  have hset : ts.set t v = .ok ⟨ts.values.insert t v⟩ := Temps.set_eq_ok.2 ⟨tfp, rfl⟩
  refine ⟨_, ⟨.single (Linear.moves_move_temp call hv hset), .set hset writes, rfl⟩,
    htr.set le hset, fun fresh hkept => ?_⟩
  simp [Linear.eval, Temps.get_eq, tfp, hkept.temps t fresh, Temps.read_set hset]

/-- Operands from left to right. Each one keeps its value while the later ones run: it commutes with
their statement, or it was saved in a temporary that they do not write. -/
theorem follows_operands (ih : FollowsValue setting p fuel) {es : List Expr} :
    ∀ {n m m₁ n' : Temp} {parts : List (Stmt × Expr)} {s : Stmt} {rs : List Expr}
      {rest : List Stmt} {ts : Temps} {S : Nested.State} {fx : Effects},
    Ir.Canonical.exprs es n = .ok parts m → m ≤ m₁ →
    Ir.Canonical.keepAll parts m₁ = .ok (s, rs) n' →
    (Expr.effectsList es).Below k.limit → k.limit ≤ n →
    (s.code ++ rest) <:+ k.act.chunk.body → Covers fx s.code → Tracks k ts S →
    Delivers p k (s.code ++ rest) ts S fx rest setting
      (fun m ts => Linear.evalAll m ts rs) (es.mapM (Nested.eval setting fuel) S) := by
  induction es with
  | nil =>
    intro n m m₁ n' parts s rs rest ts S fx hes _ hk _ _ _ _ htr
    simp only [Ir.Canonical.exprs, pure_eq_ok] at hes
    obtain ⟨rfl, rfl⟩ := hes
    simp only [Ir.Canonical.keepAll, pure_eq_ok, Prod.mk.injEq] at hk
    obtain ⟨⟨rfl, rfl⟩, rfl⟩ := hk
    exact ⟨ts, .refl, htr, rfl⟩
  | cons e es ihes =>
    intro n m m₁ n' parts s rs rest ts S fx hes hm hk hb hn hsuffix hcov htr
    simp only [Ir.Canonical.exprs, bind_eq_ok, pure_eq_ok] at hes
    obtain ⟨⟨s₁, r₁⟩, n₁, he, parts', n₂, hes', rfl, rfl⟩ := hes
    simp only [Ir.Canonical.keepAll, bind_eq_ok, pure_eq_ok, Prod.mk.injEq] at hk
    obtain ⟨⟨after, rs'⟩, m₂, hrest, ⟨before, r'⟩, m₃, hkeep, ⟨rfl, rfl⟩, rfl⟩ := hk
    dsimp only at hkeep hsuffix hcov ⊢
    simp only [Expr.effectsList, Effects.below_union] at hb
    have left := Ir.Canonical.expr_splits e he (hb.1.mono hn)
    have hn₁ : k.limit ≤ n₁ := Nat.le_trans hn left.le
    have right := Ir.Canonical.exprs_splits es hes' (hb.2.mono hn₁)
    have prepared := (Ir.Canonical.keepAll_prepares hrest fun part hp =>
      ⟨(right.each part hp).1.mono hm, (right.each part hp).2⟩).1
    rw [mapM_cons_apply]
    rcases Ir.Canonical.keep_cases hkeep with ⟨hc, rfl, rfl, rfl⟩ | ⟨-, rfl, rfl, rfl⟩
    · -- the operand keeps its place
      rw [Stmt.code_andThen] at hsuffix hcov ⊢
      rw [List.append_assoc] at hsuffix ⊢
      have hcov' := covers_append.1 hcov
      have le := flatten_le_of_covers after hcov'.2
      have first := ih he hb.1 hn hsuffix hcov'.1 htr
      generalize Nested.eval setting fuel e S = res at first
      cases res with
      | ok v S₁ =>
        obtain ⟨ts₁, harr, htr₁, hv⟩ := first
        have tail := ihes hes' hm hrest hb.2 hn₁
          ((List.suffix_append s₁.code _).trans hsuffix) (covers_code after) htr₁
        exact .behind harr le (fun hkept => (Linear.eval_of_commutes hc hkept).trans hv) tail
      | error halt S₁ =>
        cases halt with
        | fault f =>
          intro hrep
          rcases first hrep with hs | ⟨ts₁, harr, hv⟩
          · exact .inl hs
          · rcases late_fault rest hc hv hrep.announced (harr.calls.trans htr.calls) with
              hs | ⟨ts₂, harr₂, hv₂⟩
            · exact .inl (hs.of_steps harr.steps)
            · refine .inr ⟨ts₂, harr.trans (harr₂.mono le), ?_⟩
              dsimp only
              rw [evalAll_cons, hv₂]
              rfl
        | overflow | unfinished => trivial
    · -- the operand is saved in the temporary `m₂`
      rw [Stmt.code_andThen, Stmt.code_andThen, Stmt.code_move] at hsuffix hcov ⊢
      simp only [List.append_assoc, List.cons_append, List.nil_append] at hsuffix hcov ⊢
      have hcov' := covers_append.1 hcov
      have hcov'' := covers_cons.1 hcov'.2
      have le := flatten_le_of_covers after hcov''.2
      have first := ih he hb.1 hn hsuffix hcov'.1 htr
      have call : ∀ l args, r₁ ≠ .call l args := left.toResidual.ne_call
      generalize Nested.eval setting fuel e S = res at first
      cases res with
      | ok v S₁ =>
        obtain ⟨ts₁, harr, htr₁, hv⟩ := first
        have tle : k.limit ≤ m₂ :=
          Nat.le_trans hn₁ (Nat.le_trans right.le (Nat.le_trans hm prepared.le))
        have fresh : m₂ ∉ after.effects.writes := fun ht =>
          absurd (prepared.writes m₂ ht) (Nat.lt_irrefl _)
        obtain ⟨ts₂, hmove, htr₂, saved⟩ := arrives_save tle call hv
          (hcov''.1.writes m₂ (by simp [Stmt.effects])) htr₁
        have tail := ihes hes' hm hrest hb.2 hn₁ (((List.suffix_cons _ _).trans
          (List.suffix_append s₁.code _)).trans hsuffix) (covers_code after) htr₂
        exact .behind (harr.trans hmove) le (saved fresh) tail
      | error halt S₁ =>
        cases halt with
        | fault f =>
          intro hrep
          rcases first hrep with hs | ⟨ts₁, harr, hv⟩
          · exact .inl hs
          · exact .inl (.of_steps harr.steps
              (.of_faults (Linear.faults_move_temp call hv) (harr.calls.trans htr.calls)))
        | overflow | unfinished => trivial

/-! ## Values -/

theorem exprs_one {e : Expr} {n n' : Temp} {part : Stmt × Expr}
    (h : Ir.Canonical.expr false e n = .ok part n') :
    Ir.Canonical.exprs [e] n = .ok [part] n' := by
  simp only [Ir.Canonical.exprs, bind_eq_ok, pure_eq_ok]
  exact ⟨part, n', h, [], n', ⟨rfl, rfl⟩, rfl, rfl⟩

theorem exprs_two {l : Expr} {n m n' : Temp} {left right : Stmt × Expr}
    (hl : Ir.Canonical.expr false l n = .ok left m)
    (hr : Ir.Canonical.expr false r m = .ok right n') :
    Ir.Canonical.exprs [l, r] n = .ok [left, right] n' := by
  rw [Ir.Canonical.exprs, bind_eq_ok]
  refine ⟨left, m, hl, ?_⟩
  rw [bind_eq_ok]
  exact ⟨[right], n', exprs_one hr, rfl⟩

theorem mapM_one_apply {e : Expr} {g : Value → Nested.EvalM β} (g' : List Value → Nested.EvalM β)
    (hg : ∀ v, g' [v] = g v) (S : Nested.State) :
    ((f e >>= g : Nested.EvalM β) S) = (([e].mapM f >>= g' : Nested.EvalM β) S) := by
  rw [bind_apply, bind_apply, mapM_cons_apply]
  cases f e S with
  | error => rfl
  | ok v S₁ => simp only [List.mapM_nil, pure_apply, hg]

theorem mapM_two_apply {l : Expr} {g : Value → Value → Nested.EvalM β}
    (g' : List Value → Nested.EvalM β) (hg : ∀ v w, g' [v, w] = g v w) (S : Nested.State) :
    ((do let a ← f l; let b ← f r; g a b : Nested.EvalM β) S) =
      (([l, r].mapM f >>= g' : Nested.EvalM β) S) := by
  rw [bind_apply, bind_apply, mapM_cons_apply]
  cases f l S with
  | error => rfl
  | ok v S₁ =>
    dsimp only
    rw [bind_apply, mapM_cons_apply]
    cases f r S₁ with
    | error => rfl
    | ok w S₂ => simp only [List.mapM_nil, pure_apply, hg]

/-- What `Nested.load` does with a word as an address. -/
def loadAt (v : Value) (m : Memory) : Except Fault Value := do
  let n ← v.asInt
  m.load n.toInt

theorem load_eq (v : Value) (S : Nested.State) :
    Nested.load v S = Nested.lift (loadAt v S.machine.memory) S := by
  simp only [Nested.load, loadAt, bind_apply, Nested.lift, get_apply]
  cases v.asInt with
  | error f => rfl
  | ok n =>
    rfl

/-- A reader of one operand. -/
def one {β : Type} (g : Value → Memory → Except Fault β) (vs : List Value) (m : Memory) :
    Except Fault β :=
  match vs with
  | [v] => g v m
  | _ => .error (.malformed .noActiveCall)

/-- A reader of two operands. -/
def two {β : Type} (g : Value → Value → Except Fault β) (vs : List Value) : Except Fault β :=
  match vs with
  | [v, w] => g v w
  | _ => .error (.malformed .noActiveCall)

theorem evalAll_one (m : Memory) (ts : Temps) (r : Expr)
    (g : Value → Memory → Except Fault β) :
    (Linear.evalAll m ts [r] >>= fun vs => one g vs m) = Linear.eval m ts r >>= fun v => g v m := by
  rw [evalAll_cons]
  cases Linear.eval m ts r <;> rfl

theorem evalAll_two (m : Memory) (ts : Temps) (l r : Expr)
    (g : Value → Value → Except Fault β) :
    (Linear.evalAll m ts [l, r] >>= fun vs => two g vs) =
      Linear.eval m ts l >>= fun v => Linear.eval m ts r >>= fun w => g v w := by
  rw [evalAll_cons, evalAll_cons]
  cases Linear.eval m ts l with
  | error => rfl
  | ok v => cases Linear.eval m ts r <;> rfl

theorem follows_call_expr (hv : FollowsValue setting p fuel) (hc : FollowsCall setting p fuel)
    {n m m₁ : Temp} {parts : List (Stmt × Expr)} {s₁ : Stmt} (result : Option Temp)
    (hargs : Ir.Canonical.exprs args n = .ok parts m)
    (hk : Ir.Canonical.keepAll parts m = .ok (s₁, rs) m₁)
    (hb : (Expr.effectsList args).Below k.limit) (hn : k.limit ≤ n)
    (hsuffix : (s₁.code ++ Linear.callStmt result (.call label rs) :: rest) <:+ k.act.chunk.body)
    (hcov : Covers fx (s₁.code ++ [Linear.callStmt result (.call label rs)]))
    (htr : Tracks k ts S) :
    match Nested.eval setting (fuel + 1) (.call label args) S with
    | .ok v S' => ∃ ts₁, Agree k.limit S'.temps ts₁ ∧ ∀ ts', ts₁.receive result v = .ok ts' →
        Arrives p k (s₁.code ++ Linear.callStmt result (.call label rs) :: rest) ts S fx rest ts' S'
    | .error (.fault f) S' => Reported setting f S' →
        Stops p (k.config (s₁.code ++ Linear.callStmt result (.call label rs) :: rest) ts S) f S'
    | .error _ _ => True := by
  obtain ⟨hcov₁, hcov₂⟩ := covers_append.1 hcov
  have hstmt := hcov₂ _ (List.mem_singleton.2 rfl)
  have hcall : fx.call = true := by
    refine hstmt.call ?_
    cases result <;> simp [Linear.callStmt, Stmt.effects, Expr.effects]
  have hwrites : ∀ t, result = some t → t ∈ fx.writes := by
    rintro t rfl
    exact hstmt.writes t (by simp [Linear.callStmt, Stmt.effects])
  have first := follows_operands hv hargs (Nat.le_refl _) hk hb hn hsuffix hcov₁ htr
  rw [Nested.eval, bind_apply]
  generalize args.mapM (Nested.eval setting fuel) S = res at first
  cases res with
  | ok vs S₁ =>
    obtain ⟨ts₁, harr, htr₁, hvs⟩ := first
    have called := hc label rest result hvs htr₁ hcall hwrites
    dsimp only
    generalize Nested.call setting fuel label vs S₁ = res at called
    cases res with
    | ok v S₂ =>
      obtain ⟨htemps, harrives⟩ := called
      refine ⟨ts₁, ?_, fun ts' hts' => harr.trans (harrives ts' hts')⟩
      rw [htemps]
      exact htr₁.agree
    | error halt S₂ =>
      cases halt with
      | fault f =>
        intro hrep
        exact (called hrep).of_steps harr.steps
      | overflow | unfinished => trivial
  | error halt S₁ =>
    cases halt with
    | fault f =>
      intro hrep
      rcases first hrep with hs | ⟨ts₁, harr, hvs⟩
      · exact hs
      · exact .of_steps harr.steps
          (.of_faults (Linear.faults_args hvs) (harr.calls.trans htr.calls))
    | overflow | unfinished => trivial

theorem follows_value_succ (hv : FollowsValue setting p fuel) (hx : FollowsStmt setting p fuel)
    (hc : FollowsCall setting p fuel) : FollowsValue setting p (fuel + 1) := by
  intro k e n n' s r rest ts S fx he hb hn hsuffix hcov htr
  cases e with
  | const v =>
    simp only [Ir.Canonical.expr, pure_eq_ok, Prod.mk.injEq] at he
    obtain ⟨⟨rfl, rfl⟩, rfl⟩ := he
    exact ⟨ts, .refl, htr, rfl⟩
  | data l =>
    simp only [Ir.Canonical.expr, pure_eq_ok, Prod.mk.injEq] at he
    obtain ⟨⟨rfl, rfl⟩, rfl⟩ := he
    simp only [Nested.eval, bind_apply, get_apply, Nested.lift]
    cases h : S.machine.memory.dataAddress l with
    | ok v => exact ⟨ts, .refl, htr, by simp [Linear.eval, h]⟩
    | error f => exact fun _ => .inr ⟨ts, .refl, by simp [Linear.eval, h]⟩
  | temp t =>
    simp only [Ir.Canonical.expr, pure_eq_ok, Prod.mk.injEq] at he
    obtain ⟨⟨rfl, rfl⟩, rfl⟩ := he
    refine ⟨ts, .refl, htr, ?_⟩
    simp only [Linear.eval, htr.get (hb.1 t (by simp [Expr.effects]))]
  | mem a =>
    simp only [Ir.Canonical.expr, bind_eq_ok, pure_eq_ok, Prod.mk.injEq] at he
    obtain ⟨part, m, ha, ⟨s₁, r₁⟩, m₁, hk, ⟨rfl, rfl⟩, rfl⟩ := he
    have operand := follows_operands hv (exprs_one ha) (Nat.le_refl _)
      (Ir.Canonical.keepAll_one hk) (by simpa [Expr.effectsList, Expr.effects] using hb) hn
      hsuffix hcov htr
    have loaded := (operand.map (one loadAt))
    have tree : Nested.eval setting (fuel + 1) (.mem a) S = _ :=
      mapM_one_apply (f := Nested.eval setting fuel) (g := Nested.load)
        (fun vs => do Nested.lift (one loadAt vs (← get).machine.memory))
        (fun v => by funext S; rw [load_eq]; rfl) S
    rw [tree]
    exact loaded.congr fun m ts => (evalAll_one m ts r₁ loadAt).symm
  | checkIndex i length =>
    simp only [Ir.Canonical.expr, bind_eq_ok, pure_eq_ok, Prod.mk.injEq] at he
    obtain ⟨part, m, ha, ⟨s₁, r₁⟩, m₁, hk, ⟨rfl, rfl⟩, rfl⟩ := he
    simp only [Expr.effects, Effects.below_union] at hb
    have operand := follows_operands hv (exprs_one ha) (Nat.le_refl _)
      (Ir.Canonical.keepAll_one hk) (by simpa [Expr.effectsList] using hb.1) hn
      hsuffix hcov htr
    have checked := (operand.map (one fun v _ => v.checkIndex length))
    have tree : Nested.eval setting (fuel + 1) (.checkIndex i length) S = _ :=
      mapM_one_apply (f := Nested.eval setting fuel)
        (g := fun v => Nested.lift (v.checkIndex length))
        (fun vs => do
          Nested.lift (one (fun v _ => v.checkIndex length) vs (← get).machine.memory))
        (fun v => rfl) S
    rw [tree]
    exact checked.congr fun m ts => (evalAll_one m ts r₁ fun v _ => v.checkIndex length).symm
  | binop op l r =>
    simp only [Ir.Canonical.expr, bind_eq_ok, pure_eq_ok, Prod.mk.injEq] at he
    obtain ⟨left, m₁, hl, right, m₂, hr, ⟨s₃, l', r'⟩, m₃, hk, ⟨rfl, rfl⟩, rfl⟩ := he
    simp only [Expr.effects, Effects.below_union] at hb
    have operands := follows_operands hv (exprs_two hl hr) (Nat.le_refl _)
      (Ir.Canonical.keepAll_two hk)
      (by simpa [Expr.effectsList] using hb.1) hn hsuffix hcov htr
    have applied := (operands.map fun vs _ => two op.apply vs)
    have tree : Nested.eval setting (fuel + 1) (.binop op l r) S = _ :=
      mapM_two_apply (f := Nested.eval setting fuel) (g := fun a b => Nested.lift (op.apply a b))
        (fun vs => do let _ ← get; Nested.lift (two op.apply vs)) (fun v w => rfl) S
    rw [tree]
    exact applied.congr fun m ts => (evalAll_two m ts l' r' op.apply).symm
  | call label args =>
    simp only [Ir.Canonical.expr, bind_eq_ok, Bool.false_eq_true, ↓reduceIte,
      Ir.Canonical.fresh_eq_ok, pure_eq_ok, Prod.mk.injEq] at he
    obtain ⟨parts, m, hargs, ⟨s₁, rs⟩, m₁, hk, t, m₂, ⟨-, rfl, rfl⟩, ⟨rfl, rfl⟩, rfl⟩ := he
    simp only [Expr.effects, Effects.below_union] at hb
    have split := Ir.Canonical.exprs_splits args hargs (hb.1.mono hn)
    have tle : k.limit ≤ t := Nat.le_trans hn (split.keepAll hk).1.le
    have tfp := k.ne_fp tle
    rw [Stmt.code_andThen, Stmt.code_move] at hsuffix hcov ⊢
    simp only [List.append_assoc, List.cons_append, List.nil_append] at hsuffix ⊢
    have called := follows_call_expr hv hc (some t) hargs hk hb.1 hn hsuffix hcov htr
    generalize Nested.eval setting (fuel + 1) (.call label args) S = res at called
    cases res with
    | ok v S' =>
      obtain ⟨ts₁, hagree, harrives⟩ := called
      have hset : ts₁.set t v = .ok ⟨ts₁.values.insert t v⟩ := Temps.set_eq_ok.2 ⟨tfp, rfl⟩
      have harr := harrives _ hset
      have before : Tracks k ts₁ S' := ⟨hagree, harr.calls.trans htr.calls⟩
      refine ⟨_, harr, before.set tle hset, ?_⟩
      simp [Linear.eval, Temps.get_eq, tfp, Temps.read_set hset]
    | error halt S' =>
      cases halt with
      | fault f =>
        exact fun hrep => .inl (called hrep)
      | overflow | unfinished => trivial
  | eseq st e =>
    simp only [Ir.Canonical.expr, bind_eq_ok, pure_eq_ok, Prod.mk.injEq] at he
    obtain ⟨before, m, hst, ⟨s₁, r₁⟩, m₁, he, ⟨rfl, rfl⟩, rfl⟩ := he
    simp only [Expr.effects, Effects.below_union] at hb
    have split := Ir.Canonical.stmt_splits st hst (hb.1.1.mono hn)
    rw [Stmt.code_andThen] at hsuffix hcov ⊢
    rw [List.append_assoc] at hsuffix ⊢
    obtain ⟨hcov₁, hcov₂⟩ := covers_append.1 hcov
    have first := hx hst hb.1.1 hn hsuffix hcov₁ htr
    rw [Nested.eval, bind_apply]
    generalize Nested.exec setting fuel st S = res at first
    cases res with
    | ok flow S₁ =>
      cases flow with
      | next =>
        obtain ⟨ts₁, harr, htr₁⟩ := first
        have second := hv he hb.1.2 (Nat.le_trans hn split.le)
          ((List.suffix_append before.code _).trans hsuffix) hcov₂ htr₁
        exact .of_arrives harr second
      | jump l =>
        exact fun hrep => (not_reported rfl hrep).elim
    | error halt S₁ =>
      cases halt with
      | fault f =>
        exact fun hrep => .inl (first hrep)
      | overflow | unfinished => trivial

/-! ## Calls -/

theorem follows_builtin {vs : List Value} (hchunk : p.chunk? label = none)
    (hvs : Linear.evalAll S.machine.memory ts args = .ok vs) (htr : Tracks k ts S)
    (hcall : fx.call = true) (hwrites : ∀ t, result = some t → t ∈ fx.writes) :
    Calls p k label args rest ts S fx setting result
      (Nested.onMachine (Machine.callBuiltin label vs) S) := by
  obtain ⟨⟨m, h, n⟩, calls, σ⟩ := S
  have linear := Linear.call_builtin_apply hchunk vs result k.act k.callers rest ts m h
  simp only [Nested.onMachine, Machine.callBuiltin_apply]
  cases hb : Builtin.ofLabel? label with
  | none =>
    simp only [hb] at linear
    exact fun _ => .of_faults (Linear.stops_call hvs linear) htr.calls
  | some b =>
    cases hh : Host.call b (vs.drop 1) h with
    | error f h' =>
      simp only [hb, hh] at linear ⊢
      intro hrep
      exact ⟨_, f, _, .refl, Linear.stops_call hvs linear, .inl rfl, rfl, rfl, htr.calls.symm⟩
    | ok v h' =>
      simp only [hb, hh] at linear ⊢
      refine ⟨rfl, fun ts' hts' => ⟨?_, .receive hts' hwrites rfl rfl hcall, rfl⟩⟩
      simp only [hts'] at linear
      exact .single (Linear.moves_call hvs linear)

/-- The activation that a call opens, to be followed through its body. -/
def Track.opened {c : Chunk Stmt} {c' : Chunk (List Stmt)} {limit : Temp}
    (lin : c.Linearized c' limit) (unique : c.body.labels.Nodup) (result : Option Temp)
    (saved : Registers) (callers : List Linear.Activation) : Track where
  act := { chunk := c', rest := c'.body, result, saved }
  callers := callers
  limit := limit
  two_le := lin.two_le
  labels := lin.labels ▸ unique

theorem follows_body (hx : FollowsStmt setting p fuel) {c' : Chunk (List Stmt)} {limit : Temp}
    (lin : c.Linearized c' limit) (unique : c.body.labels.Nodup) (result : Option Temp)
    (saved : Registers) (callers : List Linear.Activation) (machine : Machine) {calls : List String}
    (hcalls : calls = callers.map fun a => a.chunk.frame.label) :
    ∃ fx, Performs p (.opened lin unique result saved callers) c'.body {}
      ⟨machine, c.frame.label :: calls, {}⟩ fx []
      setting
      (Nested.exec setting fuel c.body ⟨machine, c.frame.label :: calls, {}⟩) := by
  obtain ⟨s, n, hsplit, hbody⟩ := lin.split
  have tracks : Tracks (.opened lin unique result saved callers) {}
      ⟨machine, c.frame.label :: calls, {}⟩ :=
    ⟨fun _ _ => rfl, by rw [hcalls, ← lin.frame]; rfl⟩
  have place : (s.code ++ []) <:+ c'.body := ⟨[], by simp [hbody]⟩
  have body := hx hsplit lin.below (Nat.le_refl _) place (covers_code s) tracks
  rw [List.append_nil, ← hbody] at body
  exact ⟨_, body⟩

/-- Corresponding chunks that a label calls. -/
theorem chunk_linearized (hp : setting.program.canonical = .ok p)
    (hc : setting.program.chunk? label = some c) :
    ∃ c' limit, p.chunk? label = some c' ∧ c.Linearized c' limit := by
  have rel := TreeProgram.chunk?_canonical hp label
  rw [hc] at rel
  cases hq : p.chunk? label with
  | none => rw [hq] at rel; cases rel
  | some c' =>
    rw [hq] at rel
    cases rel with
    | some h =>
      obtain ⟨limit, lin⟩ := Chunk.linearized_of_canonical h
      exact ⟨c', limit, rfl, lin⟩

theorem chunk_none (hp : setting.program.canonical = .ok p)
    (hc : setting.program.chunk? label = none) :
    p.chunk? label = none := by
  have rel := TreeProgram.chunk?_canonical hp label
  rw [hc] at rel
  cases hq : p.chunk? label with
  | none => rfl
  | some c' => rw [hq] at rel; cases rel

theorem follows_call_succ (hx : FollowsStmt setting p fuel)
    (hp : setting.program.canonical = .ok p)
    (hl : ∀ c ∈ setting.program.init :: setting.program.chunks, c.body.labels.Nodup) :
    FollowsCall setting p (fuel + 1) := by
  intro k label args vs rest ts S fx result hvs htr hcall hwrites
  rw [Nested.call]
  cases hchunk : setting.program.chunk? label with
  | none => exact follows_builtin (chunk_none hp hchunk) hvs htr hcall hwrites
  | some c =>
    obtain ⟨c', limit, hc', lin⟩ := chunk_linearized hp hchunk
    have unique := hl c (Program.mem_of_chunk? hchunk).1
    dsimp only
    rw [bind_apply]
    cases opening setting hc' vs result S ({ k.act with rest, temps := ts } :: k.callers) with
    | tooDeep deep tree =>
      rw [← lin.frame, tree]
      intro hrep
      exact absurd rfl hrep.guard
    | @fails halt m tree linear =>
      rw [← lin.frame, tree]
      cases halt with
      | fault f =>
        intro hrep
        exact ⟨_, _, _, .refl, Linear.stops_call hvs linear, .inl rfl, rfl, rfl, htr.calls.symm⟩
      | overflow | unfinished => trivial
    | @opens saved m entered tree linear =>
      have ⟨registers, labels⟩ := Memory.enter_keeps entered
      rw [lin.frame] at tree
      rw [tree]
      have enters : Linear.Moves p
          (k.config (Linear.callStmt result (.call label args) :: rest) ts S) _ :=
        Linear.moves_call hvs linear
      obtain ⟨fx', body⟩ := follows_body hx lin unique result saved
        ({ k.act with rest, temps := ts } :: k.callers) { S.machine with memory := m } htr.calls
      dsimp only
      rw [bind_apply]
      generalize Nested.exec setting fuel c.body
        ⟨{ S.machine with memory := m }, c.frame.label :: S.calls, {}⟩ = res at body
      cases res with
      | ok flow S₂ =>
        cases flow with
        | next =>
          obtain ⟨ts₂, harr, htr₂⟩ := body
          have value : ts₂.get S₂.machine.memory Temp.rv = S₂.temps.get S₂.machine.memory Temp.rv :=
            htr₂.get (Nat.lt_of_lt_of_le (by decide) lin.two_le)
          refine ⟨rfl, fun ts' hts' => ⟨.head enters (harr.steps.tail ?_), ?_, ?_⟩⟩
          · exact Linear.moves_leave { k.act with rest, temps := ts }
              (by rw [value]; exact hts')
          · exact .receive hts' hwrites (harr.kept.labels.trans labels) registers hcall
          · exact congrArg (List.drop 1) harr.calls
        | jump l =>
          exact fun hrep => (not_reported rfl hrep).elim
      | error halt S₂ =>
        cases halt with
        | fault f =>
          intro hrep
          exact .of_steps (.single enters) (body hrep)
        | overflow | unfinished => trivial

end PinsBackend.Canonical
