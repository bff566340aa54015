import PinsBackend.Proofs.Safety.Turns

/-! Programs and their tree code, side by side.

`Simulates` compares a computation on a store with one that evaluates code on memory, for all
amounts of fuel at once: the second one ends as the first does, or it comes to a limit of the
machine. The rules follow the evaluator of tree code, one for each way to go on. -/
namespace PinsBackend.Meaning

open Ir Safety
open Nested (EvalM Flow Setting State)
open Syntax (Level)

variable {setting : Setting}

/-- A machine that runs the code of a program. -/
structure World where
  context : Kinds.Context
  /-- The bytes of memory. -/
  top : Int
  /-- The label of the code of a level. -/
  label : Level → String
  setting : Setting

abbrev World.storage (W : World) : Storage := W.context.storage

/-- A state of the machine that holds a store. -/
structure World.Relates (W : World) (σ : Store) (s : State) : Prop where
  memory : Represents W.storage W.top σ s.machine.memory
  host : s.machine.host = σ.host
  calls : s.calls = (σ.stack.map fun a => W.label a.level).reverse

/-- In some function. -/
structure World.Runs (W : World) (σ : Store) (s : State) : Prop extends W.Relates σ s where
  running : σ.stack ≠ []

/-- The limits of the machine. -/
inductive Exhausted (setting : Setting) : Halt Fault → Prop
  /-- No room for a record, or calls nested too deep. -/
  | stack (sp : Int) : Exhausted setting (.fault (.stackOverflow sp))
  /-- No room for static data. -/
  | data (requested available : Int) : Exhausted setting (.fault (.outOfMemory requested available))
  | steps {limit : Nat} (h : setting.budget = some limit) : Exhausted setting
      (.fault (.timeout limit))
  | size (o : Overflow) : Exhausted setting (.overflow o)

def Unfinished {ε σ α : Type} (r : EStateM.Result (Halt ε) σ α) : Prop :=
  ∃ s, r = .error .unfinished s

/-- A computation that ends like this if it has enough fuel. -/
structure Ends {ε σ β : Type} (y : Nat → EStateM (Halt ε) σ β) (s : σ)
    (r : EStateM.Result (Halt ε) σ β) : Prop where
  eventually : ∃ N, ∀ n, N ≤ n → y n s = r
  before : ∀ n, y n s = r ∨ Unfinished (y n s)

/-- Evaluating code does what the source does, up to the limits of the machine. If the source needs
more fuel than it has, so does the code with fuel up to `bound`. -/
inductive Simulates (W : World) (bound : Nat) {α β : Type} (x : RunM α) (y : Nat → EvalM β)
    (post : α → Store → β → State → Prop) (σ : Store) (s : State) : Prop
  | ok {a : α} {σ' : Store} {b : β} {s' : State} (hx : x σ = .ok a σ') (ends : Ends y s (.ok b s'))
      (holds : post a σ' b s')
  | fault {f : Fault} {σ' : Store} {s' : State} (hx : x σ = .error (.fault f) σ')
      (ends : Ends y s (.error (.fault f) s')) (runs : W.Runs σ' s')
  | unfinished {σ' : Store} (hx : x σ = .error .unfinished σ')
      (longer : ∀ n ≤ bound, Unfinished (y n s))
  | exhausted {h : Halt Fault} {s' : State} (limit : Exhausted W.setting h)
      (ends : Ends y s (.error h s'))

/-- Code that comes to a result by itself, up to the limits of the machine. -/
def Reaches (W : World) {β : Type} (y : Nat → EvalM β) (s : State) (b : β) (s' : State) : Prop :=
  Ends y s (.ok b s') ∨ ∃ h s'', Exhausted W.setting h ∧ Ends y s (.error h s'')

/-! ## Endings -/

section

variable {ε σ β γ : Type} {y y' : Nat → EStateM (Halt ε) σ β} {g : β → Nat → EStateM (Halt ε) σ γ}
  {s s' : σ}

theorem Ends.bind {b : β} {r : EStateM.Result (Halt ε) σ γ} (h : Ends y s (.ok b s'))
    (h' : Ends (g b) s' r) : Ends (fun n => y n >>= fun b => g b n) s r := by
  obtain ⟨N, hN⟩ := h.eventually
  obtain ⟨M, hM⟩ := h'.eventually
  refine ⟨⟨max N M, fun n hn => ?_⟩, fun n => ?_⟩
  · simp only [bind_apply, hN n (by omega), hM n (by omega)]
  · simp only [bind_apply]
    rcases h.before n with ended | ⟨s₁, more⟩
    · simp only [ended]
      exact h'.before n
    · simp only [more]
      exact .inr ⟨s₁, rfl⟩

theorem Ends.bind_error {e : Halt ε} (h : Ends y s (.error e s')) :
    Ends (fun n => y n >>= fun b => g b n) s (.error e s') := by
  obtain ⟨N, hN⟩ := h.eventually
  refine ⟨⟨N, fun n hn => ?_⟩, fun n => ?_⟩
  · simp only [bind_apply, hN n hn]
  · simp only [bind_apply]
    rcases h.before n with ended | ⟨s₁, more⟩
    · exact .inl (by simp only [ended])
    · exact .inr ⟨s₁, by simp only [more]⟩

/-- One unit of fuel more. -/
theorem Ends.step {r : EStateM.Result (Halt ε) σ β} (h : Ends y' s r)
    (zero : Unfinished (y 0 s)) (succ : ∀ n, y (n + 1) s = y' n s) : Ends y s r := by
  obtain ⟨N, hN⟩ := h.eventually
  refine ⟨⟨N + 1, fun n hn => ?_⟩, fun n => ?_⟩
  · obtain ⟨n, rfl⟩ : ∃ m, n = m + 1 := ⟨n - 1, by omega⟩
    rw [succ, hN n (by omega)]
  · cases n with
    | zero => exact .inr zero
    | succ n =>
      rw [succ]
      exact h.before n

theorem Ends.const (x : EStateM (Halt ε) σ β) (s : σ) : Ends (fun _ => x) s (x s) :=
  ⟨⟨0, fun _ _ => rfl⟩, fun _ => .inl rfl⟩

theorem ends_of_eq {x : EStateM (Halt ε) σ β} {r : EStateM.Result (Halt ε) σ β} (h : x s = r) :
    Ends (fun _ => x) s r := h ▸ .const x s

theorem Ends.unique {r r' : EStateM.Result (Halt ε) σ β} (h : Ends y s r) (h' : Ends y s r') :
    r = r' := by
  obtain ⟨N, hN⟩ := h.eventually
  obtain ⟨M, hM⟩ := h'.eventually
  rw [← hN (max N M) (by omega), hM (max N M) (by omega)]

end

theorem ends_lift {β : Type} {x : Except Fault β} {b : β} (h : x = .ok b) (s : State) :
    Ends (fun _ => Nested.lift x) s (.ok b s) := h ▸ .const _ s

variable {s : State}

theorem ends_of_computes {β : Type} {y : Nat → EvalM β} {x : Except Fault β} {size : Nat}
    (h : ∀ n, Nested.Computes x size n s (y n s)) : Ends y s (Nested.lift x s) := by
  refine ⟨⟨size + 1, fun n hn => ?_⟩, fun n => ?_⟩
  · exact (h n).resolve_right fun short => by omega
  · exact (h n).imp_right fun short => ⟨s, short.1⟩

/-- Flat expressions have the value that linear code gives them. -/
theorem ends_flat {e : Expr} (flat : e.isFlat = true) (s : State) :
    Ends (fun n => Nested.eval setting n e) s
      (Nested.lift (Linear.eval s.machine.memory s.temps e) s) :=
  ends_of_computes fun n => Nested.eval_flat e flat n s

theorem ends_flat_ok {e : Expr} (flat : e.isFlat = true) {v : Value}
    (h : Linear.eval s.machine.memory s.temps e = .ok v) :
    Ends (fun n => Nested.eval setting n e) s (.ok v s) := by
  have ends : Ends (fun n => Nested.eval setting n e) s _ := ends_flat flat s
  rwa [h] at ends

/-! ## Rules -/

section

variable {smaller : Nat}

variable {W : World} {bound : Nat} {α β γ δ : Type} {x : RunM α} {y y' : Nat → EvalM β}
  {f : α → RunM γ} {g : β → Nat → EvalM δ} {σ σ' : Store} {s s' : State}
  {post post' : α → Store → β → State → Prop} {last : γ → Store → δ → State → Prop}

theorem Simulates.mono (h : Simulates W bound x y post σ s) (le : smaller ≤ bound)
    (weaker : ∀ a σ' b s', post a σ' b s' → post' a σ' b s') :
    Simulates W smaller x y post' σ s := by
  cases h with
  | ok hx ends holds => exact .ok hx ends (weaker _ _ _ _ holds)
  | fault hx ends runs => exact .fault hx ends runs
  | unfinished hx longer => exact .unfinished hx fun n hn => longer n (Nat.le_trans hn le)
  | exhausted limit ends => exact .exhausted limit ends

theorem Simulates.imp (h : Simulates W bound x y post σ s)
    (weaker : ∀ a σ' b s', post a σ' b s' → post' a σ' b s') : Simulates W bound x y post' σ s :=
  h.mono (Nat.le_refl _) weaker

theorem Simulates.less (h : Simulates W bound x y post σ s) (le : smaller ≤ bound) :
    Simulates W smaller x y post σ s := h.mono le fun _ _ _ _ holds => holds

theorem Simulates.bind (h : Simulates W bound x y post σ s)
    (next : ∀ a σ' b s', post a σ' b s' → Simulates W bound (f a) (g b) last σ' s') :
    Simulates W bound (x >>= f) (fun n => y n >>= fun b => g b n) last σ s := by
  cases h with
  | exhausted limit ends => exact .exhausted limit ends.bind_error
  | fault hx ends runs => exact .fault (by rw [bind_apply, hx]) ends.bind_error runs
  | unfinished hx longer =>
    refine .unfinished (by rw [bind_apply, hx]) fun n hn => ?_
    obtain ⟨s₁, more⟩ := longer n hn
    exact ⟨s₁, by simp only [bind_apply, more]⟩
  | ok hx ends holds =>
    cases next _ _ _ _ holds with
    | ok hf rest holds => exact .ok (by rw [bind_apply, hx]; exact hf) (ends.bind rest) holds
    | fault hf rest runs => exact .fault (by rw [bind_apply, hx]; exact hf) (ends.bind rest) runs
    | exhausted limit rest => exact .exhausted limit (ends.bind rest)
    | unfinished hf longer =>
      refine .unfinished (by rw [bind_apply, hx]; exact hf) fun n hn => ?_
      simp only [bind_apply]
      rcases ends.before n with ended | ⟨s₁, more⟩
      · simp only [ended]
        exact longer n hn
      · exact ⟨s₁, by simp only [more]⟩

/-- The code spends one unit of fuel, and may have one more. -/
theorem Simulates.step_succ (h : Simulates W bound x y' post σ s) (zero : Unfinished (y 0 s))
    (succ : ∀ n, y (n + 1) s = y' n s) : Simulates W (bound + 1) x y post σ s := by
  cases h with
  | ok hx ends holds => exact .ok hx (ends.step zero succ) holds
  | fault hx ends runs => exact .fault hx (ends.step zero succ) runs
  | exhausted limit ends => exact .exhausted limit (ends.step zero succ)
  | unfinished hx longer =>
    refine .unfinished hx fun n hn => ?_
    cases n with
    | zero => exact zero
    | succ n =>
      rw [succ]
      exact longer n (by omega)

theorem Simulates.step (h : Simulates W bound x y' post σ s) (zero : Unfinished (y 0 s))
    (succ : ∀ n, y (n + 1) s = y' n s) : Simulates W bound x y post σ s :=
  (h.step_succ zero succ).less (Nat.le_succ bound)

theorem Simulates.congr {x' : RunM α} (same : x σ = x' σ') (h : Simulates W bound x' y post σ' s) :
    Simulates W bound x y post σ s := by
  cases h with
  | ok hx ends holds => exact .ok (same.trans hx) ends holds
  | fault hx ends runs => exact .fault (same.trans hx) ends runs
  | unfinished hx longer => exact .unfinished (same.trans hx) longer
  | exhausted limit ends => exact .exhausted limit ends

/-- Only the source takes a step. -/
theorem Simulates.source {y : Nat → EvalM δ} {a : α} (hx : x σ = .ok a σ')
    (h : Simulates W bound (f a) y last σ' s) : Simulates W bound (x >>= f) y last σ s :=
  h.congr (by rw [bind_apply, hx])

variable {b : β}

/-- Only the code takes a step. -/
theorem Simulates.target {x : RunM γ} (reaches : Reaches W y s b s')
    (h : Simulates W bound x (g b) last σ s') :
    Simulates W bound x (fun n => y n >>= fun b => g b n) last σ s := by
  rcases reaches with ends | ⟨e, s'', limit, ends⟩
  · have first : Simulates W bound (pure ()) y (fun _ σ₁ b₁ s₁ => σ₁ = σ ∧ b₁ = b ∧ s₁ = s') σ s :=
      .ok rfl ends ⟨rfl, rfl, rfl⟩
    refine (first.bind (f := fun _ => x) ?_).congr rfl
    rintro _ _ _ _ ⟨rfl, rfl, rfl⟩
    exact h
  · exact .exhausted limit ends.bind_error

theorem Reaches.bind {c : δ} {s'' : State} (h : Reaches W y s b s')
    (h' : Reaches W (g b) s' c s'') :
    Reaches W (fun n => y n >>= fun b => g b n) s c s'' := by
  rcases h with ends | ⟨e, s₁, limit, ends⟩
  · exact h'.imp ends.bind fun ⟨e, s₁, limit, rest⟩ => ⟨e, s₁, limit, ends.bind rest⟩
  · exact .inr ⟨e, s₁, limit, ends.bind_error⟩

theorem Reaches.step (h : Reaches W y' s b s') (zero : Unfinished (y 0 s))
    (succ : ∀ n, y (n + 1) s = y' n s) : Reaches W y s b s' :=
  h.imp (fun ends => ends.step zero succ) fun ⟨e, s₁, limit, ends⟩ =>
    ⟨e, s₁, limit, ends.step zero succ⟩

theorem reaches_const {v : EvalM β} (h : v s = .ok b s') : Reaches W (fun _ => v) s b s' :=
  .inl (ends_of_eq h)

/-- The source goes on by itself. -/
theorem Simulates.map {last : γ → Store → β → State → Prop} (h : Simulates W bound x y post σ s)
    (next : ∀ a σ' b s', post a σ' b s' → ∃ c, f a σ' = .ok c σ' ∧ last c σ' b s') :
    Simulates W bound (x >>= f) y last σ s := by
  cases h with
  | ok hx ends holds =>
    obtain ⟨c, hf, holds'⟩ := next _ _ _ _ holds
    exact .ok (by rw [bind_apply, hx]; exact hf) ends holds'
  | fault hx ends runs => exact .fault (by rw [bind_apply, hx]) ends runs
  | unfinished hx longer => exact .unfinished (by rw [bind_apply, hx]) longer
  | exhausted limit ends => exact .exhausted limit ends

/-- The code goes on by itself. -/
theorem Simulates.andThen {last : α → Store → δ → State → Prop} (h : Simulates W bound x y post σ s)
    (next : ∀ a σ' b s', post a σ' b s' → ∃ c s'', Ends (g b) s' (.ok c s'') ∧ last a σ' c s'') :
    Simulates W bound x (fun n => y n >>= fun b => g b n) last σ s := by
  refine .congr (congrFun (bind_pure x) σ).symm (h.bind fun a σ' b s' holds => ?_)
  obtain ⟨c, s'', ends, holds⟩ := next a σ' b s' holds
  exact .ok rfl ends holds

theorem Simulates.lift (runs : W.Runs σ s) (v : Except Fault α)
    {post : α → Store → α → State → Prop} (holds : ∀ a, v = .ok a → post a σ a s) :
    Simulates W bound (Meaning.lift v) (fun _ => Nested.lift v) post σ s := by
  cases v with
  | ok a => exact .ok rfl (.const _ s) (holds a rfl)
  | error e => exact .fault rfl (.const _ s) runs

end

/-! ## Statements -/

/-- The state after one more statement was counted. -/
def ticked (s : State) : State := { s with machine.steps := s.machine.steps + 1 }

/-- The state with another value in a temporary. -/
def written (s : State) (t : Temp) (v : Value) : State :=
  { s with temps := ⟨s.temps.values.insert t v⟩ }

/-- The state with another memory. -/
def remembering (s : State) (m : Memory) : State := { s with machine.memory := m }

theorem World.Relates.ticked {W : World} {σ : Store} (h : W.Relates σ s) :
    W.Relates σ (ticked s) := ⟨h.memory, h.host, h.calls⟩

theorem World.Relates.written {W : World} {σ : Store} (h : W.Relates σ s) (t : Temp) (v : Value) :
    W.Relates σ (written s t v) := ⟨h.memory, h.host, h.calls⟩

/-- Goes on in a sequence after one of its statements. -/
def goOn (setting : Setting) (all rest : List Stmt) (n : Nat) : Flow → EvalM Flow
  | .next => Nested.execFrom setting n all rest
  | .jump label =>
    match Nested.seek label all with
    | some target => Nested.execFrom setting n all target
    | none => return .jump label

section

variable {W : World} {bound : Nat} {α γ : Type} {x : RunM α} {f : α → RunM γ} {σ : Store}
  {s : State}
  {post : α → Store → Value → State → Prop} {all rest : List Stmt}

section

variable {l : String}

variable {last : α → Store → Flow → State → Prop}

theorem Simulates.run_succ {stmt : Stmt}
    (h : Simulates W bound x (fun n => Nested.exec W.setting n stmt >>= fun flow =>
      goOn W.setting all rest n flow) last σ s) :
    Simulates W (bound + 1) x (fun n => Nested.execFrom W.setting n all (stmt :: rest)) last σ s :=
  h.step_succ ⟨s, rfl⟩ fun n => by
    simp only [Nested.execFrom, bind_apply]
    split
    · next flow _ _ => cases flow <;> rfl
    · rfl

theorem Simulates.run {stmt : Stmt}
    (h : Simulates W bound x (fun n => Nested.exec W.setting n stmt >>= fun flow =>
      goOn W.setting all rest n flow) last σ s) :
    Simulates W bound x (fun n => Nested.execFrom W.setting n all (stmt :: rest)) last σ s :=
  h.run_succ.less (Nat.le_succ bound)

theorem reaches_tick (W : World) (s : State) :
    Reaches W (fun _ => Nested.tick W.setting) s () (ticked s) := by
  cases hb : W.setting.budget with
  | none => exact reaches_const (Nested.tick_apply hb s)
  | some limit =>
    have ticks : Nested.tick W.setting s =
        if limit < s.machine.steps + 1 then .error (.fault (.timeout limit)) (ticked s)
        else .ok () (ticked s) := by
      simp only [Nested.tick, Nested.onMachine, Machine.tick, hb]
      by_cases late : limit < s.machine.steps + 1
      · simp only [if_pos late]
        rfl
      · simp only [if_neg late]
        rfl
    have ends : Ends (fun _ => Nested.tick W.setting) s _ := .const _ s
    rw [ticks] at ends
    split at ends
    · exact .inr ⟨_, _, .steps hb, ends⟩
    · exact .inl ends

/-- A label spends one unit of fuel. -/
theorem Simulates.label_of_pred
    (h : Simulates W (bound - 1) x (fun n => Nested.execFrom W.setting n all rest) last σ s) :
    Simulates W bound x (fun n => Nested.execFrom W.setting n all (.label l :: rest)) last σ s :=
  (Simulates.run_succ (.target (.step (reaches_const rfl) ⟨s, rfl⟩ fun _ => rfl) h)).less (by omega)

theorem Simulates.label
    (h : Simulates W bound x (fun n => Nested.execFrom W.setting n all rest) last σ s) :
    Simulates W bound x (fun n => Nested.execFrom W.setting n all (.label l :: rest)) last σ s :=
  .label_of_pred (h.less (Nat.sub_le ..))

theorem Simulates.jump {target : List Stmt} (found : Nested.seek l all = some target)
    (h : Simulates W bound x (fun n => Nested.execFrom W.setting n all target) last σ (ticked s)) :
    Simulates W bound x (fun n => Nested.execFrom W.setting n all (.jump l :: rest)) last σ s := by
  have jumps : Reaches W (fun n => Nested.exec W.setting n (.jump l)) s (.jump l) (ticked s) :=
    .step (.bind (reaches_tick W s) (reaches_const rfl)) ⟨s, rfl⟩ fun _ => rfl
  refine .run (.target jumps ?_)
  simpa only [goOn, found] using h

end

variable {last : γ → Store → Flow → State → Prop} {e : Expr}

theorem Simulates.eval
    (value : Simulates W bound x (fun n => Nested.eval W.setting n e) post σ (ticked s))
    (next : ∀ a σ' v s', post a σ' v s' →
      Simulates W bound (f a) (fun n => Nested.execFrom W.setting n all rest) last σ' s') :
    Simulates W bound (x >>= f) (fun n => Nested.execFrom W.setting n all (.eval e :: rest))
      last σ s := by
  have first : Simulates W bound x (fun n => Nested.exec W.setting n (.eval e))
      (fun a σ' flow s' => flow = .next ∧ ∃ v, post a σ' v s') σ s := by
    refine .step (.target (reaches_tick W s) (value.andThen fun a σ' v s' holds => ?_))
      ⟨s, rfl⟩ fun _ => rfl
    exact ⟨.next, s', .const _ s', rfl, v, holds⟩
  refine .run (first.bind ?_)
  rintro a σ' _ s' ⟨rfl, v, holds⟩
  exact next a σ' v s' holds

/-- A value goes into a temporary. -/
theorem Simulates.written {t : Temp} (ne : t ≠ Temp.fp)
    (value : Simulates W bound x (fun n => Nested.eval W.setting n e) post σ (ticked s)) :
    Simulates W bound x (fun n => Nested.exec W.setting n (.move (.temp t) e))
      (fun a σ' flow s' => flow = .next ∧ ∃ v s₁, post a σ' v s₁ ∧ s' = Meaning.written s₁ t v)
      σ s := by
  have writes (v : Value) (s' : State) : Ends
    (fun _ => Nested.writeTemp t v >>= fun _ => pure Flow.next) s'
      (.ok .next (Meaning.written s' t v)) := by
    have eq : (Nested.writeTemp t v >>= fun _ => pure Flow.next : EvalM Flow) s' =
        .ok .next (Meaning.written s' t v) := by
      simp [bind_apply, Nested.writeTemp, Temps.set, ne, pure_apply, Meaning.written]
    exact eq ▸ .const _ s'
  have moves : Simulates W bound x (fun n => Nested.eval W.setting n e >>= fun v =>
        Nested.writeTemp t v >>= fun _ => pure Flow.next)
      (fun a σ' flow s' => flow = .next ∧ ∃ v s₁, post a σ' v s₁ ∧ s' = Meaning.written s₁ t v) σ
        (ticked s) :=
    value.andThen fun a σ' v s' holds => ⟨.next, _, writes v s', rfl, v, s', holds, rfl⟩
  exact .step (.target (reaches_tick W s) (moves.step ⟨_, rfl⟩ fun n => by simp only [Nested.move]))
    ⟨s, rfl⟩
    fun _ => rfl

theorem Simulates.assign {t : Temp} (ne : t ≠ Temp.fp)
    (value : Simulates W bound x (fun n => Nested.eval W.setting n e) post σ (ticked s))
    (next : ∀ a σ' v s', post a σ' v s' →
      Simulates W bound (f a) (fun n => Nested.execFrom W.setting n all rest) last σ'
      (Meaning.written s' t v)) :
    Simulates W bound (x >>= f)
      (fun n => Nested.execFrom W.setting n all (.move (.temp t) e :: rest))
      last σ s := by
  refine .run ((Simulates.written ne value).bind ?_)
  rintro a σ' _ _ ⟨rfl, v, s', holds, rfl⟩
  exact next a σ' v s' holds

/-- A jump on a word of both sides. -/
theorem Simulates.branch {x : RunM Value} {f : Bool → RunM γ} {c : Expr} {l m : String}
    {onTrue onFalse : List Stmt} (foundTrue : Nested.seek l all = some onTrue)
    (foundFalse : Nested.seek m all = some onFalse) {post : Store → State → Prop}
    (condition : Simulates W bound x (fun n => Nested.eval W.setting n c)
      (fun a σ' v s' => a = v ∧ W.Runs σ' s' ∧ post σ' s') σ (ticked s))
    (next : ∀ flag σ' s', W.Runs σ' s' → post σ' s' → Simulates W bound (f flag)
      (fun n => Nested.execFrom W.setting n all (if flag then onTrue else onFalse)) last σ' s') :
    Simulates W bound (x >>= fun a => Meaning.lift a.isTruthy >>= f)
      (fun n => Nested.execFrom W.setting n all (.cjump c l m :: rest)) last σ s := by
  have truth (v : Value) {σ' : Store} {s' : State} (runs : W.Runs σ' s') (holds : post σ' s') :
      Simulates W bound (Meaning.lift v.isTruthy)
        (fun _ => Nested.lift v.isTruthy >>= fun flag => pure (Flow.jump (if flag then l else m)))
        (fun flag σ' flow s' => flow = .jump (if flag then l else m) ∧ W.Runs σ' s' ∧ post σ' s')
          σ' s' := by
    cases v.isTruthy with
    | ok flag => exact .ok rfl (.const _ s') ⟨rfl, runs, holds⟩
    | error e => exact .fault rfl (.const _ s') runs
  have first : Simulates W bound (x >>= fun a => Meaning.lift a.isTruthy)
      (fun n => Nested.exec W.setting n (.cjump c l m))
      (fun flag σ' flow s' => flow = .jump (if flag then l else m) ∧ W.Runs σ' s' ∧
        post σ' s') σ s := by
    refine .step (.target (reaches_tick W s) (condition.bind ?_)) ⟨s, rfl⟩ fun _ => rfl
    rintro a σ' _ s' ⟨rfl, runs, holds⟩
    exact truth a runs holds
  rw [← bind_assoc]
  refine .run (first.bind ?_)
  rintro flag σ' _ s' ⟨rfl, runs, holds⟩
  have goes := next flag σ' s' runs holds
  cases flag with
  | true => simpa only [goOn, if_true, foundTrue] using goes
  | false => simpa only [goOn, Bool.false_eq_true, if_false, foundFalse] using goes

/-- The word of a datum is stored at the address of a cell. -/
theorem World.Relates.store (related : W.Relates σ s) (laid : Laid W.storage σ.stack) {p : Place}
    (cell : Cell W.storage σ.stack p) (d : Datum) : ∃ m,
      Ends (fun _ => Nested.onMachine (Machine.onMemory (Memory.store
        (Int64.ofInt (address W.storage W.top σ.stack p)).toInt (shown W.storage W.top σ.stack d))))
        s
        (.ok () (remembering s m)) ∧ W.Relates (σ.set p d) (remembering s m) := by
  obtain ⟨m, stored, memory⟩ := related.memory.store laid cell d
  have writes : Nested.onMachine (Machine.onMemory (Memory.store (address W.storage W.top σ.stack p)
      (shown W.storage W.top σ.stack d))) s = .ok () (remembering s m) := by
    simp [Nested.onMachine, Machine.onMemory, stored, remembering]
  rw [toInt_ofInt (related.memory.fits_address laid cell)]
  exact ⟨m, writes ▸ .const _ s, memory, related.host, related.calls⟩

/-- The address of a cell is evaluated before the datum that is stored there. -/
theorem Simulates.store {x : RunM Place} {z : Place → RunM Datum} {g : Place → Datum → RunM γ}
    {a : Expr} {P : Place → Store → State → Prop} {Q : Place → Datum → Store → State → Prop}
    (place : Simulates W bound x (fun n => Nested.eval W.setting n a)
      (fun p σ' v s' => v = shown W.storage W.top σ'.stack (.place p) ∧ P p σ' s') σ (ticked s))
    (value : ∀ p σ' s', P p σ' s' → Simulates W bound (z p) (fun n => Nested.eval W.setting n e)
      (fun d σ'' v s'' => σ''.stack = σ'.stack ∧ v = shown W.storage W.top σ''.stack d ∧
      W.Relates σ'' s'' ∧ Laid W.storage σ''.stack ∧ Cell W.storage σ''.stack p ∧ Q p d σ'' s'') σ'
      s')
    (next : ∀ p d σ' s' m, Q p d σ' s' → W.Relates (σ'.set p d) (remembering s' m) →
      Simulates W bound (g p d) (fun n => Nested.execFrom W.setting n all rest) last σ'
      (remembering s' m)) :
    Simulates W bound (x >>= fun p => z p >>= g p)
      (fun n => Nested.execFrom W.setting n all (.move (.mem a) e :: rest)) last σ s := by
  -- the code has made the store, and the source has not
  let made (c : Place × Datum) (σ' : Store) (flow : Flow) (s' : State) : Prop := flow = .next ∧
    ∃ s₁ m, s' = remembering s₁ m ∧ Q c.1 c.2 σ' s₁ ∧ W.Relates (σ'.set c.1 c.2) s'
  have moves : Simulates W bound (x >>= fun p => z p >>= fun d => pure (p, d))
      (fun n => Nested.move W.setting n (.mem a) e) made σ (ticked s) := by
    refine .step (place.bind ?_) ⟨_, rfl⟩ fun n => by simp only [Nested.move]; rfl
    rintro p σ' _ s' ⟨rfl, holds⟩
    refine .target (reaches_const rfl) ((value p σ' s' holds).bind ?_)
    rintro d σ'' _ s'' ⟨stack, rfl, related, laid, cell, holds⟩
    obtain ⟨m, ends, related⟩ := related.store laid cell d
    rw [← stack]
    exact .ok rfl (ends.bind (.const (pure Flow.next) _)) ⟨rfl, s'', m, rfl, holds, related⟩
  have first : Simulates W bound (x >>= fun p => z p >>= fun d => pure (p, d))
      (fun n => Nested.exec W.setting n (.move (.mem a) e)) made σ s :=
    .step (.target (reaches_tick W s) moves) ⟨s, rfl⟩ fun _ => rfl
  have whole : (x >>= fun p => z p >>= g p) =
      (x >>= fun p => z p >>= fun d => pure (p, d)) >>= fun c => g c.1 c.2 := by
    simp only [bind_assoc, pure_bind]
  rw [whole]
  refine .run (first.bind ?_)
  rintro ⟨p, d⟩ σ' _ _ ⟨rfl, s', m, rfl, holds, related⟩
  exact next p d σ' s' m holds related

end

/-! ## Sequences -/

section

variable {W : World} {bound : Nat} {α γ : Type} {x : RunM α} {f : α → RunM γ} {σ : Store}
  {s : State}
  {post : α → Store → State → Prop} {ss : List Stmt} {e : Expr}
  {last : γ → Store → Value → State → Prop}

theorem ends_nil (setting : Setting) (all : List Stmt) (s : State) :
    Ends (fun n => Nested.execFrom setting n all []) s (.ok .next s) :=
  (Ends.const (pure Flow.next) s).step ⟨s, rfl⟩ fun _ => rfl

theorem Simulates.sequence (flat : Stmt.flattenList ss = ss)
    {post : α → Store → Flow → State → Prop}
    (h : Simulates W bound x (fun n => Nested.execFrom W.setting n ss ss) post σ s) :
    Simulates W bound x (fun n => Nested.exec W.setting n (.seq ss)) post σ s :=
  h.step ⟨s, rfl⟩ fun n => by simp only [Nested.exec, flat]

/-- Statements before the value of an expression. -/
theorem Simulates.after (flat : Stmt.flattenList ss = ss)
    (stmts : Simulates W bound x (fun n => Nested.execFrom W.setting n ss ss)
      (fun a σ' flow s' => flow = .next ∧ post a σ' s') σ s)
    (value : ∀ a σ' s', post a σ' s' →
      Simulates W bound (f a) (fun n => Nested.eval W.setting n e) last σ' s') :
    Simulates W bound (x >>= f) (fun n => Nested.eval W.setting n (.after (.seq ss) e))
      last σ s := by
  unfold Expr.after
  split
  · next nop =>
    -- without statements the source has done nothing either
    obtain rfl : ss = [] := by rw [← flat, Stmt.flattenList_of_allNop ss nop]
    have done := ends_nil W.setting [] s
    cases stmts with
    | ok hx ends holds =>
      cases done.unique ends
      exact .source hx (value _ _ _ holds.2)
    | fault hx ends => cases done.unique ends
    | exhausted limit ends => cases done.unique ends
    | unfinished hx longer =>
      refine .unfinished (by rw [bind_apply, hx]) fun n hn => ?_
      obtain ⟨_, more⟩ := longer n hn
      cases n with
      | zero => exact ⟨s, rfl⟩
      | succ n => cases more
  · refine .step ((stmts.sequence flat).bind ?_) ⟨s, rfl⟩ fun n => by simp only [Nested.eval]; rfl
    rintro a σ' _ s' ⟨rfl, holds⟩
    exact value a σ' s' holds

end

/-! ## Calls -/

section

variable {W : World} {σ : Store} {s : State}

/-- A call opens the record of a function, or there is no room for it. -/
theorem World.Relates.enter (related : W.Relates σ s) (typed : Typed W.storage True σ)
    (label : String) {frame : Frame} {level : Level} (record : Kinds.Recorded W.storage frame level)
    (named : frame.label = W.label level) {link : Option Nat}
    (hlink : ∀ j ∈ link, j < σ.stack.length) {args : List Datum}
    (kinds : List.Forall₂ (fun d x => HasKind W.storage True σ.stack (W.storage.content x).kind d)
      args level.params) :
    (∃ h s', Exhausted W.setting h ∧ Nested.enter W.setting label frame
      (linkWord W.storage W.top σ.stack link :: args.map (shown W.storage W.top σ.stack)) s =
      .error h s') ∨
    ∃ s', Nested.enter W.setting label frame
        (linkWord W.storage W.top σ.stack link :: args.map (shown W.storage W.top σ.stack)) s =
          .ok ⟨s.machine.memory.registers, s.temps⟩ s' ∧
      W.Relates (σ.opened level link args) s' := by
  have arity : args.length = level.params.length := kinds.length_eq
  have alive (d : Datum) (hd : d ∈ args) : Bounded σ.stack.length d := by
    obtain ⟨x, -, kind⟩ := exists_of_mem_left kinds hd
    exact kind.bounded
  have memory := related.memory
  have depth : s.calls.length = σ.stack.length := by simp [related.calls]
  rw [Nested.enter_apply, depth]
  cases hwords : frame.argumentWords with
  | error o => exact .inl ⟨_, _, .size o, rfl⟩
  | ok expected =>
    have counted : (linkWord W.storage W.top σ.stack link ::
        args.map (shown W.storage W.top σ.stack)).length = expected := by
      rw [(Word.succ_eq_ok.1 hwords).2, record.count, List.length_cons, List.length_map, arity]
    simp only [counted, if_true]
    by_cases deep : W.setting.maxCallDepth ≤ σ.stack.length
    · exact .inl ⟨_, _, .stack _, by rw [if_pos deep]⟩
    · simp only [deep, if_false]
      rcases enter_refused record with ⟨o, refused⟩ | ⟨size, k, round⟩
      · exact .inl ⟨_, _, .size o, by rw [refused]⟩
      · by_cases room : W.storage.static ≤
            edge W.storage W.top σ.stack σ.stack.length - W.storage.size level
        · obtain ⟨m', entered, memory'⟩ :=
            memory.opened typed.laid typed.older record hlink alive arity
            size round room
          refine .inr ⟨⟨{ s.machine with memory := m' }, frame.label :: s.calls, {}⟩, by
            rw [entered], memory', related.host, ?_⟩
          simp [Store.opened, named, related.calls]
        · have pos : Word.bytes ≤ W.storage.size level := record.tiled.le
          have full (words : List Value) : Memory.enter frame words s.machine.memory = .error _ _ :=
            Memory.enter_full size (memory.stacked typed.laid)
              (by simp only [Word.bytes] at pos; omega)
              (record.tiled.aligned (Int.dvd_refl _)) round
              (by rw [memory.sp, memory.staticTop]; omega)
          exact .inl ⟨_, _, .stack _, by rw [full]⟩

/-- The record of a call is closed, and the caller has its registers and temporaries back. -/
theorem World.Relates.leave (related : W.Relates σ s) (typed : Typed W.storage True σ)
    {front : List Activation} {a : Activation} (hs : σ.stack = front ++ [a]) {c : Nested.Caller}
    (saved : c.registers =
      ⟨edge W.storage W.top front front.length, edge W.storage W.top front front.length⟩) :
    ∃ s', Nested.leave c s = .ok () s' ∧ W.Relates σ.closed s' ∧ s'.temps = c.temps := by
  obtain ⟨⟨m, host, steps⟩, calls, temps⟩ := s
  obtain ⟨memory, rfl, rfl⟩ := related
  refine ⟨_, rfl, ⟨?_, rfl, ?_⟩, rfl⟩
  · have closed := memory.closed typed.laid typed.older hs
    rw [hs, edge_append (Nat.le_refl _), ← saved] at closed
    exact closed
  · simp [Store.closed, hs]

end

end PinsBackend.Meaning
