import PinsBackend.Proofs.Meaning.Constructs

/-! What calls do.

Arguments go into temporaries, and then the callee runs in an activation of its own. A call of a
function is taken as known while the code around it is treated; `simulates_call` gives it for one
more level of nesting. -/
namespace PinsBackend.Meaning

open Ir Kinds Safety
open Nested (State)
open Syntax (Env Level)

/-! ## Arguments -/

/-- Statements put the data of the source into temporaries. -/
structure Passes (W : World) (bound : Nat) (Γ : Env) (lo hi : Nat) (ks : List Kind)
    (x : RunM (List Datum)) (ss : List Stmt) (ts : List Temp) : Prop where
  flat : ∀ st ∈ ss, st.flatten = [st]
  temps : ∀ t : Nat, t ∈ ts → lo ≤ t ∧ t < hi
  runs : ∀ ⦃σ s⦄, Ready W Γ σ s → ∀ {all : List Stmt},
    Simulates W bound x (fun n => Nested.execFrom W.setting n all ss)
      (fun ds σ' flow s' => flow = .next ∧ Stays W lo hi σ s σ' s' ∧
        ts.map (held s') = ds.map (shown W.storage W.top σ.stack) ∧
        List.Forall₂ (fun d k => HasKind W.storage True σ.stack k d) ds ks) σ s

section

variable {W : World} {bound : Nat} {Γ : Env} {lo hi : Nat} {ks : List Kind} {xs : RunM (List Datum)}
  {ss : List Stmt} {ts : List Temp}

theorem passes_nil : Passes W bound Γ lo hi [] (pure []) [] [] :=
  ⟨by simp, by simp, fun _ _ ready => .finish ⟨rfl, ready.refl, rfl, .nil⟩⟩

theorem Passes.cons {k : Kind} {t : Nat} {x : RunM Datum} {r : Expr} (ne : t ≠ Temp.fp)
    (low : lo ≤ t) (high : t < hi) (first : Means W bound Γ lo t k x r)
    (rest : Passes W bound Γ (t + 1) hi ks xs ss ts) :
    Passes W bound Γ lo hi (k :: ks) (x >>= fun d => xs >>= fun ds => pure (d :: ds))
      (.move (.temp t) r :: ss)
      (t :: ts) := by
  refine ⟨?_, ?_, fun σ s ready all => .assign ne (first ready.ticked) ?_⟩
  · rintro st (_ | ⟨_, mem⟩)
    · rfl
    · exact rest.flat st mem
  · rintro u (_ | ⟨_, mem⟩)
    · exact ⟨low, high⟩
    · have := rest.temps u mem
      omega
  · rintro d σ₁ _ s₁ ⟨stays, rfl, kind⟩
    have stays : Stays W lo hi σ s σ₁ (written s₁ t (shown W.storage W.top σ.stack d)) :=
      (stays.of_ticked.widen (Nat.le_refl _) (Nat.le_of_lt high)).written low high _
    refine (rest.runs (stays.ready ready)).map ?_
    rintro ds σ₂ _ s₂ ⟨rfl, later, shows, kinds⟩
    rw [stays.stack] at shows kinds
    refine ⟨d :: ds, rfl, rfl, stays.trans (later.widen (by omega) (Nat.le_refl _)), ?_,
      .cons kind kinds⟩
    rw [List.map_cons, List.map_cons, shows, later.temps t (by omega), held_written]

/-- A call with its arguments in temporaries. -/
theorem Simulates.called {α : Type} {x : RunM α} {label : String} {link : Expr}
    (flat : link.isFlat = true) {σ : Store} {s : State} {word : Value} {vs : List Value}
    (linked : Linear.eval s.machine.memory s.temps link = .ok word) (ne : ∀ t ∈ ts, t ≠ Temp.fp)
    (shows : ts.map (held s) = vs) {post : α → Store → Value → State → Prop}
    (h : Simulates W bound x (fun n => Nested.call W.setting n label (word :: vs)) post σ s) :
    Simulates W bound x (fun n => Nested.eval W.setting n (.call label (link :: ts.map .temp)))
      post σ s := by
  have temps : ∀ ts : List Temp, (∀ t ∈ ts, t ≠ Temp.fp) →
      Linear.evalAll s.machine.memory s.temps (ts.map .temp) = .ok (ts.map (held s)) := by
    intro ts ne
    induction ts with
    | nil => rfl
    | cons t ts ih =>
      have rest := ih fun u hu => ne u (List.mem_cons_of_mem _ hu)
      have first : t ≠ Temp.fp := ne t (List.mem_cons_self ..)
      simp only [List.map_cons, Linear.evalAll, Linear.eval, Temps.get, first, if_false, rest]
      rfl
  have values : Linear.evalAll s.machine.memory s.temps (link :: ts.map .temp) =
      .ok (word :: vs) := by
    rw [Linear.evalAll, linked, temps ts ne, shows]
    rfl
  have all : (link :: ts.map Expr.temp).all Expr.isFlat = true := by
    rw [List.all_cons, flat, List.all_map]
    simp [Expr.isFlat, Expr.effects]
  have ends : Ends (fun n => (link :: ts.map Expr.temp).mapM (Nested.eval W.setting n)) s _ :=
    ends_of_computes fun n => Nested.evalAll_flat _ all n s
  rw [values] at ends
  exact .step (.target (.inl ends) h) ⟨s, rfl⟩ fun _ => rfl

end

/-! ## Built-ins -/

theorem mapM_toWord (vs : List Value) : (vs.map Datum.word).mapM Datum.toWord = pure vs := by
  induction vs with
  | nil => rfl
  | cons v vs ih => simp [List.mapM_cons, Datum.toWord, ih]

/-- The state with another host. -/
def hosted (s : State) (host : Host) : State := { s with machine.host := host }

theorem World.Relates.hosted {W : World} {σ : Store} {s : State} (h : W.Relates σ s) (host : Host) :
    W.Relates { σ with host } (Meaning.hosted s host) := ⟨h.memory.onHost host, rfl, h.calls⟩

theorem onHost_apply {α : Type} (x : EStateM Fault Host α) (σ : Store) : Meaning.onHost x σ =
    match x σ.host with
    | .ok a host => .ok a { σ with host }
    | .error f host => .error (.fault f) { σ with host } := rfl

theorem callBuiltin_eq (b : Builtin) (v : Value) (vs : List Value) (s : State) :
    Nested.onMachine (Machine.callBuiltin b.name (v :: vs)) s =
      match Host.call b vs s.machine.host with
      | .ok w host => .ok w (hosted s host)
      | .error f host => .error (.fault f) (hosted s host) := by
  obtain ⟨⟨m, h, n⟩, calls, temps⟩ := s
  simp only [Nested.onMachine, Machine.callBuiltin_apply, Builtin.ofLabel?_name, List.drop_one,
    List.tail_cons]
  cases Host.call b vs h <;> rfl

/-- A built-in works on the host of both sides. -/
theorem Passes.builtin {W : World} {bound : Nat} {Γ : Env} {lo hi : Nat} {xs : RunM (List Datum)}
    {ss : List Stmt} {ts : List Temp} {b : Builtin}
    (missing : W.setting.program.chunk? b.name = none) (low : 0 < lo)
    (passes : Passes W bound Γ lo hi (b.params.map Ty.kind) xs ss ts) :
    Means W bound Γ lo hi (.word b.result.leaf)
      (xs >>= fun args => args.mapM Datum.toWord >>= fun vs =>
        Meaning.onHost (Host.call b vs) >>= fun v =>
        pure (.word v))
      (.after (.seq ss) (.call b.name (.int 0 :: ts.map .temp))) := by
  intro σ s ready
  refine .after (flattenList_eq_self passes.flat) (passes.runs ready) ?_
  rintro args σ' s' ⟨stays, shows, kinds⟩
  have ne (t : Temp) (mem : t ∈ ts) : t ≠ Temp.fp :=
    Nat.ne_of_gt (Nat.lt_of_lt_of_le low (passes.temps t mem).1)
  obtain ⟨vs, rfl, suit⟩ :=
    words_of_kinds (by cases b <;> decide) (List.forall₂_map_right_iff.1 kinds)
  have words : (vs.map Datum.word).map (shown W.storage W.top σ.stack) = vs := by
    rw [List.map_map]
    exact List.map_id vs
  rw [words] at shows
  have call : Ends (fun n => Nested.call W.setting n b.name (.ofInt 0 :: vs)) s' _ :=
    (Ends.const (Nested.onMachine (Machine.callBuiltin b.name (.ofInt 0 :: vs))) s').step
      ⟨s', rfl⟩ fun n => by
      simp only [Nested.call, missing]
  rw [callBuiltin_eq, stays.related.host] at call
  refine .called rfl rfl ne shows (.source (congrFun (mapM_toWord vs) σ') ?_)
  rcases host_call_cases suit σ'.host with ⟨v, host, called, kind⟩ | ⟨f, host, called, -⟩
  · rw [called] at call
    refine .source (show Meaning.onHost _ σ' = _ by rw [onHost_apply, called])
      (.ok rfl call ⟨?_, rfl, .inl kind⟩)
    exact ⟨stays.related.hosted host, stays.typed.onHost host, stays.stack, stays.temps⟩
  · rw [called] at call
    refine .fault ?_ call ⟨stays.related.hosted host, (stays.runs ready).running⟩
    rw [bind_apply, onHost_apply, called]

/-! ## Functions -/

/-- Calls of functions do what their code does. -/
def Calls (W : World) (bound : Nat) (call : NodeId → List Datum → RunM Datum) : Prop :=
  ∀ ⦃label r f⦄, W.context.routine label r → r.level.function = some f →
    ∀ ⦃σ s args n⦄, W.Relates σ s →
    Typed W.storage True σ → Linked σ.stack (linkFor σ.stack r.outer) r.outer →
    List.Forall₂ (fun d x => HasKind W.storage True σ.stack (W.storage.content x).kind d) args
      r.level.params →
    Simulates W bound (call f args) (fun n => Nested.call W.setting n label
        (linkWord W.storage W.top σ.stack (linkFor σ.stack r.outer) ::
          args.map (shown W.storage W.top σ.stack)))
      (fun d σ' v s' => Stays W n n σ s σ' s' ∧ v = shown W.storage W.top σ.stack d ∧
        HasKind W.storage True σ.stack (.word r.result) d) σ s

section

variable {frame : Frame} {level : Level}

variable {W : World} {bound : Nat} {Γ : Env} {lo hi : Nat} {ks : List Kind} {xs : RunM (List Datum)}
  {ss : List Stmt} {ts : List Temp} {call : NodeId → List Datum → RunM Datum} {label : String}

theorem Calls.means (calls : Calls W bound call) {r : Routine} {f : NodeId}
    (routine : W.context.routine label r) (function : r.level.function = some f) {link : Expr}
    (linked : ∀ ⦃σ s⦄, Ready W Γ σ s → Linked σ.stack (linkFor σ.stack r.outer) r.outer ∧
      link.isFlat = true ∧ ∀ {m : Memory} {us : Temps}, Represents W.storage W.top σ m →
      Linear.eval m us link = .ok (linkWord W.storage W.top σ.stack (linkFor σ.stack r.outer)))
    (low : 0 < lo) (le : lo ≤ hi)
    (passes : Passes W bound Γ lo hi (r.level.params.map fun x => (W.storage.content x).kind) xs ss
      ts) :
    Means W bound Γ lo hi (.word r.result) (xs >>= fun args => call f args)
      (.after (.seq ss) (.call label (link :: ts.map .temp))) := by
  intro σ s ready
  refine .after (flattenList_eq_self passes.flat) (passes.runs ready) ?_
  rintro args σ' s' ⟨stays, shows, kinds⟩
  obtain ⟨chain, flat, value⟩ := linked (stays.ready ready)
  rw [← stays.stack] at shows kinds ⊢
  have ne (t : Temp) (mem : t ∈ ts) : t ≠ Temp.fp := by
    have := (passes.temps t mem).1
    exact Nat.ne_of_gt (Nat.lt_of_lt_of_le low this)
  refine .called flat (value stays.related.memory) ne shows ?_
  refine (calls (n := lo) routine function stays.related stays.typed chain
    (List.forall₂_map_right_iff.1 kinds)).imp ?_
  rintro d σ'' v s'' ⟨later, holds⟩
  exact ⟨stays.trans (later.widen (Nat.le_refl _) le), holds⟩

theorem readTemp_rv (s : State) : Nested.readTemp Temp.rv s = .ok (held s Temp.rv) s := by
  simp [Nested.readTemp, bind_apply, get_apply, pure_apply, Temps.get, Temp.rv, Temp.fp, held]

/-- What is left of a call once its body has run. -/
def handBack (caller : Nested.Caller) : Nested.Flow → Nested.EvalM Value
  | .jump label => throw (.fault (.undefinedLabel label))
  | .next => do
    let v ← Nested.readTemp Temp.rv
    Nested.leave caller
    return v

theorem call_eq_handBack {setting : Nested.Setting} {body : Stmt}
    (chunk : setting.program.chunk? label = some ⟨frame, body⟩) (n : Nat) (args : List Value) :
    Nested.call setting (n + 1) label args =
      Nested.enter setting label frame args >>= fun caller =>
        Nested.exec setting n body >>= handBack caller := by
  simp only [Nested.call, chunk]
  rfl

/-- Code in an activation of its own, which leaves a value in `Temp.rv`. -/
theorem simulates_activation {outer : Env} {α : Type} {x : RunM α} {body : Stmt}
    (chunk : W.setting.program.chunk? label = some ⟨frame, body⟩)
    (record : Recorded W.storage frame level) (named : frame.label = W.label level)
    (post : α → Value → Prop)
    (runs : ∀ ⦃σ s⦄, Ready W (level :: outer) σ s →
      Simulates W bound x (fun n => Nested.exec W.setting n body)
      (fun a σ' flow s' => flow = .next ∧ W.Relates σ' s' ∧ Typed W.storage True σ' ∧
      σ'.stack = σ.stack ∧ post a (held s' Temp.rv)) σ s) {σ : Store} {s : State}
    (related : W.Relates σ s) (typed : Typed W.storage True σ) {link : Option Nat}
    (linked : Linked σ.stack link outer) {args : List Datum}
    (kinds : List.Forall₂ (fun d x => HasKind W.storage True σ.stack (W.storage.content x).kind d)
      args level.params) (n : Nat) :
    Simulates W (bound + 1)
      (enter level link args >>= fun _ => x >>= fun a => leave >>= fun _ => pure a)
      (fun n => Nested.call W.setting n label
        (linkWord W.storage W.top σ.stack link :: args.map (shown W.storage W.top σ.stack)))
      (fun a σ' v s' => Stays W n n σ s σ' s' ∧ post a v) σ s := by
  have entered : Simulates W bound
    (enter level link args >>= fun _ => x >>= fun a => leave >>= fun _ => pure a)
      (fun n => Nested.enter W.setting label frame
          (linkWord W.storage W.top σ.stack link :: args.map (shown W.storage W.top σ.stack)) >>=
          fun caller =>
        Nested.exec W.setting n body >>= handBack caller)
      (fun a σ' v s' => Stays W n n σ s σ' s' ∧ post a v) σ s := by
    rcases related.enter typed label record named linked.lt kinds with
      ⟨h, s', limit, refused⟩ | ⟨s₁, opened, related₁⟩
    · exact .exhausted limit (Ends.bind_error (ends_of_eq refused))
    refine .source rfl (.target (reaches_const opened) ?_)
    have ready : Ready W (level :: outer) (σ.opened level link args) s₁ := by
      refine ⟨related₁, typed.opened record (fun _ _ _ => trivial) linked.lt kinds, σ.stack.length,
        ?_, ⟨level, link⟩, ?_,
        rfl, linked.append⟩
      · simp [Store.opened]
      · simp [Store.opened]
    refine (runs ready).bind ?_
    rintro a σ₂ _ s₂ ⟨rfl, related₂, typed₂, stack, holds⟩
    have stack : σ₂.stack = σ.stack ++ [⟨level, link⟩] := stack
    have saved : s.machine.memory.registers =
        ⟨edge W.storage W.top σ.stack σ.stack.length,
          edge W.storage W.top σ.stack σ.stack.length⟩ := by
      rw [Memory.registers, related.memory.fp, related.memory.sp]
    obtain ⟨s₃, left, related₃, temps⟩ :=
      related₂.leave typed₂ stack (c := ⟨s.machine.memory.registers, s.temps⟩) saved
    have returns : handBack ⟨s.machine.memory.registers, s.temps⟩ .next s₂ =
        .ok (held s₂ Temp.rv) s₃ := by
      simp only [handBack, bind_apply, readTemp_rv, left, pure_apply]
    have closed : σ₂.closed.stack = σ.stack := by simp [Store.closed, stack]
    refine .ok rfl (ends_of_eq returns)
      ⟨⟨related₃, typed₂.closed stack, closed, fun t _ => ?_⟩, holds⟩
    rw [held, temps]
    rfl
  exact entered.step_succ ⟨s, rfl⟩ fun n => congrFun (call_eq_handBack chunk n _) s

/-- The code of a function gives the value of its body. -/
theorem simulates_call {outer : Env} {k : Value.Kind} {x : RunM Datum} {r : Expr}
    (chunk : W.setting.program.chunk? label = some ⟨frame, .move (.temp Temp.rv) r⟩)
    (record : Recorded W.storage frame level) (named : frame.label = W.label level)
    (body : Means W bound (level :: outer) lo hi (.word k) x r) {σ : Store} {s : State}
    (related : W.Relates σ s) (typed : Typed W.storage True σ) {link : Option Nat}
    (linked : Linked σ.stack link outer) {args : List Datum}
    (kinds : List.Forall₂ (fun d x => HasKind W.storage True σ.stack (W.storage.content x).kind d)
      args level.params) (n : Nat) :
    Simulates W (bound + 1)
      (enter level link args >>= fun _ => x >>= fun d => leave >>= fun _ => pure d)
      (fun n => Nested.call W.setting n label
        (linkWord W.storage W.top σ.stack link :: args.map (shown W.storage W.top σ.stack)))
      (fun d σ' v s' => Stays W n n σ s σ' s' ∧ v = shown W.storage W.top σ.stack d ∧
        HasKind W.storage True σ.stack (.word k) d) σ s := by
  refine simulates_activation chunk record named _ (fun σ₁ s₁ ready => ?_) related typed
    linked kinds n
  refine (Simulates.written (by decide) (body ready.ticked)).imp ?_
  rintro d σ₂ _ _ ⟨rfl, v, s₂, ⟨stays, rfl, kind⟩, rfl⟩
  obtain ⟨w, rfl, word⟩ := kind.word
  exact ⟨rfl, stays.related.written Temp.rv w, stays.typed, stays.stack, held_written .., word⟩

end

end PinsBackend.Meaning
