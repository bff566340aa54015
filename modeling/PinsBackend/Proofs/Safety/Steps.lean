import PinsBackend.Proofs.Machine.Lockstep
import PinsBackend.Proofs.Safety.States

/-! One step of the linear machine on typed code.

A step of a sane configuration takes one turn, whatever the size of memory, except that a call may
find no room for its record; and the turn leads to a sane configuration, to the end of the run or to
a fault that typed code can have. -/
namespace PinsBackend.Safety

open Ir Kinds
open Lowering (frameAt)
open Meaning (Place Datum Activation Store)
open Syntax (Env Level)

variable {C : LinearProgram} {machine : Machine} {act : Linear.Activation}
  {callers : List Linear.Activation} {s' : Linear.State}

/-! ## Turns -/

/-- How a step ends, without addresses. -/
inductive Turn where
  | next (A : Config)
  | stop (h : Halt Fault) (A : Config)
  /-- The outermost activation returned, with this result if it has one. -/
  | done (v : Option Value) (A : Config)

/-- The records of the activations lie above static data. -/
def Room (S : Storage) (top : Int) (stack : List Activation) : Prop :=
  S.static ≤ edge S top stack stack.length

/-- The machine takes a turn. -/
def Takes (S : Storage) (top : Int) (r : EStateM.Result (Halt Fault) Linear.State (Option Value)) :
    Turn → Prop
  | .next A => (Room S top A.store.stack → ∃ s', r = .ok none s' ∧ Shows S top A s') ∧
    (¬ Room S top A.store.stack → ∃ sp s', r = .error (.fault (.stackOverflow sp)) s')
  | .stop h A => ∃ s', r = .error h s' ∧ Shows S top A s'
  | .done v A => ∃ w s', r = .ok (some w) s' ∧ (∀ x ∈ v, w = x) ∧ Shows S top A s'

/-- Turns that keep a configuration sane. -/
def Turn.Good (K : Context) (frame : Level → Frame) (init : Level) (loose : Prop)
    (last : Option Value.Kind) : Turn → Prop
  | .next A => Sane K frame init loose last A
  | .stop h A => h ≠ .unfinished ∧ (∀ f, h = .fault f → Possible loose f) ∧ A.acts ≠ []
  | .done v A => Typed K.storage loose A.store ∧ A.store.stack = [] ∧ A.acts = [] ∧
    (last.isSome = true → v.isSome = true)

/-- The running activation of a sane configuration. -/
structure Focus (K : Context) (frame : Level → Frame) (init : Level) (loose : Prop)
    (last : Option Value.Kind) (σ : Store) (a : Act) (as : List Act) (result : Option Value.Kind)
    (Γ : Env) (κ : Temp → Option Kind) (Ψ : Kinds.Scope) (D D' : Set Temp) : Prop where
  typed : Typed K.storage loose σ
  recent : Recent σ.stack
  length : as.length + 1 = σ.stack.length
  runs : Runs K frame init loose σ.stack a result none Γ κ Ψ D D'
  outermost : as = [] → result = last
  callers : Stacked K frame init loose last σ.stack (waits a.result result) as

section

variable {K : Context} {frame : Level → Frame} {init : Level} {loose : Prop}
  {last : Option Value.Kind} {σ : Store} {a : Act} {as : List Act} {n : Nat}
  {result : Option Value.Kind} {Γ : Env} {κ : Temp → Option Kind} {Ψ : Kinds.Scope}
    {D D' : Set Temp}

theorem Sane.focus (h : Sane K frame init loose last ⟨σ, a :: as, n⟩) :
    ∃ result Γ κ Ψ D D', Focus K frame init loose last σ a as result Γ κ Ψ D D' := by
  obtain ⟨result, outermost, ⟨Γ, κ, Ψ, D, D', runs⟩, callers⟩ := h.acts
  have length : as.length + 1 = σ.stack.length := h.length
  rw [show σ.stack.take (as.length + 1) = σ.stack from List.take_of_length_le
    (Nat.le_of_eq length.symm)]
    at runs
  exact ⟨result, Γ, κ, Ψ, D, D', h.typed, h.recent, length, runs, outermost, callers⟩

theorem Focus.sane (h : Focus K frame init loose last σ a as result Γ κ Ψ D D') :
    Sane K frame init loose last ⟨σ, a :: as, n⟩ := by
  refine ⟨h.typed,
    h.recent, by simp, h.length, result, h.outermost, ⟨Γ, κ, Ψ, D, D', ?_⟩, h.callers⟩
  rw [show σ.stack.take (as.length + 1) = σ.stack from List.take_of_length_le
    (Nat.le_of_eq h.length.symm)]
  exact h.runs

/-- The running activation goes on somewhere else in its code, with other temporaries. -/
theorem Focus.goOn (h : Focus K frame init loose last σ a as result Γ κ Ψ D D') {σ' : Store}
    (typed : Typed K.storage loose σ') (stack : σ'.stack = σ.stack) {rest : List Stmt}
    (suffix : rest <:+ a.chunk.body) {θ : Temp → Option Datum} {E : Set Temp}
    (kinded : Kinded K Γ κ (.run Ψ E rest D')) (holds : Holds K.storage loose σ.stack κ E θ)
    (bounded : ∀ t d, θ t = some d → Bounded σ.stack.length d) :
    Focus K frame init loose last σ' { a with rest, temps := θ } as result Γ κ Ψ E D' := by
  refine ⟨typed, stack ▸ h.recent, stack ▸ h.length, ?_, h.outermost, stack ▸ h.callers⟩
  rw [stack]
  exact { h.runs with
    suffix := suffix
    rest := kinded
    holds := fun t ht _ => holds t ht
    bounded := bounded
    awaits := by simp }

theorem Focus.holds (h : Focus K frame init loose last σ a as result Γ κ Ψ D D') :
    Holds K.storage loose σ.stack κ D a.temps := fun t ht => h.runs.holds t ht (by simp)

theorem Focus.evaluates (h : Focus K frame init loose last σ a as result Γ κ Ψ D D') {e : Expr}
    {k : Kind} (kinded : Kinded K Γ κ (.value D e k)) (flat : e.isFlat = true) :
    Evaluates K.storage loose σ a.temps e k := by
  obtain ⟨n, running, linked⟩ := h.runs.linked
  exact Safety.evaluates rfl h.typed running linked h.holds kinded flat

end

section

variable {S : Storage} {top : Int} {σ : Store} {a : Act} {as : List Act} {n : Nat}

theorem shows_cons {s : Linear.State} (h : Shows S top ⟨σ, a :: as, n⟩ s) :
    ∃ m act callers, s = ⟨⟨m, σ.host, n⟩, act :: callers⟩ ∧ Represents S top σ m ∧
      ShowsAct S top σ.stack as.length a act ∧ ShowsActs S top σ.stack as callers := by
  obtain ⟨⟨m, host, steps⟩, stack⟩ := s
  obtain ⟨memory, same, counted, acts⟩ := h
  obtain rfl : host = σ.host := same
  obtain rfl : steps = n := counted
  cases stack with
  | nil => cases acts
  | cons act callers => exact ⟨m, act, callers, rfl, memory, acts.1, acts.2⟩

theorem ShowsAct.views {m : Memory} {act : Linear.Activation} (h : ShowsAct S top σ.stack n a act)
    (hm : Represents S top σ m) : Views S top σ a.temps m act.temps := ⟨hm, h.temps⟩

/-- A turn that opens no record finds room, since the records lie there already. -/
theorem takes_next {r : EStateM.Result (Halt Fault) Linear.State (Option Value)} {A : Config}
    (stack : A.store.stack = σ.stack) {m : Memory} (hm : Represents S top σ m)
    (h : ∃ s', r = .ok none s' ∧ Shows S top A s') : Takes S top r (.next A) :=
  ⟨fun _ => h, fun none => absurd (show Room S top A.store.stack from stack ▸ hm.room) none⟩

end

/-- Executes a statement of the running activation. -/
def perform (C : LinearProgram) (stmt : Stmt) (s : Linear.State) :
    EStateM.Result (Halt Fault) Linear.State (Option Value) :=
  match s.stack with
  | [] => .error .unfinished s
  | act :: _ =>
    match Linear.execute C act.temps stmt s with
    | .ok () s' => .ok none s'
    | .error h s' => .error h s'

theorem perform_ok {stmt : Stmt}
    (h : Linear.execute C act.temps stmt ⟨machine, act :: callers⟩ = .ok () s') :
    perform C stmt ⟨machine, act :: callers⟩ = .ok none s' := by simp only [perform, h]

theorem perform_error {stmt : Stmt} {h : Halt Fault}
    (he : Linear.execute C act.temps stmt ⟨machine, act :: callers⟩ = .error h s') :
    perform C stmt ⟨machine, act :: callers⟩ = .error h s' := by simp only [perform, he]

/-! ## Statements -/

section

variable {E : Set Temp} {e : Expr}

variable {K : Context} {frame : Level → Frame} {init : Level} {C : LinearProgram} {loose : Prop}
  {last : Option Value.Kind} {σ : Store} {a : Act} {as : List Act} {n : Nat}
  {result : Option Value.Kind}
  {Γ : Env} {κ : Temp → Option Kind} {Ψ : Kinds.Scope} {D D₁ D' : Set Temp}
    {θ : Temp → Option Datum}
  {t : Temp} {l : String}

/-- A statement of typed code takes a good turn, where `rest` is what stands behind it. -/
def Performs (K : Context) (frame : Level → Frame) (init : Level) (C : LinearProgram) (loose : Prop)
    (last : Option Value.Kind) (A : Config) (stmt : Stmt) : Prop :=
  ∃ turn : Turn, turn.Good K frame init loose last ∧
    ∀ {top s}, Shows K.storage top A s → Takes K.storage top (perform C stmt s) turn

/-- A fault while expressions are evaluated stops the running activation. -/
theorem performs_stop {f : Fault} {stmt : Stmt} (possible : Possible loose f)
    (h : ∀ {top m act callers}, Represents K.storage top σ m →
      ShowsAct K.storage top σ.stack as.length a act →
      Linear.execute C act.temps stmt ⟨⟨m, σ.host, n⟩, act :: callers⟩ =
        .error (.fault f) ⟨⟨m, σ.host, n⟩, act :: callers⟩) :
    Performs K frame init C loose last ⟨σ, a :: as, n⟩ stmt := by
  refine ⟨.stop (.fault f) ⟨σ, a :: as, n⟩, ⟨(fun h => by cases h), ?_, by simp⟩,
    fun {top s} shows => ?_⟩
  · rintro g hg
    cases hg
    exact possible
  · obtain ⟨m, act, callers, rfl, memory, shown, -⟩ := shows_cons shows
    exact ⟨_, perform_error (h memory shown), shows⟩

theorem holds_set {k k' : Kind} {d : Datum} (holds : Holds K.storage loose σ.stack κ D θ)
    (kind : κ t = some k') (suits : k' = k ∨ k' = .any) (hd : HasKind K.storage loose σ.stack k d) :
    Holds K.storage loose σ.stack κ (insert t D) (Function.update θ t (some d)) := by
  intro u hu k₁ hk₁
  by_cases same : u = t
  · subst same
    rw [kind] at hk₁
    cases hk₁
    refine ⟨d, Function.update_self .., ?_⟩
    rcases suits with rfl | rfl
    · exact hd
    · exact hd.any
  · obtain ⟨e, he, hek⟩ := holds u (hu.resolve_left same) k₁ hk₁
    exact ⟨e, by rwa [Function.update_of_ne same], hek⟩

theorem bounded_set {d : Datum} {m : Nat} (bounded : ∀ t d, θ t = some d → Bounded m d)
    (hd : Bounded m d) : ∀ u e, Function.update θ t (some d) u = some e → Bounded m e := by
  intro u e he
  by_cases same : u = t
  · subst same
    rw [Function.update_self] at he
    cases he
    exact hd
  · rw [Function.update_of_ne same] at he
    exact bounded u e he

theorem ne_fp {k : Kind} (noFp : κ Temp.fp = none) (kind : κ t = some k) : t ≠ Temp.fp := by
  rintro rfl
  rw [noFp] at kind
  cases kind

theorem Typed.set (typed : Typed K.storage loose σ) {p : Place} {v : Value} {k : Value.Kind}
    (content : K.storage.content p.decl = .word k) (kind : v.kind = k ∨ v = .zero ∧ loose) :
    Typed K.storage loose (σ.set p (.word v)) := by
  refine ⟨typed.laid, typed.links, fun {q} cell => ?_⟩
  by_cases same : q = p
  · subst same
    simp only [Store.set, if_true, content]
    exact kind
  · simp only [Store.set, same, if_false]
    exact typed.cells cell

/-! ## Jumps -/

theorem seek_head {code found : List Stmt} (h : Linear.seek l code = some found) :
    ∃ rest, found = .label l :: rest := by
  induction code with
  | nil => cases h
  | cons s code ih =>
    rw [Linear.seek] at h
    split at h
    · next found' hfound =>
      cases h
      exact ih hfound
    · split at h
      · next hs =>
        cases h
        cases s with
        | label m => exact ⟨code, by rw [show m = l by simpa [Stmt.isLabel] using hs]⟩
        | _ => cases hs
      · cases h

theorem kinded_suffix {body rest : List Stmt} (h : Kinded K Γ κ (.run Ψ D body D'))
    (suffix : rest <:+ body) : ∃ E, Kinded K Γ κ (.run Ψ E rest D') := by
  obtain ⟨front, rfl⟩ := suffix
  induction front generalizing D with
  | nil => exact ⟨D, h⟩
  | cons s front ih =>
    cases h with
    | cons _ after => exact ih after

/-- A label that the code expects stands in it, and what follows it is typed. -/
theorem Runs.target {stack : List Activation} {w : Option (Temp × Value.Kind)}
    (h : Runs K frame init loose stack a result w Γ κ Ψ D D') (hl : Ψ l = some E) :
    ∃ target, Linear.seek l a.chunk.body = some target ∧
      target <:+ a.chunk.body ∧ Kinded K Γ κ (.run Ψ E target D') := by
  obtain ⟨target, found⟩ := seek_isSome (h.labels l E hl)
  have suffix := seek_suffix found
  obtain ⟨rest, rfl⟩ := seek_head found
  obtain ⟨F, kinded⟩ := kinded_suffix h.body suffix
  refine ⟨_, found, suffix, ?_⟩
  cases kinded with
  | cons first after =>
    cases first with
    | label here sub =>
      rw [hl] at here
      cases here
      exact .cons (.label hl subset_rfl) after

/-! ## Statements without calls -/

variable {rest : List Stmt} (focus : Focus K frame init loose last σ a as result Γ κ Ψ D D')
  (behind : rest <:+ a.chunk.body) (after : Kinded K Γ κ (.run Ψ D₁ rest D'))

include focus behind after

/-- A statement after which the running activation goes on behind it. -/
theorem performs_next {stmt : Stmt} {σ' : Store} (typed : Typed K.storage loose σ')
    (stack : σ'.stack = σ.stack) (host : σ'.host = σ.host)
    (holds : Holds K.storage loose σ.stack κ D₁ θ)
    (bounded : ∀ t d, θ t = some d → Bounded σ.stack.length d)
    (h : ∀ {top m act} callers, Represents K.storage top σ m →
      ShowsAct K.storage top σ.stack as.length { a with rest } act →
      ∃ m' ts, Linear.execute C act.temps stmt ⟨⟨m, σ.host, n⟩, act :: callers⟩ =
      .ok () ⟨⟨m', σ.host, n⟩, { act with temps := ts } :: callers⟩ ∧
      Represents K.storage top σ' m' ∧ ShowsTemps K.storage top σ.stack θ ts) :
    Performs K frame init C loose last ⟨σ, { a with rest } :: as, n⟩ stmt := by
  refine ⟨.next ⟨σ', { a with rest, temps := θ } :: as, n⟩,
    (focus.goOn typed stack behind after holds bounded).sane, fun {top s} shows => ?_⟩
  obtain ⟨m, act, callers, rfl, memory, shown, older⟩ := shows_cons shows
  obtain ⟨m', ts, executed, memory', temps⟩ := h callers memory shown
  refine takes_next stack memory ⟨_, perform_ok executed, memory', host.symm, rfl, ?_⟩
  show ShowsActs K.storage top σ'.stack _ _
  rw [stack]
  exact ⟨⟨shown.chunk, shown.rest, shown.result, shown.saved, temps⟩, older⟩

theorem performs_assign (kinded : Kinded K Γ κ (.stmt Ψ D (.move (.temp t) e) D₁))
    (flat : e.isFlat = true) :
    Performs K frame init C loose last ⟨σ, { a with rest } :: as, n⟩ (.move (.temp t) e) := by
  cases kinded with
  | assign kind suits value =>
    have ne := ne_fp focus.runs.noFp kind
    have notCall := Expr.ne_call_of_isFlat flat
    rcases focus.evaluates value flat with ⟨d, hd, eval⟩ | ⟨f, possible, eval⟩
    · refine performs_next focus behind after focus.typed rfl rfl
        (holds_set focus.holds kind suits hd)
        (bounded_set focus.runs.bounded hd.bounded) fun {top m act} callers memory shown =>
          ⟨m, ⟨act.temps.values.insert t (Safety.shown K.storage top σ.stack d)⟩, ?_, memory,
            shown.temps.set ne d⟩
      rw [Linear.execute_move_temp notCall]
      simp only [eval (shown.views memory), Linear.assign, Temps.set, ne, if_false]
    · refine performs_stop possible fun {top m act callers} memory shown => ?_
      rw [Linear.execute_move_temp notCall]
      simp only [eval (shown.views memory)]

theorem performs_eval (kinded : Kinded K Γ κ (.stmt Ψ D (.eval e) D₁)) (flat : e.isFlat = true) :
    Performs K frame init C loose last ⟨σ, { a with rest } :: as, n⟩ (.eval e) := by
  cases kinded with
  | eval value =>
    have notCall := Expr.ne_call_of_isFlat flat
    rcases focus.evaluates value flat with ⟨d, hd, eval⟩ | ⟨f, possible, eval⟩
    · refine performs_next focus behind after focus.typed rfl rfl focus.holds focus.runs.bounded
        fun {top m act} callers memory shown => ⟨m, act.temps, ?_, memory, shown.temps⟩
      rw [Linear.execute_eval notCall]
      simp only [eval (shown.views memory)]
    · refine performs_stop possible fun {top m act callers} memory shown => ?_
      rw [Linear.execute_eval notCall]
      simp only [eval (shown.views memory)]

/-- A store writes a cell of a variable, with a word of its kind. -/
theorem performs_store {x : Expr} (kinded : Kinded K Γ κ (.stmt Ψ D (.move (.mem x) e) D₁))
    (flat : x.isFlat = true ∧ e.isFlat = true) :
    Performs K frame init C loose last ⟨σ, { a with rest } :: as, n⟩ (.move (.mem x) e) := by
  cases kinded with
  | store address pos value =>
    rcases focus.evaluates address flat.1 with ⟨d, hd, evalx⟩ | ⟨f, possible, evalx⟩
    case inr =>
      refine performs_stop possible fun {top m act callers} memory shown => ?_
      simp [Linear.execute, Linear.onMachine, Linear.storeAt, evalx (shown.views memory), bind,
        Except.bind]
    obtain ⟨p, rfl, block, content, inside⟩ := hd.place
    have cell : Cell K.storage σ.stack p := ⟨block, by omega⟩
    rcases focus.evaluates value flat.2 with ⟨d, hd, eval⟩ | ⟨f, possible, eval⟩
    case inr =>
      refine performs_stop possible fun {top m act callers} memory shown => ?_
      simp [Linear.execute, Linear.onMachine, Linear.storeAt, evalx (shown.views memory),
        eval (shown.views memory), bind, Except.bind, Safety.shown, Value.ofInt, Value.asInt]
    obtain ⟨v, rfl, kind⟩ := hd.word
    refine performs_next focus behind after (focus.typed.set content kind) rfl rfl focus.holds
      focus.runs.bounded fun {top m act} callers memory shown => ?_
    obtain ⟨m', stored, memory'⟩ := memory.store focus.typed.laid cell (.word v)
    refine ⟨m', act.temps, ?_, memory', shown.temps⟩
    have fits := memory.fits_address focus.typed.laid cell
    have stored : Memory.store (Safety.address K.storage top σ.stack p) v m = .ok () m' := stored
    simp [Linear.execute, Linear.onMachine, Linear.storeAt, evalx (shown.views memory),
      eval (shown.views memory), bind, Except.bind, pure, Except.pure, Safety.shown, Value.ofInt,
      Value.asInt, toInt_ofInt fits, Machine.onMemory, stored]

omit behind after in
/-- A jump goes on at a label, where fewer temporaries are expected. -/
theorem goto_turn (target : Ψ l = some E) (sub : E ⊆ D) :
    ∃ A, Sane K frame init loose last A ∧ A.store = σ ∧
      ∀ {top m act callers}, Represents K.storage top σ m →
        ShowsAct K.storage top σ.stack as.length { a with rest } act →
        ShowsActs K.storage top σ.stack as callers →
        ∃ s', Linear.goto l ⟨⟨m, σ.host, n⟩, act :: callers⟩ = .ok () s' ∧
          Shows K.storage top A s' := by
  obtain ⟨code, found, suffix, kinded⟩ := focus.runs.target target
  refine ⟨⟨σ, { a with rest := code } :: as, n⟩,
    (focus.goOn focus.typed rfl suffix kinded (fun t ht => focus.holds t (sub ht))
      focus.runs.bounded).sane, rfl, fun {top m act callers} memory shown older => ?_⟩
  have found : Linear.seek l act.chunk.body = some code := by rw [shown.chunk]; exact found
  exact ⟨⟨⟨m, σ.host, n⟩, { act with rest := code } :: callers⟩, by simp only [Linear.goto, found],
    memory, rfl, rfl, ⟨shown.chunk, rfl, shown.result, shown.saved, shown.temps⟩, older⟩

omit behind after in
theorem performs_jump (kinded : Kinded K Γ κ (.stmt Ψ D (.jump l) D₁)) :
    Performs K frame init C loose last ⟨σ, { a with rest } :: as, n⟩ (.jump l) := by
  cases kinded with
  | jump target sub =>
    obtain ⟨A, sane, store, goes⟩ := goto_turn (n := n) focus target sub
    refine ⟨.next A, sane, fun {top s} shows => ?_⟩
    obtain ⟨m, act, callers, rfl, memory, shown, older⟩ := shows_cons shows
    obtain ⟨s', went, shows'⟩ := goes memory shown older
    exact takes_next (by rw [store]) memory ⟨s', perform_ok went, shows'⟩

omit behind after in
theorem performs_cjump {c : Expr} {k : String} (kinded : Kinded K Γ κ (.stmt Ψ D (.cjump c l k) D₁))
    (flat : c.isFlat = true) :
    Performs K frame init C loose last ⟨σ, { a with rest } :: as, n⟩ (.cjump c l k) := by
  cases kinded with
  | cjump condition onTrue subTrue onFalse subFalse =>
    rcases focus.evaluates condition flat with ⟨d, hd, eval⟩ | ⟨f, possible, eval⟩
    case inr =>
      refine performs_stop possible fun {top m act callers} memory shown => ?_
      simp [Linear.execute, bind_apply, get_apply, Linear.lift, eval (shown.views memory)]
    obtain ⟨i, rfl⟩ := hd.integer
    have decided {top m act callers} (memory : Represents K.storage top σ m)
        (shown : ShowsAct K.storage top σ.stack as.length { a with rest } act) :
        Linear.execute C act.temps (.cjump c l k) ⟨⟨m, σ.host, n⟩, act :: callers⟩ =
          Linear.goto (if (i != 0) = true then l else k) ⟨⟨m, σ.host, n⟩, act :: callers⟩ := by
      simp [Linear.execute, bind_apply, get_apply, Linear.lift, eval (shown.views memory),
        Safety.shown, Value.isTruthy, Value.asInt]
    obtain ⟨A, sane, store, goes⟩ : ∃ A, Sane K frame init loose last A ∧ A.store = σ ∧
        ∀ {top m act callers}, Represents K.storage top σ m →
          ShowsAct K.storage top σ.stack as.length { a with rest } act →
          ShowsActs K.storage top σ.stack as callers →
          ∃ s', Linear.goto (if (i != 0) = true then l else k) ⟨⟨m, σ.host, n⟩, act :: callers⟩ =
            .ok () s' ∧ Shows K.storage top A s' := by
      split
      · exact goto_turn focus onTrue subTrue
      · exact goto_turn focus onFalse subFalse
    refine ⟨.next A, sane, fun {top s} shows => ?_⟩
    obtain ⟨m, act, callers, rfl, memory, shown, older⟩ := shows_cons shows
    obtain ⟨s', went, shows'⟩ := goes memory shown older
    exact takes_next (by rw [store]) memory
      ⟨s', perform_ok ((decided memory shown).trans went), shows'⟩

theorem performs_label (kinded : Kinded K Γ κ (.stmt Ψ D (.label l) D₁)) :
    Performs K frame init C loose last ⟨σ, { a with rest } :: as, n⟩ (.label l) := by
  cases kinded with
  | label here sub =>
    exact performs_next focus behind after focus.typed rfl rfl (fun t ht => focus.holds t (sub ht))
      focus.runs.bounded fun {top m act} callers memory shown =>
      ⟨m, act.temps, rfl, memory, shown.temps⟩

end

end PinsBackend.Safety
