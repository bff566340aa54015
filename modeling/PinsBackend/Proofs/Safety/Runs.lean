import PinsBackend.Proofs.Canonical.Preservation
import PinsBackend.Proofs.Machine.Visited
import PinsBackend.Proofs.Safety.Start
import PinsBackend.Proofs.Safety.Turns

/-! Runs of compiled programs in memories of two sizes.

As long as the smaller memory has room, both runs show the same configurations, so they end alike.
-/
namespace PinsBackend.Safety

open Ir Kinds
open Meaning (Place Datum Activation Store)
open Syntax (Env Level)

/-! ## Loops -/

theorem Room.mono {S : Storage} {stack : List Activation} {top top' : Int} (le : top ≤ top')
    (h : Room S top stack) : Room S top' stack := by
  simp only [Room, edge] at *
  omega

theorem Shows.running {S : Storage} {top top' : Int} {A : Config} {s s' : Linear.State}
    (h : Shows S top A s) (h' : Shows S top' A s') (label : String) :
    s'.running label = s.running label := by
  obtain ⟨σ, acts, n⟩ := A
  cases acts with
  | nil =>
    obtain ⟨machine, stack⟩ := s
    obtain ⟨machine', stack'⟩ := s'
    cases stack with
    | cons => exact absurd h.acts id
    | nil =>
      cases stack' with
      | cons => exact absurd h'.acts id
      | nil => rfl
  | cons a as =>
    obtain ⟨m, act, callers, rfl, -, shown, -⟩ := shows_cons h
    obtain ⟨m', act', callers', rfl, -, shown', -⟩ := shows_cons h'
    show act'.chunk.frame.label = act.chunk.frame.label
    rw [shown.chunk, shown'.chunk]

/-- Two computations of the machine end alike: in one configuration, with one result or fault. -/
inductive Alike (K : Context) (loose : Prop) (last : Option Value.Kind) (top top' : Int) :
    EStateM.Result (Halt Fault) Linear.State Value →
      EStateM.Result (Halt Fault) Linear.State Value → Prop
  | ok {v v' : Value} {s s' : Linear.State} {A : Config} (same : last.isSome = true → v' = v)
      (typed : Typed K.storage loose A.store) (empty : A.store.stack = []) (acts : A.acts = [])
      (here : Shows K.storage top A s) (there : Shows K.storage top' A s') :
      Alike K loose last top top' (.ok v s) (.ok v' s')
  | error {h : Halt Fault} {s s' : Linear.State} {A : Config} (possible : ∀ f, h = .fault f →
      Possible loose f)
      (here : Shows K.storage top A s) (there : Shows K.storage top' A s') :
      Alike K loose last top top' (.error h s) (.error h s')

section

variable {σ : Store} {k : Value.Kind}

variable {K : Context} {frame : Level → Frame} {init l : Level} {C : LinearProgram} {loose : Prop}
  {last result : Option Value.Kind} {top top' : Int} {s s' : Linear.State} {label : String}
  {c : Chunk (List Stmt)} {budget : Option Nat}

/-- A loop in a larger memory ends as one in a smaller memory, unless that overflows its stack. -/
theorem loop_alike (sound : Sound K frame init C) (strings : Loose K init → loose)
    (budget : Option Nat) (le : top ≤ top') (fuel : Nat) {A : Config}
    (sane : Sane K frame init loose last A) (here : Shows K.storage top A s)
    (there : Shows K.storage top' A s') :
    (∃ sp s₁, Linear.loop C budget fuel s = .error (.fault (.stackOverflow sp)) s₁) ∨
      Alike K loose last top top' (Linear.loop C budget fuel s) (Linear.loop C budget fuel s') := by
  induction fuel generalizing A s s' with
  | zero => exact .inr (.error (fun _ h => by cases h) here there)
  | succ fuel ih =>
    obtain ⟨turn, good, takes⟩ := takes_turn sound strings budget sane
    have takes₁ := takes here
    have takes₂ := takes there
    simp only [Linear.loop, bind_apply]
    cases turn with
    | stop h B =>
      obtain ⟨s₁, stop, here⟩ := takes₁
      obtain ⟨s₁', stop', there⟩ := takes₂
      rw [stop, stop']
      exact .inr (.error good.2.1 here there)
    | done v B =>
      obtain ⟨w, s₁, done, same, here⟩ := takes₁
      obtain ⟨w', s₁', done', same', there⟩ := takes₂
      rw [done, done']
      refine .inr (.ok (fun hl => ?_) good.1 good.2.1 good.2.2.1 here there)
      obtain ⟨x, hx⟩ := Option.isSome_iff_exists.1 (good.2.2.2 hl)
      rw [same x hx, same' x hx]
    | next B =>
      by_cases room : Room K.storage top B.store.stack
      · obtain ⟨s₁, step, here⟩ := takes₁.1 room
        obtain ⟨s₁', step', there⟩ := takes₂.1 (room.mono le)
        rw [step, step']
        exact ih good here there
      · obtain ⟨sp, s₁, full⟩ := takes₁.2 room
        exact .inl ⟨sp, s₁, by rw [full]⟩

/-! ## Calls from outside -/

/-- A function that can be called from outside: no function stands around it, and it has no
parameters. -/
structure Outermost (K : Context) (frame : Level → Frame) (init : Level) (C : LinearProgram)
    (label : String) (result : Option Value.Kind) (l : Level) (c : Chunk (List Stmt)) : Prop where
  chunk : C.chunk? label = some c
  framed : c.frame = frame l
  record : Recorded K.storage (frame l) l
  noParams : l.params = []
  known : [l] = [init] ∨ ∃ label r, K.routine label r ∧ [l] = r.env
  coded : Coded K [l] result c.body
  strings : ∀ d ∈ l.locals, K.storage.content d = .word .string → Loose K init

theorem zeroArguments_none : Machine.zeroArguments 0 = .ok [.zero] := by decide

/-- The call of a function from outside starts a sane configuration. -/
theorem call_starts (callee : Outermost K frame init C label result l c)
    (strings : Loose K init → loose) (typed : Typed K.storage loose σ) (empty : σ.stack = [])
    (n : Nat) :
    (∃ o, ∀ m, Linear.call C label [.zero] none ⟨⟨m, σ.host, n⟩, []⟩ =
      .error (.overflow o) ⟨⟨m, σ.host, n⟩, []⟩) ∨
    ∃ A, Sane K frame init loose result A ∧ ∀ {top m}, Represents K.storage top σ m →
      (Room K.storage top A.store.stack →
        ∃ s', Linear.call C label [.zero] none ⟨⟨m, σ.host, n⟩, []⟩ =
        .ok () s' ∧ Shows K.storage top A s') ∧
      (¬ Room K.storage top A.store.stack → ∃ sp, Linear.call C label [.zero] none
        ⟨⟨m, σ.host, n⟩, []⟩ = .error (.fault (.stackOverflow sp)) ⟨⟨m, σ.host, n⟩, []⟩) := by
  have record : Recorded K.storage c.frame l := callee.framed ▸ callee.record
  have kinds : List.Forall₂
    (fun d x => HasKind K.storage loose σ.stack (K.storage.content x).kind d) []
      l.params := callee.noParams ▸ .nil
  have noLink : ∀ j ∈ (none : Option Nat), j < σ.stack.length := fun _ h => by cases h
  have alone : ([] : List Act).length = σ.stack.length := by rw [empty]; rfl
  have outcome :=
    call_opens callee.chunk record typed noLink kinds none alone (fun _ h => by cases h) n
  simp only [linkWord, List.map_nil] at outcome
  rcases outcome with ⟨o, refused⟩ | opens
  · exact .inl ⟨o, fun m => @refused 0 m []⟩
  · refine .inr ⟨⟨σ.opened l none [], [opening c none], n⟩, ?_, fun memory => opens memory trivial⟩
    have stack : (σ.opened l none []).stack = [⟨l, none⟩] := by simp [Store.opened, empty]
    refine ⟨typed.opened record (fun d hd string => strings (callee.strings d hd string))
      noLink kinds, ?_,
      by simp, by rw [stack]; rfl, result, fun _ => rfl, ?_, trivial⟩
    · rw [stack]
      refine ⟨fun {k hops j} hk pos hj {i b c} hji hik => ?_⟩
      simp only [List.length_singleton] at hk
      omega
    · rw [stack]
      exact runs_opening rfl callee.known (fun l' hl' => by cases hl'; exact callee.framed)
        ⟨⟨l, none⟩, rfl, rfl, trivial⟩ callee.coded fun _ => rfl

/-- Two calls from outside end alike. -/
inductive AlikeCall (K : Context) (loose : Prop) (result : Option Value.Kind) (top top' : Int) :
    EStateM.Result (Halt Crash) Machine Value → EStateM.Result (Halt Crash) Machine Value → Prop
  | ok {v v' : Value} {σ : Store} {m m' : Memory} {n : Nat} (same : result.isSome = true → v' = v)
      (typed : Typed K.storage loose σ) (empty : σ.stack = []) (here : Represents K.storage top σ m)
      (there : Represents K.storage top' σ m') :
      AlikeCall K loose result top top' (.ok v ⟨m, σ.host, n⟩) (.ok v' ⟨m', σ.host, n⟩)
  | error {h : Halt Crash} {m m' : Memory} {host : Host} {n : Nat}
      (possible : ∀ c, h = .fault c → Possible loose c.fault) :
      AlikeCall K loose result top top' (.error h ⟨m, host, n⟩) (.error h ⟨m', host, n⟩)

theorem invoke_alike (sound : Sound K frame init C) (strings : Loose K init → loose)
    (budget : Option Nat) (le : top ≤ top') (fuel : Nat)
    (callee : Outermost K frame init C label result l c) (typed : Typed K.storage loose σ)
    (empty : σ.stack = []) (n : Nat) {m m' : Memory} (here : Represents K.storage top σ m)
    (there : Represents K.storage top' σ m') :
    (∃ function sp machine, Linear.invoke C budget fuel label ⟨m, σ.host, n⟩ =
      .error (.fault ⟨function, .stackOverflow sp⟩) machine) ∨
    AlikeCall K loose result top top' (Linear.invoke C budget fuel label ⟨m, σ.host, n⟩)
      (Linear.invoke C budget fuel label ⟨m', σ.host, n⟩) := by
  have count : c.frame.parameterCount = 0 := by
    rw [callee.framed, callee.record.count, callee.noParams]
    rfl
  simp only [Linear.invoke, callee.chunk, count, zeroArguments_none, bind_apply]
  rcases call_starts callee strings typed empty n with ⟨o, refused⟩ | ⟨A, sane, starts⟩
  · simp only [refused]
    exact .inr (.error (fun _ h => by cases h))
  · by_cases room : Room K.storage top A.store.stack
    · obtain ⟨s, called, shows⟩ := (starts here).1 room
      obtain ⟨s', called', shows'⟩ := (starts there).1 (room.mono le)
      simp only [called, called']
      rcases loop_alike sound strings budget le fuel sane shows shows' with ⟨sp, s₁, full⟩ | alike
      · rw [full]
        exact .inl ⟨_, sp, _, rfl⟩
      · generalize Linear.loop C budget fuel s = r at alike
        generalize Linear.loop C budget fuel s' = r' at alike
        cases alike with
        | @ok v v' s₁ s₁' B same typed empty _ here there =>
          obtain ⟨m₁, stack, rfl⟩ := here.eta
          obtain ⟨m₁', stack', rfl⟩ := there.eta
          exact .inr (.ok same typed empty here.memory there.memory)
        | @error h s₁ s₁' B possible here there =>
          simp only [here.running there label]
          obtain ⟨m₁, stack, rfl⟩ := here.eta
          obtain ⟨m₁', stack', rfl⟩ := there.eta
          refine .inr (.error fun c hc => ?_)
          cases h with
          | fault f =>
            cases hc
            exact possible f rfl
          | overflow o => cases hc
          | unfinished => cases hc
    · obtain ⟨sp, full⟩ := (starts here).2 room
      simp only [full]
      exact .inl ⟨_, sp, _, rfl⟩

/-- The global initializers can be called from outside. -/
theorem outermost_init (sound : Sound K frame init C) :
    ∃ c, Outermost K frame init C Frame.initLabel none init c := by
  obtain ⟨c, chunk, framed, coded⟩ := sound.init
  exact ⟨c, chunk, framed, sound.initRecord, sound.noParams, .inl rfl, coded,
    fun d hd string => ⟨d, string, .inr (.inl hd)⟩⟩

/-! ## Runs -/

/-- A fault for want of memory. -/
def lacksMemory : Fault → Bool
  | .outOfMemory _ _ | .stackOverflow _ => true
  | _ => false

/-- What is seen of a run from outside: all but memory. -/
def seen : EStateM.Result (Halt Crash) Machine Outcome → Except (Halt Crash) Outcome × Host × Nat
  | .ok o last => (.ok o, last.host, last.steps)
  | .error h last => (.error h, last.host, last.steps)

/-- A run in a larger memory looks like one in a smaller memory, unless that is too small. -/
theorem run_alike (sound : Sound K frame init C) (strings : Loose K init → loose)
    (budget : Option Nat) (fuel : Nat) (entry : Outermost K frame init C C.entry (some k) l c)
    {words words' : Nat} (le : words ≤ words') (fits : Word.Fits (words * Word.bytes))
    (fits' : Word.Fits (words' * Word.bytes)) (sink : Sink) :
    (∃ crash last, Linear.run C budget fuel (.create words sink) = .error (.fault crash) last ∧
      lacksMemory crash.fault = true) ∨
    (seen (Linear.run C budget fuel (.create words' sink)) =
        seen (Linear.run C budget fuel (.create words sink)) ∧
      ∀ crash last, Linear.run C budget fuel (.create words sink) = .error (.fault crash) last →
        Possible loose crash.fault) := by
  have more : (words : Int) * Word.bytes ≤ words' * Word.bytes := by
    simp only [Word.bytes]
    omega
  simp only [Canonical.linear_run_eq, Canonical.runBy, Machine.create, Machine.onMemory]
  rcases allocate_alike sound le fits fits' { sink } with
    ⟨a, b, m, full⟩ | ⟨o, m, m', refused, refused'⟩ | ⟨m, m', ok, ok', here, there⟩
  · rw [full]
    exact .inl ⟨_, _, rfl, rfl⟩
  · rw [refused, refused']
    exact .inr ⟨rfl, fun _ _ h => by cases h⟩
  · simp only [ok, ok']
    obtain ⟨_, initial⟩ := outermost_init sound
    rcases invoke_alike sound strings budget more fuel initial
      (typed_start sound strings { sink }) rfl 0
      here there with ⟨f, sp, last, full⟩ | alike
    · simp only [full]
      exact .inl ⟨_, _, rfl, rfl⟩
    · generalize Linear.invoke C budget fuel Frame.initLabel ⟨m, { sink }, 0⟩ = r at alike
      generalize Linear.invoke C budget fuel Frame.initLabel ⟨m', { sink }, 0⟩ = r' at alike
      cases alike with
      | error possible => exact .inr ⟨rfl, fun crash last h => by cases h; exact possible _ rfl⟩
      | @ok _ _ σ m m' n _ typed empty here there =>
        dsimp only
        rcases invoke_alike sound strings budget more fuel entry typed empty n here there with
          ⟨f, sp, last, full⟩ | alike
        · simp only [full]
          exact .inl ⟨_, _, rfl, rfl⟩
        · generalize Linear.invoke C budget fuel C.entry ⟨m, σ.host, n⟩ = r at alike
          generalize Linear.invoke C budget fuel C.entry ⟨m', σ.host, n⟩ = r' at alike
          cases alike with
          | error possible => exact .inr ⟨rfl, fun crash last h => by cases h; exact possible _ rfl⟩
          | ok same =>
            refine .inr ⟨?_, fun _ _ h => by cases h⟩
            rw [same rfl]
            rfl

/-! ## Visited states -/

/-- What a step leaves: a sane state, or after the last step of a call from outside a store without
activations. -/
theorem step_shows (sound : Sound K frame init C) (strings : Loose K init → loose) {A : Config}
    (sane : Sane K frame init loose last A) (shows : Shows K.storage top A s) {r : Option Value}
    (step : Linear.step C budget s = .ok r s') :
    ∃ B, Shows K.storage top B s' ∧ (r = none → Sane K frame init loose last B) ∧
      (r ≠ none → Typed K.storage loose B.store ∧ B.store.stack = []) := by
  obtain ⟨turn, good, takes⟩ := takes_turn sound strings budget sane
  have takes := takes shows
  rw [step] at takes
  cases turn with
  | stop =>
    obtain ⟨s₁, stop, -⟩ := takes
    cases stop
  | next B =>
    by_cases room : Room K.storage top B.store.stack
    · obtain ⟨s₁, next, shows⟩ := takes.1 room
      cases next
      exact ⟨B, shows, fun _ => good, fun h => absurd rfl h⟩
    · obtain ⟨sp, s₁, full⟩ := takes.2 room
      cases full
  | done w B =>
    obtain ⟨v', s₁, done, -, shows⟩ := takes
    cases done
    exact ⟨B, shows, nofun, fun _ => ⟨good.1, good.2.1⟩⟩

/-- The states of a call from outside are sane. -/
theorem passes_sane (sound : Sound K frame init C) (strings : Loose K init → loose)
    (callee : Outermost K frame init C label result l c) (typed : Typed K.storage loose σ)
    (empty : σ.stack = []) {n : Nat} {m : Memory} (memory : Represents K.storage top σ m)
    (h : Linear.Passes C budget label ⟨m, σ.host, n⟩ s) :
    ∃ A, Sane K frame init loose result A ∧ Shows K.storage top A s := by
  induction h with
  | next _ step ih =>
    obtain ⟨A, sane, shows⟩ := ih
    obtain ⟨B, shows, sane, -⟩ := step_shows sound strings sane shows step
    exact ⟨B, sane rfl, shows⟩
  | start h =>
    obtain ⟨c', args, chunk, zeros, call⟩ := h
    have count : c.frame.parameterCount = 0 := by
      rw [callee.framed, callee.record.count, callee.noParams]
      rfl
    obtain rfl : c = c' := Option.some.inj (callee.chunk.symm.trans chunk)
    rw [count, zeroArguments_none] at zeros
    cases zeros
    rcases call_starts callee strings typed empty n with ⟨o, refused⟩ | ⟨A, sane, starts⟩
    · rw [refused] at call
      cases call
    · by_cases room : Room K.storage top A.store.stack
      · obtain ⟨s', called, shows⟩ := (starts memory).1 room
        rw [called] at call
        cases call
        exact ⟨A, sane, shows⟩
      · obtain ⟨sp, full⟩ := (starts memory).2 room
        rw [full] at call
        cases call

/-- The states of a run are sane. -/
theorem visits_sane (sound : Sound K frame init C) (strings : Loose K init → loose)
    (entry : Outermost K frame init C C.entry (some k) l c) {words : Nat}
    (fits : Word.Fits (words * Word.bytes)) {sink : Sink}
    (h : Linear.Visits C budget (.create words sink) s) :
    ∃ last A, Sane K frame init loose last A ∧ Shows K.storage (words * Word.bytes) A s := by
  obtain ⟨_, initial⟩ := outermost_init sound
  have typed := typed_start sound strings { sink }
  -- static data fits, for a state was visited
  have allocated {machine : Machine} (static : Machine.onMemory (Memory.allocateGlobals C.globals)
      (.create words sink) = .ok () machine) : ∃ m, machine = ⟨m, { sink }, 0⟩ ∧
        Represents K.storage (words * Word.bytes) { host := { sink } } m := by
    simp only [Machine.create, Machine.onMemory] at static
    rcases allocate_alike sound (Nat.le_refl words) fits fits { sink } with
      ⟨a, b, m, full⟩ | ⟨o, m, m', refused, -⟩ | ⟨m, m', ok, -, here, -⟩
    · rw [full] at static
      cases static
    · rw [refused] at static
      cases static
    · rw [ok] at static
      cases static
      exact ⟨m, rfl, here⟩
  cases h with
  | init static h =>
    obtain ⟨m, rfl, here⟩ := allocated static
    obtain ⟨A, sane, shows⟩ := passes_sane sound strings initial typed rfl here h
    exact ⟨none, A, sane, shows⟩
  | entry static before returns h =>
    obtain ⟨m, rfl, here⟩ := allocated static
    obtain ⟨A, sane, shows⟩ := passes_sane sound strings initial typed rfl here before
    obtain ⟨B, shows, -, closed⟩ := step_shows sound strings sane shows returns
    obtain ⟨typed, empty⟩ := closed (by simp)
    rename_i returned _ _
    obtain ⟨⟨m, host, n⟩, stack⟩ := returned
    obtain rfl : host = B.store.host := shows.host
    obtain ⟨A, sane, shows⟩ := passes_sane sound strings entry typed empty shows.memory h
    exact ⟨some k, A, sane, shows⟩

end

end PinsBackend.Safety
