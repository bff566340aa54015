import PinsBackend.Proofs.Safety.Calls

/-! Every step of the machine on a compiled program, and so every run of it. -/
namespace PinsBackend.Safety

open Ir Kinds
open Meaning (Place Datum Activation Store)
open Syntax (Env Level)

/-! ## Returns -/

/-- A caller with the result of a call in a temporary, or without it. -/
def Act.receive (b : Act) (dest : Option Temp) (v : Value) : Act :=
  { b with temps := dest.elim b.temps fun t => Function.update b.temps t (some (.word v)) }

section

variable {mem : Memory} {act : Linear.Activation} {callers : List Linear.Activation}

variable {K : Context} {frame : Level → Frame} {init : Level} {C : LinearProgram} {loose : Prop}
  {last : Option Value.Kind} {σ : Store} {a : Act} {as : List Act} {n : Nat}
  {result : Option Value.Kind}
  {Γ : Env} {κ : Temp → Option Kind} {Ψ : Kinds.Scope} {D D₁ D' : Set Temp} {rest : List Stmt}
  {stmt : Stmt}

theorem Typed.closed (typed : Typed K.storage loose σ) {front : List Activation} {x : Activation}
    (hs : σ.stack = front ++ [x]) : Typed K.storage loose σ.closed := by
  have closed : σ.closed.stack = front := by simp [Store.closed, hs]
  refine ⟨?_, fun {k b} hb => ?_, fun {p} hp => ?_⟩
  · rw [closed]
    exact (Laid.append_iff.1 (hs ▸ typed.laid)).1
  · rw [closed] at hb
    refine typed.links (k := k) (a := b) ?_
    rw [hs, List.getElem?_append_left (List.getElem?_eq_some_iff.1 hb).1, hb]
  · rw [closed] at hp ⊢
    have le : p.owner.getD 0 ≤ front.length := by
      cases ho : p.owner with
      | none => exact Nat.zero_le _
      | some k => exact Nat.le_of_lt (hp.block.lt k ho)
    have kept := typed.cells (p := p) (hs ▸ hp.append)
    rwa [hs, List.take_append_of_le_length le] at kept

/-- What a function that has run to its end leaves as its result. -/
theorem Focus.returned (focus : Focus K frame init loose last σ a as result Γ κ Ψ D D')
    (finished : a.rest = []) {k : Value.Kind} (hk : result = some k) :
    ∃ v, a.temps Temp.rv = some (.word v) ∧ (v.kind = k ∨ v = .zero ∧ loose) := by
  obtain ⟨kind, written⟩ := focus.runs.returns k hk
  have rest := focus.runs.rest
  rw [finished] at rest
  cases rest with
  | nil sub =>
    obtain ⟨d, hd, suits⟩ := focus.holds _ (sub written) _ kind
    obtain ⟨v, rfl, hv⟩ := suits.word
    exact ⟨v, hd, hv⟩

/-- A caller goes on with the result in the temporary that waits for it. -/
theorem Runs.receive {stack : List Activation} {b : Act} {dest : Option Temp}
    {callee : Option Value.Kind}
    (h : Runs K frame init loose stack b result (waits dest callee) Γ κ Ψ D D') {v : Value}
    (hv : ∀ k ∈ callee, v.kind = k ∨ v = .zero ∧ loose) (silent : callee = none → dest = none) :
    Runs K frame init loose stack (b.receive dest v) result none Γ κ Ψ D D' := by
  cases dest with
  | none =>
    exact { h with
      holds := fun t ht _ => h.holds t ht (fun _ h => by cases h)
      awaits := fun _ h => by cases h }
  | some t =>
    cases callee with
    | none => cases silent rfl
    | some k =>
      obtain ⟨ne, kinds⟩ := h.awaits (t, k) rfl
      refine { h with
        holds := fun u hu _ k' hk' => ?_
        bounded := bounded_set h.bounded (Bounded.word _ v)
        awaits := fun _ h => by cases h }
      by_cases same : u = t
      · subst same
        refine ⟨.word v, Function.update_self .., ?_⟩
        rcases kinds with kind | kind <;> rw [kind] at hk' <;> cases hk'
        · exact hv k rfl
        · exact Bounded.word _ v
      · obtain ⟨d, hd, suits⟩ := h.holds u hu (fun w hw => by cases hw; exact same) k' hk'
        exact ⟨d, (Function.update_of_ne same ..).trans hd, suits⟩

/-- An activation that has run to its end returns to its caller. -/
theorem returns_turn (budget : Option Nat)
    (focus : Focus K frame init loose last σ a as result Γ κ Ψ D D') (finished : a.rest = []) :
    ∃ turn : Turn, turn.Good K frame init loose last ∧
      ∀ {top s}, Shows K.storage top ⟨σ, a :: as, n⟩ s →
        Takes K.storage top (Linear.step C budget s) turn := by
  obtain ⟨front, x, hs⟩ : ∃ front x, σ.stack = front ++ [x] := by
    rcases List.eq_nil_or_concat σ.stack with nil | ⟨front, x, h⟩
    · have := focus.length
      simp [nil] at this
    · exact ⟨front, x, by simpa using h⟩
  have closed : σ.closed.stack = front := by simp [Store.closed, hs]
  have length : as.length = front.length := by
    have := focus.length
    simp only [hs, List.length_append, List.length_singleton] at this
    omega
  have typed := focus.typed.closed hs
  obtain ⟨v, hrv, kind⟩ : ∃ v, (∀ k ∈ result, a.temps Temp.rv = some (.word v)) ∧
      ∀ k ∈ result, v.kind = k ∨ v = .zero ∧ loose := by
    cases hr : result with
    | none => exact ⟨.zero, (fun _ h => by cases h), fun _ h => by cases h⟩
    | some k =>
      obtain ⟨v, hv, kind⟩ := focus.returned finished hr
      exact ⟨v, fun _ _ => hv, fun k' hk' => by cases hk'; exact kind⟩
  -- the machine finds this value
  have found {top : Int} {act : Linear.Activation} {m : Memory}
      (shown : ShowsAct K.storage top σ.stack as.length a act) :
      ∀ k ∈ result, act.temps.get m Temp.rv = v := by
    intro k hk
    obtain ⟨ne, get⟩ := shown.temps.get (hrv k hk)
    rw [Temps.get, if_neg ne]
    exact get
  cases as with
  | nil =>
    refine ⟨.done (result.map fun _ => v) ⟨σ.closed, [], n⟩, ⟨typed, ?_, rfl, ?_⟩,
      fun {top s} shows => ?_⟩
    · rw [closed]
      exact List.eq_nil_of_length_eq_zero length.symm
    · rw [← focus.outermost rfl]
      simp
    · obtain ⟨m, act, callers, rfl, memory, shown, older⟩ := shows_cons shows
      cases callers with
      | cons => cases older
      | nil =>
        have rest : act.rest = [] := shown.rest.trans finished
        refine ⟨act.temps.get m Temp.rv, ⟨⟨m.restore act.saved, σ.host, n⟩, []⟩, ?_, ?_, ?_⟩
        · simp [Linear.step, rest, Linear.leave]
        · intro y hy
          obtain ⟨k, hk, rfl⟩ := Option.map_eq_some_iff.1 hy
          exact found shown k hk
        · refine ⟨?_, rfl, rfl, trivial⟩
          rw [shown.saved, length]
          exact memory.closed focus.typed.laid focus.typed.older hs
  | cons b bs =>
    obtain ⟨result', outermost, ⟨Γ', κ', Ψ', E, E', runs⟩, callers⟩ := focus.callers
    have taken : σ.stack.take (bs.length + 1) = front := by
      rw [hs]
      exact List.take_left' length.symm
    rw [taken] at runs
    have received := runs.receive kind focus.runs.silent
    have inside : bs.length ≤ front.length := Nat.le_of_succ_le (Nat.le_of_eq length)
    have focus' : Focus K frame init loose last σ.closed (b.receive a.result v) bs
      result' Γ' κ' Ψ' E
        E' := by
      refine ⟨typed, ?_, ?_, ?_, outermost, ?_⟩ <;> rw [closed]
      · exact Recent.of_append (fun {k c} hc => typed.links (closed ▸ hc)) (hs ▸ focus.recent)
      · exact length
      · exact received
      · exact (Stacked.append_iff inside).1 (hs ▸ callers)
    refine ⟨.next ⟨σ.closed, b.receive a.result v :: bs, n⟩, focus'.sane, fun {top s} shows => ?_⟩
    obtain ⟨m, act, callers, rfl, memory, shown, older⟩ := shows_cons shows
    cases callers with
    | nil => cases older
    | cons act' callers =>
      have rest : act.rest = [] := shown.rest.trans finished
      have memory' : Represents K.storage top σ.closed (m.restore act.saved) := by
        rw [shown.saved, length]
        exact memory.closed focus.typed.laid focus.typed.older hs
      have alive : ∀ c ∈ b :: bs, ∀ t d, c.temps t = some d → Bounded front.length d := by
        rw [← length]
        exact focus.callers.bounded
      have waiting : ShowsActs K.storage top front (b :: bs) (act' :: callers) :=
        (ShowsActs.append_iff (Nat.le_of_eq length) alive).1 (hs ▸ older)
      have room : Room K.storage top σ.closed.stack := memory'.room
      refine ⟨fun _ => ?_, fun full => absurd room full⟩
      cases hdest : a.result with
      | none =>
        refine ⟨⟨⟨m.restore act.saved, σ.host, n⟩, act' :: callers⟩, ?_, memory', rfl, rfl, ?_⟩
        · simp [Linear.step, rest, Linear.leave, shown.result, hdest]
        · show ShowsActs K.storage top σ.closed.stack _ _
          rw [closed]
          exact waiting
      | some t =>
        obtain ⟨k, hk⟩ : ∃ k, result = some k := by
          cases hr : result with
          | none =>
            have := focus.runs.silent hr
            rw [hdest] at this
            cases this
          | some k => exact ⟨k, rfl⟩
        obtain ⟨ne, -⟩ := runs.awaits (t, k) (by rw [hdest, hk]; rfl)
        have value : act.temps.get m Temp.rv = v := found shown k hk
        refine ⟨⟨⟨m.restore act.saved, σ.host, n⟩,
          { act' with temps := ⟨act'.temps.values.insert t v⟩ } :: callers⟩, ?_, memory',
          rfl, rfl, ?_⟩
        · simp [Linear.step, rest, Linear.leave, shown.result, hdest, value, Linear.assign,
            Temps.set, ne]
        · show ShowsActs K.storage top σ.closed.stack _ _
          rw [closed]
          have first := waiting.1
          exact ⟨⟨first.chunk, first.rest, first.result, first.saved, first.temps.set ne (.word v)⟩,
            waiting.2⟩

/-! ## Steps -/

/-- Whatever a statement of typed code is, it takes a good turn. -/
theorem performs (sound : Sound K frame init C) (strings : Loose K init → loose)
    (focus : Focus K frame init loose last σ a as result Γ κ Ψ D D')
    (code : a.rest = stmt :: rest) :
    Performs K frame init C loose last ⟨σ, { a with rest } :: as, n⟩ stmt := by
  have suffix := focus.runs.suffix
  have kinded := focus.runs.rest
  rw [code] at suffix kinded
  have behind : rest <:+ a.chunk.body := (List.suffix_cons stmt rest).trans suffix
  have canonical := focus.runs.canonical stmt (suffix.mem (List.mem_cons_self ..))
  -- calls, under a move and under an `eval`
  have called (dest : Option Temp) {label : String} {args : List Expr} {k : Kind} {D₁ : Set Temp}
      (after : Kinded K Γ κ (.run Ψ D₁ rest D'))
      (value : Kinded K Γ κ (.value D (.call label args) k))
      (written : ∀ u ∈ D₁, u ∈ D ∨ u ∈ dest) (taken : ∀ t ∈ dest, κ t = some k ∨ κ t = some .any) :
      Performs K frame init C loose last ⟨σ, { a with rest } :: as, n⟩
        (Linear.callStmt dest (.call label args)) := by
    cases value with
    | builtin args unused =>
      exact performs_builtin sound focus behind after args unused written taken
    | call callee linked args =>
      exact performs_call sound strings focus behind after callee linked args written taken
  cases kinded with
  | cons first after =>
    cases stmt with
    | seq => cases first
    | label l => exact performs_label focus behind after first
    | jump l => exact performs_jump focus first
    | cjump c l k => exact performs_cjump focus first canonical
    | eval e =>
      rcases Bool.or_eq_true_iff.1 canonical with flat | call
      · exact performs_eval focus behind after first flat
      · cases e with
        | call label args =>
          cases first with
          | eval value =>
            exact called none after value (fun u hu => .inl hu) (fun _ h => by cases h)
        | _ => cases call
    | move dst src =>
      cases dst with
      | mem x =>
        exact performs_store focus behind after first (Bool.and_eq_true_iff.1 canonical)
      | temp t =>
        rcases Bool.or_eq_true_iff.1 canonical with flat | call
        · exact performs_assign focus behind after first flat
        · cases src with
          | call label args =>
            cases first with
            | assign kind suits value =>
              refine called (some t) after value (fun u hu => ?_) fun u hu => ?_
              · exact hu.symm.imp_right fun same => by rw [same]; rfl
              · cases hu
                rcases suits with rfl | rfl
                · exact .inl kind
                · exact .inr kind
          | _ => cases call
      | _ => cases canonical

theorem step_timeout {limit m : Nat} {h : Host} (code : act.rest = stmt :: rest)
    (past : limit < m + 1) :
    Linear.step C (some limit) ⟨⟨mem, h, m⟩, act :: callers⟩ =
      .error (.fault (.timeout limit)) ⟨⟨mem, h, m + 1⟩, { act with rest } :: callers⟩ := by
  simp [Linear.step, code, bind_apply, Linear.onMachine, Machine.tick, past]

theorem step_perform {budget : Option Nat} {m : Nat} {h : Host} (code : act.rest = stmt :: rest)
    (inside : ∀ limit ∈ budget, ¬ limit < m + 1) :
    Linear.step C budget ⟨⟨mem, h, m⟩, act :: callers⟩ =
      perform C stmt ⟨⟨mem, h, m + 1⟩, { act with rest } :: callers⟩ := by
  cases budget with
  | none =>
    simp only [Linear.step, code, bind_apply, Linear.onMachine, Machine.tick, perform]
    cases Linear.execute C act.temps stmt ⟨⟨mem, h, m + 1⟩, { act with rest } :: callers⟩ <;> rfl
  | some limit =>
    simp only [Linear.step, code, bind_apply, Linear.onMachine, Machine.tick, perform,
      if_neg (inside limit rfl)]
    cases Linear.execute C act.temps stmt ⟨⟨mem, h, m + 1⟩, { act with rest } :: callers⟩ <;> rfl

/-- A step of a sane configuration takes one good turn, wherever its store lies. -/
theorem takes_turn (sound : Sound K frame init C) (strings : Loose K init → loose)
    (budget : Option Nat) {A : Config} (sane : Sane K frame init loose last A) :
    ∃ turn : Turn, turn.Good K frame init loose last ∧
      ∀ {top s}, Shows K.storage top A s → Takes K.storage top (Linear.step C budget s) turn := by
  obtain ⟨σ, acts, n⟩ := A
  cases acts with
  | nil => exact absurd rfl sane.running
  | cons a as =>
    obtain ⟨result, Γ, κ, Ψ, D, D', focus⟩ := sane.focus
    cases code : a.rest with
    | nil => exact returns_turn budget focus code
    | cons stmt rest =>
      -- the state after the step was counted
      have counted {top : Int} {m : Memory} {act : Linear.Activation}
        {callers : List Linear.Activation}
          (memory : Represents K.storage top σ m)
          (shown : ShowsAct K.storage top σ.stack as.length a act)
          (older : ShowsActs K.storage top σ.stack as callers) :
          Shows K.storage top ⟨σ, { a with rest } :: as, n + 1⟩
            ⟨⟨m, σ.host, n + 1⟩, { act with rest } :: callers⟩ :=
        ⟨memory, rfl, rfl, ⟨shown.chunk, rfl, shown.result, shown.saved, shown.temps⟩, older⟩
      by_cases past : ∃ limit ∈ budget, limit < n + 1
      · obtain ⟨limit, hlimit, past⟩ := past
        obtain rfl : budget = some limit := hlimit
        refine ⟨.stop (.fault (.timeout limit)) ⟨σ, { a with rest } :: as, n + 1⟩,
          ⟨(fun h => by cases h), ?_, by simp⟩, fun {top s} shows => ?_⟩
        · rintro f hf
          cases hf
          exact .timeout limit
        · obtain ⟨m, act, callers, rfl, memory, shown, older⟩ := shows_cons shows
          exact ⟨_, step_timeout (shown.rest.trans code) past, counted memory shown older⟩
      · obtain ⟨turn, good, takes⟩ := performs (n := n + 1) sound strings focus code
        refine ⟨turn, good, fun {top s} shows => ?_⟩
        obtain ⟨m, act, callers, rfl, memory, shown, older⟩ := shows_cons shows
        rw [step_perform (shown.rest.trans code) fun limit hl lt => past ⟨limit, hl, lt⟩]
        exact takes (counted memory shown older)

end

end PinsBackend.Safety
