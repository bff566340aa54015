import PinsBackend.Proofs.Safety.Steps

/-! Calls and returns on typed code, and with them every step. -/
namespace PinsBackend.Safety

open Ir Kinds
open Lowering (frameAt)
open Meaning (Place Datum Activation Store)
open Syntax (Env Level)

/-- Some variable that is not a parameter holds strings, though it holds zero before it is set. -/
def Loose (K : Context) (init : Level) : Prop :=
  ∃ d, K.storage.content d = .word .string ∧
    (d ∈ K.storage.globals ∨ d ∈ init.locals ∨ ∃ label r, K.routine label r ∧ d ∈ r.level.locals)

/-! ## Arguments -/

section

variable {K : Context} {loose : Prop} {σ : Store} {θ : Temp → Option Datum}
  {κ : Temp → Option Kind} {D : Set Temp}

/-- Arguments in temporaries have the kinds of the parameters. -/
theorem evaluates_args {ι : Type} {kind : ι → Kind} {ts : List Temp} {xs : List ι}
    (h : List.Forall₂ (fun t x => κ t = some (kind x) ∧ t ∈ D) ts xs)
    (holds : Holds K.storage loose σ.stack κ D θ) :
    ∃ ds, List.Forall₂ (fun d x => HasKind K.storage loose σ.stack (kind x) d) ds xs ∧
      ∀ {top m us}, Views K.storage top σ θ m us →
        Linear.evalAll m us (ts.map .temp) = .ok (ds.map (shown K.storage top σ.stack)) := by
  induction h with
  | nil => exact ⟨[], .nil, fun _ => rfl⟩
  | @cons t x ts xs first _ ih =>
    obtain ⟨d, hd, hkind⟩ := holds t first.2 _ first.1
    obtain ⟨ds, hds, evals⟩ := ih
    refine ⟨d :: ds, .cons hkind hds, fun views => ?_⟩
    obtain ⟨ne, get⟩ := views.temps.get hd
    simp [Linear.evalAll, Linear.eval, Temps.get, ne, get, evals views, bind, Except.bind, pure,
      Except.pure]

theorem Linked.lt {stack : List Activation} {link : Option Nat} {Γ : Env}
    (h : Linked stack link Γ) :
    ∀ j ∈ link, j < stack.length := by
  intro j hj
  obtain rfl : link = some j := hj
  cases Γ with
  | nil => cases h
  | cons l Γ =>
    obtain ⟨a, ha, -⟩ := h
    exact (List.getElem?_eq_some_iff.1 ha).1

/-- The static link of a call leads to the functions around the callee. -/
theorem evaluates_link (laid : Laid K.storage σ.stack) {n : Nat} (running : σ.stack.length = n + 1)
    {Γ outer : Env} (linked : Linked σ.stack (some n) Γ) {link : Expr} (h : LinkTo Γ outer link) :
    ∃ hops, ∃ target : Option Nat, (outer = [] ∧ target = none ∨
        outer ≠ [] ∧ outer = Γ.drop hops ∧ target = follow σ.stack hops (some n)) ∧
      Linked σ.stack target outer ∧
      ∀ {top m us}, Represents K.storage top σ m →
        Linear.eval m us link = .ok (linkWord K.storage top σ.stack target) := by
  rcases h with ⟨rfl, rfl⟩ | ⟨hops, ne, rfl, rfl⟩
  · exact ⟨0, none, .inl ⟨rfl, rfl⟩, trivial, fun _ => rfl⟩
  · have le : hops ≤ Γ.length := by
      by_contra gt
      exact ne (List.drop_eq_nil_of_le (by omega))
    have chain := linked.follow le
    refine ⟨hops, _, .inr ⟨ne, rfl, rfl⟩, chain, fun {top m us} memory => ?_⟩
    cases hj : follow σ.stack hops (some n) with
    | none =>
      rw [hj] at chain
      obtain ⟨l, Δ, hΔ⟩ := List.exists_cons_of_ne_nil ne
      rw [hΔ] at chain
      cases chain
    | some j => exact eval_frameAt memory laid running hj

end

/-! ## Opening an activation -/

section

variable {c : Chunk (List Stmt)} {dest : Option Temp} {label : String}

variable {K : Context} {frame : Level → Frame} {init level : Level} {C : LinearProgram}
  {loose : Prop}
  {last : Option Value.Kind} {σ : Store} {a : Act} {as : List Act} {n : Nat}
    {result : Option Value.Kind}
  {Γ : Env} {κ : Temp → Option Kind} {Ψ : Kinds.Scope} {D D₁ D' : Set Temp}
    {stack : List Activation}

/-- Words that were never set suit a variable, if it does not hold strings. -/
theorem hasKind_zero {k : Value.Kind} (h : k = .string → loose) :
    HasKind K.storage loose stack (.word k) (.word .zero) := by
  cases k with
  | integer => exact .inl rfl
  | string => exact .inr ⟨rfl, h rfl⟩

/-- Every parameter finds its argument. -/
theorem lookup_of_forall₂ {α β : Type} [BEq α] [LawfulBEq α] {R : β → α → Prop} {bs : List β}
    {as : List α} (h : List.Forall₂ R bs as) (x : α) :
    (x ∉ as ∧ (as.zip bs).lookup x = none) ∨ ∃ b, (as.zip bs).lookup x = some b ∧ R b x := by
  induction h with
  | nil => exact .inl ⟨by simp, rfl⟩
  | @cons b y bs ys first _ ih =>
    rw [List.zip_cons_cons, List.lookup_cons]
    by_cases same : x = y
    · subst same
      exact .inr ⟨b, by simp, first⟩
    · have ne : (x == y) = false := beq_eq_false_iff_ne.2 same
      rw [ne]
      rcases ih with ⟨absent, none⟩ | found
      · exact .inl ⟨by simp [same, absent], none⟩
      · exact .inr found

theorem Typed.opened (typed : Typed K.storage loose σ) {fr : Frame}
    (record : Recorded K.storage fr level)
    (strings : ∀ d ∈ level.locals, K.storage.content d = .word .string → loose) {link : Option Nat}
    (hlink : ∀ j ∈ link, j < σ.stack.length) {args : List Datum}
    (hargs : List.Forall₂ (fun d x => HasKind K.storage loose σ.stack (K.storage.content x).kind d)
      args level.params) : Typed K.storage loose (σ.opened level link args) := by
  have stack : (σ.opened level link args).stack = σ.stack ++ [⟨level, link⟩] := rfl
  have last : (σ.stack ++ [(⟨level, link⟩ : Activation)])[σ.stack.length]? =
    some ⟨level, link⟩ := by simp
  refine ⟨stack ▸ Laid.append_iff.2 ⟨typed.laid, record.tiled⟩, fun {k b} hb j hj => ?_,
    fun {p} hp => ?_⟩
  · rw [stack] at hb
    rcases Nat.lt_or_ge k σ.stack.length with lt | ge
    · rw [List.getElem?_append_left lt] at hb
      exact typed.links hb j hj
    · have bound := (List.getElem?_eq_some_iff.1 hb).1
      obtain rfl : k = σ.stack.length := by
        simp only [List.length_append, List.length_singleton] at bound
        omega
      rw [last] at hb
      cases hb
      exact hlink j hj
  · rw [stack] at hp ⊢
    by_cases own : p.owner = some σ.stack.length
    · obtain ⟨b, hb, mem⟩ : ∃ b, (σ.stack ++ [(⟨level, link⟩ : Activation)])[σ.stack.length]? =
        some b ∧
          p.decl ∈ b.level.variables := by simpa only [Block, own] using hp.block
      rw [last] at hb
      cases hb
      simp only [Store.opened, own, if_true, Option.getD_some, List.take_left']
      rcases lookup_of_forall₂ hargs p.decl with ⟨absent, missing⟩ | ⟨d, found, kind⟩
      · have inner : p.decl ∈ level.locals := by simpa [Level.variables, absent] using mem
        obtain ⟨-, k, content⟩ := record.locals _ inner
        rw [missing, content]
        exact hasKind_zero fun string => strings _ inner (string ▸ content)
      · rw [found]
        exact kind
    · have same : (σ.opened level link args).cells p = σ.cells p := if_neg own
      have alive : ∀ k ∈ p.owner, k < σ.stack.length := by
        intro k hk
        have lt := hp.block.lt k hk
        have ne : k ≠ σ.stack.length := by
          rintro rfl
          exact own hk
        simp only [List.length_append, List.length_singleton] at lt
        omega
      have shorter : p.owner.getD 0 ≤ σ.stack.length := by
        cases ho : p.owner with
        | none => exact Nat.zero_le _
        | some k => exact Nat.le_of_lt (alive k ho)
      rw [same, List.take_append_of_le_length shorter]
      exact typed.cells ⟨hp.block.of_append alive, hp.lt⟩

theorem Runs.distinct {w : Option (Temp × Value.Kind)} (sound : Sound K frame init C)
    (h : Runs K frame init loose stack a result w Γ κ Ψ D D') : (Γ.map Level.function).Nodup := by
  rcases h.known with rfl | ⟨label, r, hr, rfl⟩
  · simp
  · exact sound.distinct hr

/-- The size of a record fits a word or not, whatever the memory. -/
theorem enter_refused {S : Storage} {fr : Frame} (record : Recorded S fr level) :
    (∃ o, ∀ args m, Memory.enter fr args m = .error (.overflow o) m) ∨
      fr.size = .ok (S.size level) ∧ ∃ k, Word.roundUp (S.size level) = .ok k := by
  have nonneg : 0 ≤ S.size level := by
    have := record.tiled.le
    simp only [Word.bytes] at this
    omega
  cases hsize : fr.size with
  | error o =>
    exact .inl ⟨o, fun args m => by simp [Memory.enter, bind_apply, Memory.checked, hsize]⟩
  | ok k =>
    obtain rfl : k = S.size level := by
      rw [← record.size]
      exact (Word.add_eq_ok.1 hsize).2
    cases hround : Word.roundUp (S.size level) with
    | error o => exact .inl ⟨o, fun args m => Memory.enter_overflow hsize nonneg hround⟩
    | ok k => exact .inr ⟨rfl, k, rfl⟩

/-- The activation of a function that is called. -/
def opening (c : Chunk (List Stmt)) (dest : Option Temp) : Act where
  chunk := c
  rest := c.body
  result := dest
  temps := fun _ => none

theorem runs_opening {m : Nat} (running : stack.length = m + 1)
    (known : Γ = [init] ∨ ∃ label r, K.routine label r ∧ Γ = r.env)
    (framed : ∀ l ∈ Γ.head?, c.frame = frame l) (linked : Linked stack (some m) Γ)
    (coded : Coded K Γ result c.body) (silent : result = none → dest = none) :
    ∃ Γ κ Ψ D D', Runs K frame init loose stack (opening c dest) result none Γ κ Ψ D D' := by
  obtain ⟨κ, Ψ, D', noFp, labels, body, returns⟩ := coded.kinded
  exact ⟨Γ, κ, Ψ, ∅, D',
    { known := known
      framed := framed
      linked := ⟨m, running, linked⟩
      canonical := coded.canonical
      labels := labels
      body := body
      noFp := noFp
      suffix := List.suffix_rfl
      rest := body
      holds := fun _ h => by cases h
      bounded := fun _ _ h => by cases h
      awaits := fun _ h => by cases h
      returns := returns
      silent := silent }⟩

/-- A call that opens a record is refused for all sizes of memory, or it finds room or not. -/
theorem call_opens (hc : C.chunk? label = some c) (record : Recorded K.storage c.frame level)
    (typed : Typed K.storage loose σ) {target : Option Nat}
    (hlink : ∀ j ∈ target, j < σ.stack.length) {ds : List Datum}
    (kinds : List.Forall₂ (fun d x => HasKind K.storage loose σ.stack (K.storage.content x).kind d)
      ds level.params) (dest : Option Temp) {acts : List Act}
    (length : acts.length = σ.stack.length)
    (bounded : ∀ a ∈ acts, ∀ t d, a.temps t = some d → Bounded σ.stack.length d) (n : Nat) :
    (∃ o, ∀ {top m stk}, Linear.call C label
        (linkWord K.storage top σ.stack target :: ds.map (shown K.storage top σ.stack)) dest
        ⟨⟨m, σ.host, n⟩, stk⟩ = .error (.overflow o) ⟨⟨m, σ.host, n⟩, stk⟩) ∨
    ∀ {top m stk}, Represents K.storage top σ m → ShowsActs K.storage top σ.stack acts stk →
      (Room K.storage top (σ.opened level target ds).stack → ∃ s', Linear.call C label
          (linkWord K.storage top σ.stack target :: ds.map (shown K.storage top σ.stack)) dest
          ⟨⟨m, σ.host, n⟩, stk⟩ = .ok () s' ∧
          Shows K.storage top ⟨σ.opened level target ds, opening c dest :: acts, n⟩ s') ∧
      (¬ Room K.storage top (σ.opened level target ds).stack → ∃ sp, Linear.call C label
          (linkWord K.storage top σ.stack target :: ds.map (shown K.storage top σ.stack)) dest
          ⟨⟨m, σ.host, n⟩, stk⟩ = .error (.fault (.stackOverflow sp)) ⟨⟨m, σ.host, n⟩, stk⟩) := by
  have arity : ds.length = level.params.length := kinds.length_eq
  have apply (args : List Value) (m : Memory) (stk : List Linear.Activation) :=
    Linear.call_apply hc args dest ⟨m, σ.host, stk⟩ n
  simp only [Linear.Config.state] at apply
  cases hwords : c.frame.argumentWords with
  | error o => exact .inl ⟨o, fun {top m stk} => by rw [apply, hwords]⟩
  | ok expected =>
    have counted (top : Int) : (linkWord K.storage top σ.stack target ::
        ds.map (shown K.storage top σ.stack)).length = expected := by
      rw [(Word.succ_eq_ok.1 hwords).2, record.count, List.length_cons, List.length_map, arity]
    rcases enter_refused record with ⟨o, refused⟩ | ⟨size, k, round⟩
    · exact .inl ⟨o, fun {top m stk} => by simp only [apply, hwords, counted, if_true, refused]⟩
    · refine .inr fun {top m stk} memory older => ?_
      have last : (σ.stack ++ [(⟨level, target⟩ : Activation)])[σ.stack.length]? =
          some ⟨level, target⟩ := by
        simp
      have room : Room K.storage top (σ.opened level target ds).stack ↔
          K.storage.static ≤ edge K.storage top σ.stack σ.stack.length - K.storage.size level := by
        have here : edge K.storage top (σ.stack ++ [⟨level, target⟩]) (σ.stack.length + 1) =
            edge K.storage top σ.stack σ.stack.length - K.storage.size level := by
          rw [edge_succ last, edge_append (Nat.le_refl _)]
        simp only [Room, Store.opened, List.length_append, List.length_singleton, here]
      constructor
      · intro fits
        have alive (d : Datum) (hd : d ∈ ds) : Bounded σ.stack.length d := by
          obtain ⟨x, -, kind⟩ := exists_of_mem_left kinds hd
          exact kind.bounded
        obtain ⟨m', entered, memory'⟩ :=
          memory.opened typed.laid typed.older record hlink alive arity
          size round (room.1 fits)
        refine ⟨⟨⟨m', σ.host, n⟩, ⟨c, c.body, {}, dest, m.registers⟩ :: stk⟩,
          by simp only [apply, hwords, counted, if_true, entered], memory', rfl, rfl,
          ⟨rfl, rfl, rfl, ?_, ⟨fun h => by cases h⟩⟩, ?_⟩
        · show m.registers = ⟨edge K.storage top (σ.stack ++ [⟨level, target⟩]) acts.length,
            edge K.storage top (σ.stack ++ [⟨level, target⟩]) acts.length⟩
          rw [length, edge_append (Nat.le_refl _), Memory.registers, memory.fp, memory.sp]
        · exact (ShowsActs.append_iff (Nat.le_of_eq length) bounded).2 older
      · intro full
        have pos : Word.bytes ≤ K.storage.size level := record.tiled.le
        rw [room, Int.not_le] at full
        have refused : Memory.enter c.frame (linkWord K.storage top σ.stack target ::
            ds.map (shown K.storage top σ.stack)) m =
            .error (.fault (.stackOverflow (m.sp - K.storage.size level))) m :=
          Memory.enter_full size (memory.stacked typed.laid)
            (by simp only [Word.bytes] at pos; omega)
            (record.tiled.aligned (Int.dvd_refl _)) round
            (by rw [memory.sp, memory.staticTop]; exact full)
        exact ⟨m.sp - K.storage.size level, by simp only [apply, hwords, counted, if_true, refused]⟩

variable {rest : List Stmt}

/-- A call opens an activation of the function, if there is room for its record. -/
theorem performs_call (sound : Sound K frame init C) (strings : Loose K init → loose)
    (focus : Focus K frame init loose last σ a as result Γ κ Ψ D D')
    (behind : rest <:+ a.chunk.body) (after : Kinded K Γ κ (.run Ψ D₁ rest D')) {r : Routine}
    {link : Expr} {ts : List Temp} (callee : K.routine label r) (linked : LinkTo Γ r.outer link)
    (args : List.Forall₂ (fun t d => κ t = some (K.storage.content d).kind ∧ t ∈ D) ts
      r.level.params) (written : ∀ u ∈ D₁, u ∈ D ∨ u ∈ dest)
    (taken : ∀ t ∈ dest, κ t = some (.word r.result) ∨ κ t = some .any) :
    Performs K frame init C loose last ⟨σ, { a with rest } :: as, n⟩
      (Linear.callStmt dest (.call label (link :: ts.map .temp))) := by
  obtain ⟨c, hc, hframe, coded⟩ := sound.routine callee
  have record := sound.record callee
  obtain ⟨m, running, chain⟩ := focus.runs.linked
  obtain ⟨hops, target, found, outer, hlink⟩ := evaluates_link focus.typed.laid running chain linked
  obtain ⟨ds, kinds, hargs⟩ := evaluates_args args focus.holds
  have evaluated {top : Int} {mem : Memory} {us : Temps}
    (views : Views K.storage top σ a.temps mem us) :
      Linear.evalAll mem us (link :: ts.map .temp) =
        .ok (linkWord K.storage top σ.stack target :: ds.map (shown K.storage top σ.stack)) := by
    simp [Linear.evalAll, hlink views.memory, hargs views, bind, Except.bind, pure, Except.pure]
  have stays : Runs K frame init loose σ.stack { a with rest } result (waits dest (some r.result))
      Γ κ Ψ D₁ D' := by
    exact { focus.runs with
      suffix := behind
      rest := after
      holds := fun t ht other k hk => by
        refine focus.holds t ((written t ht).resolve_right fun hd => ?_) k hk
        obtain rfl : dest = some t := hd
        exact other _ rfl rfl
      awaits := fun w hw => by
        obtain ⟨t, ht, hw⟩ := Option.bind_eq_some_iff.1 hw
        cases hw
        have kinds := taken t ht
        exact ⟨kinds.elim (ne_fp focus.runs.noFp) (ne_fp focus.runs.noFp), kinds⟩ }
  have bounded : ∀ b ∈ { a with rest } :: as, ∀ t d, b.temps t = some d →
      Bounded σ.stack.length d := by
    intro b hb t d hd
    rcases List.mem_cons.1 hb with rfl | hb
    · exact focus.runs.bounded t d hd
    · exact (focus.callers.bounded b hb t d hd).mono (by have := focus.length; omega)
  have record' : Recorded K.storage c.frame r.level := hframe ▸ record
  have depth : ({ a with rest } :: as).length = σ.stack.length := focus.length
  rcases call_opens hc record' focus.typed outer.lt kinds dest depth bounded n with
    ⟨o, refused⟩ | opens
  · refine ⟨.stop (.overflow o) ⟨σ, { a with rest } :: as, n⟩,
      ⟨(fun h => by cases h), (fun _ h => by cases h), by simp⟩, fun {top s} shows => ?_⟩
    obtain ⟨mem, act, callers, rfl, memory, hshown, older⟩ := shows_cons shows
    refine ⟨_, perform_error ?_, shows⟩
    rw [Linear.execute_call]
    simp only [evaluated (hshown.views memory), refused]
  · refine ⟨.next ⟨σ.opened r.level target ds, opening c dest :: { a with rest } :: as, n⟩, ?_,
      fun {top s} shows => ?_⟩
    · have typed := focus.typed.opened record'
        (fun d hd string => strings ⟨d, string, .inr (.inr ⟨label, r, callee, hd⟩)⟩) outer.lt kinds
      have length : (σ.opened r.level target ds).stack.length = σ.stack.length + 1 := by
        simp [Store.opened]
      refine ⟨typed, ?_, by simp, ?_, some r.result, by simp, ?_, ?_⟩
      · refine focus.recent.push focus.typed.links running chain (focus.runs.distinct sound) ?_
        rcases found with ⟨-, none⟩ | ⟨-, -, some⟩
        · exact .inl none
        · exact .inr ⟨hops, some⟩
      · simp [length, focus.length]
      · rw [List.take_of_length_le (by simp [length, focus.length])]
        refine runs_opening (by rw [length, running]) (.inr ⟨label, r, callee, rfl⟩)
          (fun l hl => by cases hl; exact hframe) ?_ coded (fun h => by cases h)
        exact ⟨⟨r.level, target⟩, by simp [Store.opened, ← running], rfl, outer.append⟩
      · have le : (({ a with rest } : Act) :: as).length ≤ σ.stack.length := Nat.le_of_eq depth
        refine (Stacked.append_iff le).2 ⟨result, focus.outermost, ⟨Γ, κ, Ψ, D₁, D', ?_⟩,
          focus.callers⟩
        rw [List.take_of_length_le (Nat.le_of_eq focus.length.symm)]
        exact stays
    · obtain ⟨mem, act, callers, rfl, memory, hshown, older⟩ := shows_cons shows
      have all : ShowsActs K.storage top σ.stack ({ a with rest } :: as) (act :: callers) :=
        ⟨hshown, older⟩
      obtain ⟨fits, full⟩ := opens memory all
      constructor
      · intro room
        obtain ⟨s', called, shows'⟩ := fits room
        refine ⟨s', perform_ok ?_, shows'⟩
        rw [Linear.execute_call]
        simp only [evaluated (hshown.views memory), called]
      · intro noRoom
        obtain ⟨sp, called⟩ := full noRoom
        refine ⟨sp, ⟨⟨mem, σ.host, n⟩, act :: callers⟩, perform_error ?_⟩
        rw [Linear.execute_call]
        simp only [evaluated (hshown.views memory), called]

end

/-! ## Built-ins -/

variable {loose : Prop} {S : Storage}

/-- Built-ins give a result of their type. -/
theorem host_call_cases {b : Builtin} {vs : List Value}
    (kinds : List.Forall₂ (fun v (τ : Ty) => v.kind = τ.leaf ∨ v = .zero ∧ loose) vs b.params)
    (h : Host) :
    (∃ v h', Host.call b vs h = .ok v h' ∧ v.kind = b.result.leaf) ∨
      ∃ f h', Host.call b vs h = .error f h' ∧ Possible loose f := by
  have integer {v : Value} (hv : v.kind = .integer ∨ v = .zero ∧ loose) : ∃ n, v = .int n := by
    cases v with
    | int n => exact ⟨n, rfl⟩
    | str s => rcases hv with hv | ⟨hv, -⟩ <;> cases hv
  cases b with
  | printInt =>
    cases kinds with
    | cons first rest =>
      cases rest
      obtain ⟨n, rfl⟩ := integer first
      rcases Host.write_cases (toString n.toInt ++ "\n") h with ⟨h', hw⟩ | ⟨reason, h', hw⟩
      · exact .inl ⟨.int n, h', by
          simp only [Host.call, bind_apply, Host.reading, Value.asInt, hw, pure_apply], rfl⟩
      · exact .inr ⟨.output reason, h', by
          simp only [Host.call, bind_apply, Host.reading, Value.asInt, hw], .output reason⟩
  | printLog =>
    cases kinds with
    | cons first rest =>
      cases rest
      obtain ⟨n, rfl⟩ := integer first
      have truthy : (Value.int n).isTruthy = .ok (n != 0) := rfl
      rcases Host.write_cases ((if (n != 0) = true then "true" else "false") ++ "\n") h with
        ⟨h', hw⟩ | ⟨reason, h', hw⟩
      · exact .inl ⟨.logical (n != 0), h', by
          simp only [Host.call, bind_apply, Host.reading, truthy, hw, pure_apply],
          by cases n != 0 <;> rfl⟩
      · exact .inr ⟨.output reason, h', by
          simp only [Host.call, bind_apply, Host.reading, truthy, hw], .output reason⟩
  | printStr =>
    cases kinds with
    | @cons v _ _ _ first rest =>
      cases rest
      cases v with
      | int n =>
        have : loose := by
          rcases first with hv | ⟨-, hl⟩
          · cases hv
          · exact hl
        exact .inr ⟨_, h, rfl, .unset this (by simp)⟩
      | str s =>
        rcases Host.write_cases (s ++ "\n") h with ⟨h', hw⟩ | ⟨reason, h', hw⟩
        · exact .inl ⟨.str s, h', by
            simp only [Host.call, bind_apply, hw, pure_apply], rfl⟩
        · exact .inr ⟨.output reason, h', by simp only [Host.call, bind_apply, hw], .output reason⟩
  | randInt =>
    cases kinds with
    | cons first rest =>
      cases rest with
      | cons second rest =>
        cases rest
        obtain ⟨m, rfl⟩ := integer first
        obtain ⟨n, rfl⟩ := integer second
        exact .inl ⟨_, _, rfl, rfl⟩
  | seed =>
    cases kinds with
    | cons first rest =>
      cases rest
      obtain ⟨n, rfl⟩ := integer first
      exact .inl ⟨_, _, rfl, rfl⟩

theorem Represents.onHost {top : Int} {σ : Store} {m : Memory} (h : Represents S top σ m)
    (host : Host) :
    Represents S top { σ with host } m :=
  ⟨h.size, h.fits, h.fp, h.sp, h.staticTop, h.room, h.labels, h.links, h.cells⟩

theorem Typed.onHost {σ : Store} (h : Typed S loose σ) (host : Host) :
    Typed S loose { σ with host } := ⟨h.laid, h.links, h.cells⟩

/-- Arguments of built-ins are words. -/
theorem words_of_kinds {stack : List Activation} {ds : List Datum} {τs : List Ty}
    (atomic : ∀ τ ∈ τs, τ.isAtomic = true)
    (h : List.Forall₂ (fun d (τ : Ty) => HasKind S loose stack τ.kind d) ds τs) :
    ∃ vs : List Value, ds = vs.map .word ∧
      List.Forall₂ (fun v (τ : Ty) => v.kind = τ.leaf ∨ v = .zero ∧ loose) vs τs := by
  induction h with
  | nil => exact ⟨[], rfl, .nil⟩
  | @cons d τ ds τs first _ ih =>
    obtain ⟨vs, rfl, kinds⟩ := ih fun τ hτ => atomic τ (List.mem_cons_of_mem _ hτ)
    rw [Ty.kind_of_isAtomic (atomic τ (List.mem_cons_self ..))] at first
    obtain ⟨v, rfl, kind⟩ := first.word
    exact ⟨v :: vs, rfl, .cons kind kinds⟩

section

variable {K : Context} {frame : Level → Frame} {init : Level} {C : LinearProgram} {loose : Prop}
  {last : Option Value.Kind} {σ : Store} {a : Act} {as : List Act} {n : Nat}
  {result : Option Value.Kind} {Γ : Env} {κ : Temp → Option Kind} {Ψ : Kinds.Scope}
    {D D₁ D' : Set Temp}
  {rest : List Stmt}

theorem execute_builtin {b : Builtin} (missing : C.chunk? b.name = none) (dest : Option Temp)
    {args : List Expr} {vs : List Value} {m : Memory} {h : Host} {act : Linear.Activation}
    {callers : List Linear.Activation}
    (evaluated : Linear.evalAll m act.temps args = .ok (.zero :: vs)) :
    Linear.execute C act.temps (Linear.callStmt dest (.call b.name args))
      ⟨⟨m, h, n⟩, act :: callers⟩ =
      match Host.call b vs h with
      | .error f h' => .error (.fault f) ⟨⟨m, h', n⟩, act :: callers⟩
      | .ok v h' =>
        match act.temps.receive dest v with
        | .ok temps => .ok () ⟨⟨m, h', n⟩, { act with temps } :: callers⟩
        | .error f => .error (.fault f) ⟨⟨m, h', n⟩, act :: callers⟩ := by
  rw [Linear.execute_call]
  simp only [evaluated]
  have applied :=
    Linear.call_builtin_apply missing (.zero :: vs) dest act callers act.rest act.temps m h n
  rw [Builtin.ofLabel?_name] at applied
  exact applied

theorem performs_builtin (sound : Sound K frame init C)
    (focus : Focus K frame init loose last σ a as result Γ κ Ψ D D')
    (behind : rest <:+ a.chunk.body) (after : Kinded K Γ κ (.run Ψ D₁ rest D')) {dest : Option Temp}
    {b : Builtin} {ts : List Temp}
    (args : List.Forall₂ (fun t τ => κ t = some (Ty.kind τ) ∧ t ∈ D) ts b.params)
    (unused : ∀ r, ¬ K.routine b.name r) (written : ∀ u ∈ D₁, u ∈ D ∨ u ∈ dest)
    (taken : ∀ t ∈ dest, κ t = some b.result.kind ∨ κ t = some .any) :
    Performs K frame init C loose last ⟨σ, { a with rest } :: as, n⟩
      (Linear.callStmt dest (.call b.name (.int 0 :: ts.map .temp))) := by
  have missing : C.chunk? b.name = none := by
    cases hc : C.chunk? b.name with
    | none => rfl
    | some c =>
      rcases sound.only hc with same | ⟨r, hr⟩
      · exact absurd same (by cases b <;> decide)
      · exact absurd hr (unused r)
  obtain ⟨ds, kinds, hargs⟩ := evaluates_args args focus.holds
  obtain ⟨vs, rfl, suit⟩ := words_of_kinds (by cases b <;> decide) kinds
  have evaluated {top : Int} {m : Memory} {act : Linear.Activation}
    (memory : Represents K.storage top σ m)
      (hshown : ShowsAct K.storage top σ.stack as.length { a with rest } act) :
      Linear.evalAll m act.temps (.int 0 :: ts.map .temp) = .ok (.zero :: vs) := by
    have words : (vs.map Datum.word).map (shown K.storage top σ.stack) = vs := by
      rw [List.map_map]
      exact List.map_id vs
    simp [Linear.evalAll, Linear.eval, Expr.int, hargs (hshown.views memory), words, bind,
      Except.bind, pure, Except.pure]
    rfl
  rcases host_call_cases suit σ.host with ⟨v, h', called, kind⟩ | ⟨f, h', called, possible⟩
  case inr =>
    refine ⟨.stop (.fault f) ⟨{ σ with host := h' }, { a with rest } :: as, n⟩,
      ⟨(fun h => by cases h), ?_, by simp⟩, fun {top s} shows => ?_⟩
    · rintro g hg
      cases hg
      exact possible
    · obtain ⟨m, act, callers, rfl, memory, hshown, older⟩ := shows_cons shows
      refine ⟨⟨⟨m, h', n⟩, act :: callers⟩, perform_error ?_, memory.onHost h', rfl, rfl,
        hshown, older⟩
      rw [execute_builtin missing dest (evaluated memory hshown), called]
  have goes {θ : Temp → Option Datum} (holds : Holds K.storage loose σ.stack κ D₁ θ)
      (bounded : ∀ t d, θ t = some d → Bounded σ.stack.length d)
      (received : ∀ {top ts}, ShowsTemps K.storage top σ.stack a.temps ts →
        ∃ ts', ts.receive dest v = .ok ts' ∧ ShowsTemps K.storage top σ.stack θ ts') :
      Performs K frame init C loose last ⟨σ, { a with rest } :: as, n⟩
        (Linear.callStmt dest (.call b.name (.int 0 :: ts.map .temp))) := by
    refine ⟨.next ⟨{ σ with host := h' }, { a with rest, temps := θ } :: as, n⟩,
      (focus.goOn (focus.typed.onHost h') rfl behind after holds bounded).sane,
      fun {top s} shows => ?_⟩
    obtain ⟨m, act, callers, rfl, memory, hshown, older⟩ := shows_cons shows
    obtain ⟨ts', receive, temps⟩ := received hshown.temps
    refine takes_next (σ := σ) rfl memory ⟨⟨⟨m, h', n⟩, { act with temps := ts' } :: callers⟩,
      perform_ok ?_,
      memory.onHost h', rfl, rfl,
      ⟨hshown.chunk, hshown.rest, hshown.result, hshown.saved, temps⟩, older⟩
    rw [execute_builtin missing dest (evaluated memory hshown), called]
    simp only [receive]
  cases dest with
  | none =>
    exact goes (fun t ht => focus.holds t ((written t ht).resolve_right (fun h => by cases h)))
      focus.runs.bounded
      fun {top ts} shown => ⟨ts, rfl, shown⟩
  | some t =>
    obtain ⟨k', hk', suits⟩ : ∃ k', κ t = some k' ∧ (k' = b.result.kind ∨ k' = .any) := by
      rcases taken t rfl with h | h
      · exact ⟨_, h, .inl rfl⟩
      · exact ⟨_, h, .inr rfl⟩
    have ne := ne_fp focus.runs.noFp hk'
    have hd : HasKind K.storage loose σ.stack b.result.kind (.word v) := by
      rw [Ty.kind_of_isAtomic (by cases b <;> rfl)]
      exact .inl kind
    have sub : D₁ ⊆ insert t D := fun u hu =>
      (written u hu).elim (Set.mem_insert_of_mem t) fun h => .inl (Option.some.inj h).symm
    refine goes (fun u hu => holds_set focus.holds hk' suits hd u (sub hu))
      (bounded_set focus.runs.bounded (Bounded.word _ v)) fun {top ts} shown =>
        ⟨⟨ts.values.insert t v⟩, by simp [Temps.receive, Temps.set, ne], shown.set ne (.word v)⟩

end

end PinsBackend.Safety
