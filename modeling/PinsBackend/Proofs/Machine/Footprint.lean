import Mathlib.Order.Defs.Unbundled
import PinsBackend.Proofs.Machine.Commutation
import PinsBackend.Proofs.Machine.Congruence
import PinsBackend.Proofs.Machine.Lockstep
import PinsBackend.Proofs.Machine.Memory

/-! What the evaluation of tree code leaves as it was.

Whatever code is evaluated, static data stays where it is, and a call that returns has brought back
the registers and the temporaries of its caller. A canonical statement therefore changes no more
than its effects announce, however often it jumps back and whatever it calls, and an expression that
commutes with it has one result before and after. -/
namespace PinsBackend.Nested

open Ir

variable {label : String} {args : List Value} {v : Value} {e : Expr}

section

variable {α β : Type} {R : State → State → Prop}

/-- If the computation gives a value, the states before and after it are in this relation. -/
structure Respects (R : State → State → Prop) (x : EvalM α) : Prop where
  related : ∀ {S a S'}, x S = .ok a S' → R S S'

theorem respects_throw (halt : Halt Fault) : Respects R (throw halt : EvalM α) := by
  constructor
  intro S a S' ran
  cases ran

variable [IsPreorder State R]

theorem Respects.bind {x : EvalM α} {f : α → EvalM β} (hx : Respects R x)
    (hf : ∀ a, Respects R (f a)) : Respects R (x >>= f) := by
  constructor
  intro S b S' ran
  obtain ⟨a, S₁, first, second⟩ := bind_eq_ok.1 ran
  exact IsTrans.trans S S₁ S' (hx.related first) ((hf a).related second)

theorem respects_pure (a : α) : Respects R (pure a : EvalM α) := by
  constructor
  intro S b S' ran
  obtain ⟨-, rfl⟩ := pure_eq_ok.1 ran
  exact Std.Refl.refl S

theorem respects_get : Respects R (get : EvalM State) := by
  constructor
  intro S a S' ran
  cases ran
  exact Std.Refl.refl S

theorem respects_lift (x : Except Fault α) : Respects R (lift x) := by
  constructor
  intro S a S' ran
  cases x with
  | error f => cases ran
  | ok b =>
    cases ran
    exact Std.Refl.refl S

end

variable {setting : Setting} {fuel : Nat} {S S' : State}

/-! ## The steps of an evaluation -/

theorem tick_eq_ok (h : tick setting S = .ok () S') :
    ∃ steps, S' = { S with machine.steps := steps } := by
  simp only [tick, onMachine, Machine.tick] at h
  split at h
  · next ticked =>
    split at ticked
    · cases ticked
      cases h
      exact ⟨_, rfl⟩
    · split at ticked
      · cases ticked
      · cases ticked
        cases h
        exact ⟨_, rfl⟩
  · cases h

theorem callBuiltin_eq_ok (h : onMachine (Machine.callBuiltin label args) S = .ok v S') :
    ∃ host, S' = { S with machine.host := host } := by
  obtain ⟨⟨m, host, steps⟩, calls, temps⟩ := S
  simp only [onMachine, Machine.callBuiltin_apply] at h
  cases found : Builtin.ofLabel? label with
  | none =>
    simp only [found] at h
    cases h
  | some b =>
    simp only [found] at h
    cases called : Host.call b (args.drop 1) host with
    | error f host' =>
      simp only [called] at h
      cases h
    | ok w host' =>
      simp only [called] at h
      cases h
      exact ⟨host', rfl⟩

theorem store_eq_ok {address : Int}
    (h : onMachine (Machine.onMemory (Memory.store address v)) S = .ok () S') :
    ∃ m, Memory.store address v S.machine.memory = .ok () m ∧
      S' = { S with machine.memory := m } := by
  simp only [onMachine, Machine.onMemory] at h
  cases stored : Memory.store address v S.machine.memory with
  | error halt m =>
    simp only [stored] at h
    cases h
  | ok u m =>
    simp only [stored] at h
    cases h
    exact ⟨m, rfl, rfl⟩

theorem writeTemp_eq_ok {t : Temp} (h : writeTemp t v S = .ok () S') :
    ∃ ts, S.temps.set t v = .ok ts ∧ S' = { S with temps := ts } := by
  simp only [writeTemp] at h
  cases written : S.temps.set t v with
  | error f =>
    simp only [written] at h
    cases h
  | ok ts =>
    simp only [written] at h
    cases h
    exact ⟨ts, rfl, rfl⟩

/-- A call remembers what its caller has, and static data is where it was. -/
theorem enter_eq_ok {frame : Frame} {caller : Caller}
    (h : enter setting label frame args S = .ok caller S') :
    caller = ⟨S.machine.memory.registers, S.temps⟩ ∧
      S'.machine.memory.labels = S.machine.memory.labels := by
  rw [enter_apply] at h
  split at h
  · cases h
  · split at h
    · split at h
      · cases h
      · split at h
        · next registers m entered =>
          obtain ⟨rfl, labels⟩ := Memory.enter_keeps entered
          cases h
          exact ⟨rfl, labels⟩
        · cases h
    · cases h

/-- A call is one of a built-in, which has no part in memory, or it evaluates the body of a chunk
between the opening and the closing of a record. -/
theorem call_eq_ok (h : call setting (fuel + 1) label args S = .ok v S') :
    (∃ host, S' = { S with machine.host := host }) ∨
    ∃ (chunk : Chunk Stmt) (caller : Caller) (S₁ S₂ : State),
      enter setting label chunk.frame args S = .ok caller S₁ ∧
      exec setting fuel chunk.body S₁ = .ok .next S₂ ∧
      S'.machine.memory = S₂.machine.memory.restore caller.registers ∧ S'.temps = caller.temps := by
  rw [call] at h
  cases found : setting.program.chunk? label with
  | none =>
    simp only [found] at h
    exact .inl (callBuiltin_eq_ok h)
  | some chunk =>
    simp only [found, bind_eq_ok] at h
    obtain ⟨caller, S₁, entered, flow, S₂, ran, h⟩ := h
    cases flow with
    | jump l => cases h
    | next =>
      cases h
      exact .inr ⟨chunk, caller, S₁, S₂, entered, ran, rfl, rfl⟩

/-! ## Any code -/

/-- Static data is where it was, and both registers have their contents back. -/
structure Restored (S S' : State) : Prop where
  labels : S'.machine.memory.labels = S.machine.memory.labels
  registers : S'.machine.memory.registers = S.machine.memory.registers

instance : IsPreorder State Restored where
  refl _ := ⟨rfl, rfl⟩
  trans _ _ _ h k := ⟨k.labels.trans h.labels, k.registers.trans h.registers⟩

theorem restored_tick : Respects Restored (tick setting) := by
  constructor
  intro S _ S' ran
  obtain ⟨steps, rfl⟩ := tick_eq_ok ran
  exact ⟨rfl, rfl⟩

theorem restored_writeTemp (t : Temp) (v : Value) : Respects Restored (writeTemp t v) := by
  constructor
  intro S _ S' ran
  obtain ⟨ts, -, rfl⟩ := writeTemp_eq_ok ran
  exact ⟨rfl, rfl⟩

theorem restored_store (address : Int) (v : Value) :
    Respects Restored (onMachine (Machine.onMemory (Memory.store address v))) := by
  constructor
  intro S _ S' ran
  obtain ⟨m, stored, rfl⟩ := store_eq_ok ran
  obtain ⟨labels, registers⟩ := Memory.store_keeps stored
  exact ⟨labels, registers⟩

theorem restored_congruence : Congruence setting setting fun x _ => Respects Restored x where
  pure := respects_pure
  throw := respects_throw
  get := respects_get
  lift := respects_lift
  tick := restored_tick
  writeTemp := restored_writeTemp
  store := restored_store
  bind := .bind
  unfinished _ := respects_throw _

theorem restored_call {fuel' : Nat}
    (h : Related setting setting (fun x _ => Respects Restored x) fuel fuel') (label : String)
    (args : List Value) :
    Respects Restored (call setting (fuel + 1) label args) := by
  constructor
  intro S v S' ran
  rcases call_eq_ok ran with ⟨host, rfl⟩ | ⟨chunk, caller, S₁, S₂, entered, body, memory, -⟩
  · exact ⟨rfl, rfl⟩
  · obtain ⟨rfl, labels⟩ := enter_eq_ok entered
    have inside : Restored S₁ S₂ := (h.exec chunk.body).related body
    constructor
    · rw [memory]
      exact inside.labels.trans labels
    · rw [memory]
      rfl

/-- Evaluation leaves static data where it is and gives the registers back. -/
theorem restoring (fuel : Nat) :
    Related setting setting (fun x _ => Respects Restored x) fuel fuel :=
  restored_congruence.related restored_call (Nat.le_refl fuel)

/-- A callee has temporaries of its own. -/
theorem call_keeps_temps (ran : call setting fuel label args S = .ok v S') :
    S'.temps = S.temps := by
  cases fuel with
  | zero => cases ran
  | succ fuel =>
    rcases call_eq_ok ran with ⟨host, rfl⟩ | ⟨chunk, caller, S₁, S₂, entered, -, -, temps⟩
    · rfl
    · obtain ⟨rfl, -⟩ := enter_eq_ok entered
      exact temps

/-! ## Canonical statements -/

/-- The later state differs from the earlier one only where these effects allow it. -/
def KeptBy (fx : Effects) (S S' : State) : Prop :=
  Linear.Kept fx S.machine.memory S.temps S'.machine.memory S'.temps

instance (fx : Effects) : IsPreorder State (KeptBy fx) where
  refl _ := .refl fx _ _
  trans _ _ _ h k := h.trans k

variable {fx : Effects}

theorem kept_tick : Respects (KeptBy fx) (tick setting) := by
  constructor
  intro S _ S' ran
  obtain ⟨steps, rfl⟩ := tick_eq_ok ran
  exact .refl fx _ _

theorem kept_writeTemp {t : Temp} (announced : t ∈ fx.writes) (v : Value) :
    Respects (KeptBy fx) (writeTemp t v) := by
  constructor
  intro S _ S' ran
  obtain ⟨ts, written, rfl⟩ := writeTemp_eq_ok ran
  exact .set written announced

theorem kept_store (announced : fx.store = true) (address : Int) (v : Value) :
    Respects (KeptBy fx) (onMachine (Machine.onMemory (Memory.store address v))) := by
  constructor
  intro S _ S' ran
  obtain ⟨m, stored, rfl⟩ := store_eq_ok ran
  obtain ⟨labels, registers⟩ := Memory.store_keeps stored
  refine ⟨labels, registers, ?_, fun _ _ => rfl⟩
  intro _ quiet
  rw [announced] at quiet
  cases quiet

theorem kept_call (announced : fx.call = true) (label : String) (args : List Value) :
    Respects (KeptBy fx) (call setting fuel label args) := by
  constructor
  intro S v S' ran
  have restored : Restored S S' := ((restoring fuel).call label args).related ran
  refine ⟨restored.labels, restored.registers, ?_, ?_⟩
  · intro quiet _
    rw [announced] at quiet
    cases quiet
  · intro t _
    rw [call_keeps_temps ran]

/-- A computation that can only do what `x` does changes nothing. -/
theorem Computes.kept {α : Type} {x : Except Fault α} {size : Nat} {a : α}
    {res : EStateM.Result (Halt Fault) State α} (h : Computes x size fuel S res)
    (ran : res = .ok a S') :
    S' = S := by
  rcases h with h | ⟨h, -⟩
  · rw [h] at ran
    cases x with
    | ok b =>
      cases ran
      rfl
    | error f => cases ran
  · rw [h] at ran
    cases ran

theorem kept_flat (flat : e.isFlat = true) : Respects (KeptBy fx) (eval setting fuel e) := by
  constructor
  intro S v S' ran
  rw [(eval_flat e flat fuel S).kept ran]
  exact .refl fx _ _

/-- The source of a move into a temporary: a flat expression, or a call with flat arguments. -/
theorem kept_source (source : (e.isFlat || e.isFlatCall) = true)
    (calls : e.effects.call = true → fx.call = true) :
    Respects (KeptBy fx) (eval setting fuel e) := by
  rcases Bool.or_eq_true_iff.1 source with flat | flat
  · exact kept_flat flat
  · cases e with
    | call label args =>
      cases fuel with
      | zero => exact respects_throw _
      | succ fuel =>
        have quiet : Respects (KeptBy fx) (args.mapM (eval setting fuel)) := by
          constructor
          intro S vs S' ran
          rw [(evalAll_flat args flat fuel S).kept ran]
          exact .refl fx _ _
        exact quiet.bind fun vs => kept_call (calls (by simp [Expr.effects])) label vs
    | _ => cases flat

theorem kept_exec {s : Stmt} (canonical : s.isCanonical = true) (le : s.effects.Le fx) :
    Respects (KeptBy fx) (exec setting fuel s) := by
  cases fuel with
  | zero => exact respects_throw _
  | succ fuel =>
    cases s with
    | seq ss => cases canonical
    | label l => exact respects_pure _
    | jump l => exact kept_tick.bind fun _ => respects_pure _
    | cjump c l k =>
      apply kept_tick.bind
      intro _
      exact (kept_flat canonical).bind fun v => (respects_lift v.isTruthy).bind fun b =>
        respects_pure _
    | eval e =>
      apply kept_tick.bind
      intro _
      exact (kept_source canonical le.call).bind fun _ => respects_pure _
    | move dst src =>
      apply kept_tick.bind
      intro _
      cases fuel with
      | zero => exact respects_throw _
      | succ fuel =>
        cases dst with
        | temp t =>
          have announced : t ∈ fx.writes := le.writes t (by simp [Stmt.effects])
          have calls : src.effects.call = true → fx.call = true :=
            fun h => le.call (by simp [Stmt.effects, h])
          apply (kept_source canonical calls).bind
          intro v
          exact (kept_writeTemp announced v).bind fun _ => respects_pure _
        | mem a =>
          have announced : fx.store = true := le.store (by simp [Stmt.effects])
          obtain ⟨address, value⟩ := Bool.and_eq_true_iff.1 canonical
          apply (kept_flat address).bind
          intro v
          apply (respects_lift v.asInt).bind
          intro n
          exact (kept_flat value).bind fun v => (kept_store announced n.toInt v).bind fun _ =>
            respects_pure _
        | _ => cases canonical

/-- However control moves within a sequence, its statements keep what they all keep. -/
theorem kept_execFrom {all : List Stmt} (canonical : ∀ s ∈ all, s.isCanonical = true)
    (le : ∀ s ∈ all, s.effects.Le fx) {rest : List Stmt} (sub : rest ⊆ all) :
    Respects (KeptBy fx) (execFrom setting fuel all rest) := by
  induction fuel generalizing rest with
  | zero => exact respects_throw _
  | succ fuel ih =>
    cases rest with
    | nil => exact respects_pure _
    | cons s rest =>
      have mem : s ∈ all := sub (List.mem_cons_self ..)
      apply (kept_exec (canonical s mem) (le s mem)).bind
      intro flow
      cases flow with
      | next => exact ih (List.subset_of_cons_subset sub)
      | jump l =>
        dsimp only
        cases found : seek l all with
        | none => exact respects_pure _
        | some target =>
          obtain ⟨before, after, rfl, rfl⟩ := nested_seek_eq_some found
          exact ih (List.subset_append_right before _)

/-- A sequence of canonical statements, nested or not, changes no more than its effects announce. -/
theorem kept_sequence {s : Stmt} (canonical : s.flatten.all Stmt.isCanonical = true) :
    Respects (KeptBy s.effects) (exec setting fuel s) := by
  rw [List.all_eq_true] at canonical
  cases s with
  | seq ss =>
    cases fuel with
    | zero => exact respects_throw _
    | succ fuel => exact kept_execFrom canonical (Stmt.flattenList_le ss) (List.Subset.refl _)
  | _ => exact kept_exec (canonical _ (List.mem_singleton_self _)) (.refl _)

/-! ## Commutation -/

/-- With enough fuel, a flat expression has the result that memory and temporaries determine. -/
theorem eval_flat_eq (flat : e.isFlat = true) (enough : sizeOf e < fuel) (S : State) :
    eval setting fuel e S = lift (Linear.eval S.machine.memory S.temps e) S := by
  have computes : Computes _ _ _ _ (eval setting fuel e S) := eval_flat e flat fuel S
  rcases computes with result | ⟨-, short⟩
  · exact result
  · omega

/-- The test for commutation is sound for results. After a statement of canonical parts, run through
to its end or to a jump out of it, an expression that commutes with it has the value or the fault
that it had before. The statement may loop, store and call any code. -/
theorem commuting_results_unchanged {s : Stmt} {e : Expr}
    (canonical : s.flatten.all Stmt.isCanonical = true) (flat : e.isFlat = true)
    (commute : commutes s e = true) {flow : Flow} (ran : exec setting fuel s S = .ok flow S') :
    ∃ (result : Except Fault Value) (enough : Nat), ∀ n, enough ≤ n →
      eval setting n e S = lift result S ∧ eval setting n e S' = lift result S' := by
  have kept : KeptBy s.effects S S' := (kept_sequence canonical).related ran
  have same := Linear.eval_of_commutes commute kept
  refine ⟨Linear.eval S.machine.memory S.temps e, sizeOf e + 1, fun n enough => ?_⟩
  constructor
  · exact eval_flat_eq flat enough S
  · rw [← same]
    exact eval_flat_eq flat enough S'

/-- `count` adds one to `total` and has a temporary 3 of its own. -/
def counter : TreeProgram where
  init := { frame := .initial, body := .seq [] }
  globals := [⟨"total", 8⟩]
  entry := "count"
  chunks :=
    [{ frame := { label := "count", depth := 1, parameterCount := 0, parametersSize := 8 }
       body := .seq
        [.move (.temp 3) (.binop .add (.mem (.data "total")) (.const (.int 1))),
         .move (.mem (.data "total")) (.temp 3)] }]

/-- The body again and again, until the temporary 4 is counted down to zero. -/
def countedLoop (body : List Stmt) : Stmt :=
  .seq
    [.label "again",
     .seq (body ++ [.move (.temp 4) (.binop .sub (.temp 4) (.const (.int 1)))]),
     .cjump (.temp 4) "again" "done",
     .label "done"]

/-- A machine that has reserved `total`, with 5 in the temporary 3 and 2 in the temporary 4. -/
def beforeLoop : State where
  machine :=
    { memory := { Memory.ofCapacity 8 with staticTop := 8, labels := [("total", 0)] }, host := {} }
  temps := { values := .ofList [(3, Value.int 5), (4, Value.int 2)] }

/-- Loops that call `count`, with expressions that no callee can touch, and loops that do nothing,
with loads from memory. One expression of each sort is a fault. -/
def loopsAndExpressions : List (Stmt × Expr) :=
  [(countedLoop [.eval (.call "count" [.const (.int 0)])], .temp 3),
   (countedLoop [.eval (.call "count" [.const (.int 0)])], .temp Temp.fp),
   (countedLoop [.eval (.call "count" [.const (.int 0)])], .data "missing"),
   (countedLoop [], .binop .add (.mem (.data "total")) (.temp 3)),
   (countedLoop [], .mem (.const (.int 4)))]

theorem commuting_results_unchanged_countedLoop :
    (∀ p ∈ loopsAndExpressions, p.1.flatten.all Stmt.isCanonical = true ∧ p.2.isFlat = true ∧
      commutes p.1 p.2 = true) ∧
    ∀ p ∈ loopsAndExpressions, ∃ S', exec ⟨counter, 4, none⟩ 30 p.1 beforeLoop = .ok .next S' ∧
      ∃ (result : Except Fault Value) (enough : Nat), ∀ n, enough ≤ n →
        eval ⟨counter, 4, none⟩ n p.2 beforeLoop = lift result beforeLoop ∧
        eval ⟨counter, 4, none⟩ n p.2 S' = lift result S' := by
  have premises : ∀ p ∈ loopsAndExpressions, p.1.flatten.all Stmt.isCanonical = true ∧
      p.2.isFlat = true ∧ commutes p.1 p.2 = true := by decide
  have ends : ∀ p ∈ loopsAndExpressions, (match exec ⟨counter, 4, none⟩ 30 p.1 beforeLoop with
      | .ok .next _ => true
      | _ => false) = true := by decide +kernel
  refine ⟨premises, ?_⟩
  intro p listed
  obtain ⟨canonical, flat, commute⟩ := premises p listed
  have ended := ends p listed
  split at ended
  · next S' ran => exact ⟨S', ran, commuting_results_unchanged canonical flat commute ran⟩
  · cases ended

end PinsBackend.Nested
