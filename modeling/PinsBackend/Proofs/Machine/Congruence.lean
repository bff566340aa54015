import PinsBackend.Machine.Nested

/-! Facts about all that the evaluator does.

A relation between computations that holds of the operations of the evaluator, and is kept by
sequencing, holds of whole evaluations. Two evaluations are walked through side by side, so that the
relation can compare two settings; a property of one evaluation is a relation that ignores the
other. -/
namespace PinsBackend.Nested

open Ir

/-- The relation holds of the operations that both evaluations make, and sequencing keeps it. -/
structure Congruence (setting setting' : Setting) (Q : ∀ {α : Type}, EvalM α → EvalM α → Prop) :
    Prop where
  unfinished : ∀ {α : Type} (x : EvalM α), Q (throw .unfinished) x
  pure : ∀ {α : Type} (a : α), Q (pure a) (pure a)
  throw : ∀ {α : Type} (halt : Halt Fault), Q (throw halt : EvalM α) (throw halt)
  get : Q get get
  lift : ∀ {α : Type} (x : Except Fault α), Q (lift x) (lift x)
  tick : Q (tick setting) (tick setting')
  writeTemp : ∀ t v, Q (writeTemp t v) (writeTemp t v)
  store : ∀ address v, Q (onMachine (Machine.onMemory (Memory.store address v)))
    (onMachine (Machine.onMemory (Memory.store address v)))
  bind : ∀ {α β : Type} {x x' : EvalM α} {f f' : α → EvalM β}, Q x x' → (∀ a, Q (f a) (f' a)) →
    Q (x >>= f) (x' >>= f')

/-- The relation holds of the evaluations with so much fuel. -/
structure Related (setting setting' : Setting) (Q : ∀ {α : Type}, EvalM α → EvalM α → Prop)
    (fuel fuel' : Nat) : Prop where
  eval : ∀ e, Q (eval setting fuel e) (eval setting' fuel' e)
  exec : ∀ s, Q (exec setting fuel s) (exec setting' fuel' s)
  execFrom : ∀ all rest, Q (execFrom setting fuel all rest) (execFrom setting' fuel' all rest)
  move : ∀ dst src, Q (move setting fuel dst src) (move setting' fuel' dst src)
  call : ∀ label args, Q (call setting fuel label args) (call setting' fuel' label args)

namespace Congruence

variable {setting setting' : Setting} {Q : ∀ {α : Type}, EvalM α → EvalM α → Prop}
  {fuel fuel' : Nat}
  (c : Congruence setting setting' Q)

include c

theorem readTemp (t : Temp) : Q (readTemp t) (readTemp t) :=
  c.bind c.get fun _ => c.pure _

theorem load (v : Value) : Q (load v) (load v) :=
  c.bind (c.lift v.asInt) fun _ => c.bind c.get fun _ => c.lift _

section

variable (h : Related setting setting' Q fuel fuel')

include h

theorem args (es : List Expr) :
    Q (es.mapM (Nested.eval setting fuel)) (es.mapM (Nested.eval setting' fuel')) := by
  induction es with
  | nil => exact c.pure []
  | cons e es ih =>
    rw [List.mapM_cons, List.mapM_cons]
    exact c.bind (h.eval e) fun v => c.bind ih fun vs => c.pure _

theorem eval (e : Expr) :
    Q (Nested.eval setting (fuel + 1) e) (Nested.eval setting' (fuel' + 1) e) := by
  cases e with
  | const v => exact c.pure v
  | data l => exact c.bind c.get fun _ => c.lift _
  | temp t => exact c.readTemp t
  | mem a => exact c.bind (h.eval a) c.load
  | binop op l r => exact c.bind (h.eval l) fun a => c.bind (h.eval r) fun b => c.lift _
  | checkIndex i n => exact c.bind (h.eval i) fun v => c.lift _
  | call label args => exact c.bind (c.args h args) fun vs => h.call label vs
  | eseq s e =>
    apply c.bind (h.exec s)
    intro flow
    cases flow with
    | next => exact h.eval e
    | jump l => exact c.throw _

theorem exec (s : Stmt) :
    Q (Nested.exec setting (fuel + 1) s) (Nested.exec setting' (fuel' + 1) s) := by
  cases s with
  | seq ss => exact h.execFrom _ _
  | label l => exact c.pure _
  | jump l => exact c.bind c.tick fun _ => c.pure _
  | cjump e l k =>
    apply c.bind c.tick
    intro _
    exact c.bind (h.eval e) fun v => c.bind (c.lift v.isTruthy) fun b => c.pure _
  | move dst src => exact c.bind c.tick fun _ => h.move dst src
  | eval e => exact c.bind c.tick fun _ => c.bind (h.eval e) fun _ => c.pure _

theorem execFrom (all rest : List Stmt) : Q (Nested.execFrom setting (fuel + 1) all rest)
      (Nested.execFrom setting' (fuel' + 1) all rest) := by
  cases rest with
  | nil => exact c.pure _
  | cons s rest =>
    apply c.bind (h.exec s)
    intro flow
    cases flow with
    | next => exact h.execFrom all rest
    | jump l =>
      dsimp only
      cases seek l all with
      | some target => exact h.execFrom all target
      | none => exact c.pure _

theorem move (dst src : Expr) :
    Q (Nested.move setting (fuel + 1) dst src) (Nested.move setting' (fuel' + 1) dst src) := by
  cases dst with
  | temp t => exact c.bind (h.eval src) fun v => c.bind (c.writeTemp t v) fun _ => c.pure _
  | mem a =>
    apply c.bind (h.eval a)
    intro address
    apply c.bind (c.lift address.asInt)
    intro n
    exact c.bind (h.eval src) fun v => c.bind (c.store n.toInt v) fun _ => c.pure _
  | eseq s e =>
    apply c.bind (h.exec s)
    intro flow
    cases flow with
    | next => exact h.move e src
    | jump l => exact c.pure _
  | const | data | binop | checkIndex | call => exact c.throw _

end

/-- If a call is related as soon as what it evaluates is, then so are whole evaluations. -/
theorem related (calls : ∀ {fuel fuel'}, Related setting setting' Q fuel fuel' → ∀ label args,
      Q (Nested.call setting (fuel + 1) label args) (Nested.call setting' (fuel' + 1) label args))
    (more : fuel ≤ fuel') : Related setting setting' Q fuel fuel' := by
  induction fuel generalizing fuel' with
  | zero =>
    exact ⟨fun _ => c.unfinished _, fun _ => c.unfinished _, fun _ _ => c.unfinished _,
      fun _ _ => c.unfinished _, fun _ _ => c.unfinished _⟩
  | succ fuel ih =>
    cases fuel' with
    | zero => omega
    | succ fuel' =>
      have h := ih (Nat.le_of_succ_le_succ more)
      exact ⟨c.eval h, c.exec h, c.execFrom h, c.move h, calls h⟩

end Congruence
end PinsBackend.Nested
