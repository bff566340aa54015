import PinsBackend.Proofs.Canonical.Correspondence
import PinsBackend.Proofs.Machine.Calls

/-! The two machines on the same linear code.

Linear code is tree code whose bodies are flat sequences, so the evaluator can run it too. Every
statement that the evaluator gets through is one step of the linear machine, a call and its return
two more. The simulation counts these steps: an evaluation that runs out of fuel, or that nests
calls too deep, leaves the linear machine with many steps to make. -/
namespace PinsBackend

open Ir

variable {l : String}

/-- Linear code for one function, as tree code. -/
def Ir.Chunk.asTree (c : Chunk (List Stmt)) : Chunk Stmt where
  frame := c.frame
  body := .seq c.body

/-- Linear code as tree code. -/
def Ir.LinearProgram.asTree (p : LinearProgram) : TreeProgram where
  chunks := p.chunks.map Chunk.asTree
  globals := p.globals
  init := p.init.asTree
  entry := p.entry

theorem Ir.LinearProgram.chunk?_asTree (p : LinearProgram) (l : String) :
    p.asTree.chunk? l = (p.chunk? l).map Chunk.asTree := by
  have found (cs : List (Chunk (List Stmt))) (o : Option (Chunk (List Stmt))) :
      (cs.map Chunk.asTree).foldl (fun found c => if c.frame.label = l then some c else found)
          (o.map Chunk.asTree) =
        (cs.foldl (fun found c => if c.frame.label = l then some c else found) o).map
          Chunk.asTree := by
    induction cs generalizing o with
    | nil => rfl
    | cons c cs ih =>
      rw [List.map_cons, List.foldl_cons, List.foldl_cons, ← ih]
      by_cases h : c.frame.label = l
      · simp [Chunk.asTree, h]
      · simp [Chunk.asTree, h]
  exact found (p.init :: p.chunks) none

/-- A canonical statement is not a sequence. -/
theorem Ir.Stmt.flatten_of_isCanonical {s : Stmt} (h : s.isCanonical = true) : s.flatten = [s] := by
  cases s with
  | seq ss => simp [isCanonical] at h
  | _ => simp [flatten]

theorem Ir.Stmt.flattenList_of_isCanonical {ss : List Stmt} (h : ss.all isCanonical = true) :
    flattenList ss = ss := by
  induction ss with
  | nil => simp [flattenList]
  | cons s ss ih =>
    simp only [List.all_cons, Bool.and_eq_true] at h
    rw [flattenList, flatten_of_isCanonical h.1, ih h.2, List.singleton_append]

variable {code : List Stmt}

/-- Labels that are defined once are found at the same place from either end. -/
theorem nested_seek_eq (hn : (labelsOf code).Nodup) : Nested.seek l code = Linear.seek l code := by
  induction code with
  | nil => rfl
  | cons s code ih =>
    have hn' := hn
    rw [show s :: code = [s] ++ code from rfl, labelsOf_append, List.nodup_append] at hn'
    cases hs : s.isLabel l with
    | false =>
      simp only [Nested.seek, Linear.seek, hs, ih hn'.2.1, Bool.false_eq_true, ↓reduceIte]
      cases Linear.seek l code <;> rfl
    | true =>
      cases s <;> simp only [Stmt.isLabel, Bool.false_eq_true, beq_iff_eq] at hs
      subst hs
      rw [seek_of_suffix hn List.suffix_rfl]
      simp [Nested.seek, Stmt.isLabel]

theorem seek_suffix {found : List Stmt} (h : Linear.seek l code = some found) : found <:+ code := by
  induction code generalizing found with
  | nil => simp [Linear.seek] at h
  | cons s code ih =>
    simp only [Linear.seek] at h
    split at h
    · next hrest =>
      cases h
      exact (ih hrest).trans (List.suffix_cons _ _)
    · split at h
      · cases h; exact List.suffix_rfl
      · cases h

/-- A label that stands in the code is found. -/
theorem seek_isSome (h : .label l ∈ code) : ∃ found, Linear.seek l code = some found := by
  induction code with
  | nil => cases h
  | cons s code ih =>
    rw [Linear.seek]
    split
    · next found _ => exact ⟨found, rfl⟩
    · next missing =>
      rcases List.mem_cons.1 h with rfl | h
      · exact ⟨_, if_pos (by simp [Stmt.isLabel])⟩
      · obtain ⟨found, hf⟩ := ih h
        rw [missing] at hf
        cases hf

namespace Linear

variable {n : Nat}

/-- So many steps lead from one configuration to the other. -/
inductive StepsIn (p : LinearProgram) : Nat → Config → Config → Prop
  | refl (c : Config) : StepsIn p 0 c c
  | head {n : Nat} {c c₁ c₂ : Config} :
      Moves p c c₁ → StepsIn p n c₁ c₂ → StepsIn p (n + 1) c c₂

variable {p : LinearProgram} {c c' : Config}

theorem StepsIn.single (h : Moves p c c') : StepsIn p 1 c c' := .head h (.refl _)

theorem StepsIn.trans {m : Nat} {c₁ c₂ : Config} (h : StepsIn p m c c₁) (h' : StepsIn p n c₁ c₂) :
    StepsIn p (m + n) c c₂ := by
  induction h with
  | refl => simpa using h'
  | @head m _ _ _ hmove _ ih =>
    rw [show m + 1 + n = m + n + 1 by omega]
    exact .head hmove (ih h')

theorem StepsIn.steps (h : StepsIn p n c c') : Steps p c c' := by
  induction h with
  | refl => exact .refl
  | head hmove _ ih => exact .head hmove ih

/-- A machine that has so many steps to make does not end with less fuel. -/
theorem StepsIn.unfinished (h : StepsIn p n c c') {fuel : Nat} (hfuel : fuel ≤ n) (steps : Nat) :
    ∃ last, loop p none fuel (c.state steps) = .error .unfinished last := by
  induction h generalizing fuel steps with
  | refl =>
    obtain rfl : fuel = 0 := by omega
    exact ⟨_, rfl⟩
  | head hmove _ ih =>
    cases fuel with
    | zero => exact ⟨_, rfl⟩
    | succ fuel =>
      obtain ⟨steps₁, hstep⟩ := hmove steps
      obtain ⟨last, hlast⟩ := ih (Nat.le_of_succ_le_succ hfuel) steps₁
      refine ⟨last, ?_⟩
      rw [loop, bind_apply, hstep]
      exact hlast

section

variable {act : Activation} {callers : List Activation} {rest : List Stmt} {ts : Temps} {m : Memory}
  {h : Host}

/-- The caller cannot take the result of an activation that has no statements left. -/
theorem stops_leave (caller : Activation) {f : Fault}
    (hr : caller.temps.receive act.result (ts.get m Temp.rv) = .error f) :
    Stops p (act.config (caller :: callers) [] ts m h) (.fault f)
      ⟨m.restore act.saved, h, caller :: callers⟩ := by
  intro steps
  refine ⟨steps, ?_⟩
  cases ht : act.result with
  | none => simp [Temps.receive, ht] at hr
  | some t =>
    simp only [Temps.receive, ht] at hr
    simp [step, Activation.config, Config.state, leave, ht, assign, hr]

end
end Linear

namespace Nested

variable {α : Type} {x : Except Fault α}

variable {setting : Setting}

/-- An evaluation does what `x` does, or it has run out of fuel before it did anything. -/
def Computes {α : Type} (x : Except Fault α) (size fuel : Nat) (S : State)
    (res : EStateM.Result (Halt Fault) State α) : Prop :=
  res = lift x S ∨ (res = .error .unfinished S ∧ fuel ≤ size)

theorem Computes.bind {β : Type} {size fuel : Nat} {S : State} {e : EvalM α}
    (h : Computes x size fuel S (e S)) {f : α → EvalM β} {g : α → Except Fault β}
    (hf : ∀ a, Computes (g a) size fuel S (f a S)) :
    Computes (x >>= g) size fuel S ((e >>= f) S) := by
  rw [bind_apply]
  rcases h with h | ⟨h, hsize⟩
  · rw [h]
    cases x with
    | ok a => exact hf a
    | error fault => exact .inl rfl
  · rw [h]
    exact .inr ⟨rfl, hsize⟩

theorem Computes.mono {size size' fuel fuel' : Nat} {S : State}
    {res : EStateM.Result (Halt Fault) State α} (h : Computes x size fuel S res)
    (le : fuel ≤ size → fuel' ≤ size') : Computes x size' fuel' S res :=
  h.imp_right fun ⟨h, hsize⟩ => ⟨h, le hsize⟩

theorem computes_lift (x : Except Fault α) (size fuel : Nat) (S : State) :
    Computes x size fuel S (lift x S) := .inl rfl

/-- On flat expressions the two machines compute the same, given fuel for the size. -/
theorem eval_flat (e : Expr) (flat : e.isFlat = true) (fuel : Nat) (S : State) :
    Computes (Linear.eval S.machine.memory S.temps e) (sizeOf e) fuel S
      (eval setting fuel e S) := by
  cases fuel with
  | zero => exact .inr ⟨by simp [eval, throw_apply], Nat.zero_le _⟩
  | succ fuel =>
    cases e with
    | const v =>
      exact .inl (by simp [eval, pure_apply, Linear.eval, lift])
    | data l =>
      exact .inl (by simp [eval, bind_apply, get_apply, Linear.eval])
    | temp t =>
      exact .inl (by simp [eval, readTemp, bind_apply, get_apply, pure_apply, Linear.eval, lift])
    | mem a =>
      simp only [eval, Linear.eval]
      have inner : Computes (Linear.eval S.machine.memory S.temps a) (sizeOf (Expr.mem a))
        (fuel + 1) S
          (eval setting fuel a S) := (eval_flat a flat fuel S).mono (by simp; omega)
      refine inner.bind fun v => ?_
      refine Computes.bind (computes_lift _ _ _ _) fun address => ?_
      exact computes_lift _ _ _ _
    | binop op l r =>
      simp only [Expr.isFlat, Expr.effects, Effects.union_call, Effects.union_nested, Bool.or_false,
        Bool.not_or, Bool.and_eq_true] at flat
      have hl : l.isFlat = true := by simp [Expr.isFlat, flat]
      have hr : r.isFlat = true := by simp [Expr.isFlat, flat]
      simp only [eval, Linear.eval]
      refine (eval_flat l hl fuel S).mono (by simp; omega) |>.bind fun a => ?_
      refine (eval_flat r hr fuel S).mono (by simp; omega) |>.bind fun b => ?_
      exact computes_lift _ _ _ _
    | checkIndex i n =>
      simp only [Expr.isFlat, Expr.effects, Effects.union_call, Effects.union_nested,
        Bool.or_false] at flat
      simp only [eval, Linear.eval]
      refine (eval_flat i flat fuel S).mono (by simp; omega) |>.bind fun v => ?_
      exact computes_lift _ _ _ _
    | call _ _ =>
      simp [Expr.isFlat, Expr.effects] at flat
    | eseq _ _ =>
      simp [Expr.isFlat, Expr.effects] at flat

theorem evalAll_flat (args : List Expr) (flat : args.all Expr.isFlat = true) (fuel : Nat)
    (S : State) :
    Computes (Linear.evalAll S.machine.memory S.temps args) (sizeOf args) fuel S
      (args.mapM (eval setting fuel) S) := by
  induction args with
  | nil => exact .inl (by simp [pure_apply, Linear.evalAll, lift])
  | cons e es ih =>
    simp only [List.all_cons, Bool.and_eq_true] at flat
    simp only [List.mapM_cons, Linear.evalAll]
    refine (eval_flat e flat.1 fuel S).mono (by simp; omega) |>.bind fun v => ?_
    refine (ih flat.2).mono (by simp; omega) |>.bind fun vs => ?_
    exact .inl rfl

theorem tick_apply (h : setting.budget = none) (S : State) :
    tick setting S = .ok () { S with machine.steps := S.machine.steps + 1 } := by
  simp [tick, onMachine, Machine.tick, h]

end Nested

/-! ## Statements -/

namespace Lockstep

open Linear (Activation Config StepsIn Stops)

variable {halt : Halt Fault} {S : Nested.State}

/-- The place of the linear machine that corresponds to a state of the evaluator. -/
def place (act : Activation) (callers : List Activation) (rest : List Stmt) (S : Nested.State) :
    Config :=
  act.config callers rest S.temps S.machine.memory S.machine.host

def callsOf (stack : List Activation) : List String := stack.map fun a => a.chunk.frame.label

/-- What the linear machine does where the evaluator, with this much fuel, gives up: it stops alike;
or it goes on, because the evaluator nests calls too deep or has spent its fuel. -/
inductive Ends (p : LinearProgram) (limit size fuel : Nat) (c : Config) :
    Halt Fault → Nested.State → Prop
  | stops {n : Nat} {c₁ c₂ : Config} {halt : Halt Fault} {S : Nested.State}
      (steps : StepsIn p n c c₁)
      (stop : Stops p c₁ halt c₂) (memory : c₂.memory = S.machine.memory)
      (host : c₂.host = S.machine.host) (calls : callsOf c₂.stack = S.calls) : Ends p limit size
        fuel c halt S
  | tooDeep {n : Nat} {c₁ : Config} {S : Nested.State} (steps : StepsIn p n c c₁)
      (deep : limit ≤ c.stack.length + n) :
      Ends p limit size fuel c (.fault (.stackOverflow S.machine.memory.sp)) S
  | unfinished {n : Nat} {c₁ : Config} {S : Nested.State} (steps : StepsIn p n c c₁)
      (long : fuel ≤ 6 * n + size) : Ends p limit size fuel c .unfinished S

variable {p : LinearProgram} {setting : Nested.Setting} {limit size fuel : Nat}

theorem Ends.of_steps {n fuel' : Nat} {c c' : Config} (h : Ends p limit size fuel' c' halt S)
    (steps : StepsIn p n c c') (depth : c'.stack.length ≤ c.stack.length + n)
    (spent : fuel ≤ fuel' + 6 * n) :
    Ends p limit size fuel c halt S := by
  cases h with
  | stops more stop memory host calls => exact .stops (steps.trans more) stop memory host calls
  | tooDeep more deep => exact .tooDeep (steps.trans more) (by omega)
  | unfinished more long => exact .unfinished (steps.trans more) (by omega)

theorem Ends.at_once {c c' : Config} (stop : Stops p c halt c')
    (memory : c'.memory = S.machine.memory) (host : c'.host = S.machine.host)
    (calls : callsOf c'.stack = S.calls) : Ends p limit size fuel c halt S :=
  .stops (.refl c) stop memory host calls

/-- One statement takes the linear machine at least a step further. -/
def Executes (p : LinearProgram) (limit size fuel : Nat) (act : Activation)
    (callers : List Activation) (stmt : Stmt) (rest : List Stmt) (S : Nested.State) :
    EStateM.Result (Halt Fault) Nested.State Nested.Flow → Prop
  | .ok .next S' => S'.calls = S.calls ∧
      ∃ n, StepsIn p (n + 1) (place act callers (stmt :: rest) S) (place act callers rest S')
  | .ok (.jump l) S' => S'.calls = S.calls ∧
      (∀ target, Linear.seek l act.chunk.body = some target →
        Linear.Moves p (place act callers (stmt :: rest) S) (place act callers target S')) ∧
      (Linear.seek l act.chunk.body = none →
        Stops p (place act callers (stmt :: rest) S) (.fault (.undefinedLabel l))
          (place act callers rest S'))
  | .error halt S' => Ends p limit size fuel (place act callers (stmt :: rest) S) halt S'

/-- The rest of a body takes the linear machine to the end of the activation. -/
def Completes (p : LinearProgram) (limit size fuel : Nat) (act : Activation)
    (callers : List Activation) (rest : List Stmt) (S : Nested.State) :
    EStateM.Result (Halt Fault) Nested.State Nested.Flow → Prop
  | .ok .next S' => S'.calls = S.calls ∧
      ∃ n, StepsIn p n (place act callers rest S) (place act callers [] S')
  | .ok (.jump l) S' =>
      Ends p limit size fuel (place act callers rest S) (.fault (.undefinedLabel l)) S'
  | .error halt S' => Ends p limit size fuel (place act callers rest S) halt S'

/-- A call that was given its arguments takes the linear machine past the statement. -/
def Returns (p : LinearProgram) (limit size fuel : Nat) (act : Activation)
    (callers : List Activation) (stmt : Stmt) (result : Option Temp) (rest : List Stmt)
    (S : Nested.State) : EStateM.Result (Halt Fault) Nested.State Value → Prop
  | .ok v S' => S'.calls = S.calls ∧ S'.temps = S.temps ∧
      (∀ ts, S.temps.receive result v = .ok ts → ∃ n, StepsIn p (n + 1)
        (place act callers (stmt :: rest) S) (place act callers rest { S' with temps := ts })) ∧
      (∀ f, S.temps.receive result v = .error f →
        Ends p limit size fuel (place act callers (stmt :: rest) S) (.fault f) S')
  | .error halt S' => Ends p limit size fuel (place act callers (stmt :: rest) S) halt S'

section

variable {act : Activation} {callers : List Activation} {rest : List Stmt} {S : Nested.State}
  {stmt : Stmt} {label : String} {args : List Expr} {result : Option Temp}

/-- A statement that reads operands before it does anything fails where the evaluator does. -/
theorem Executes.of_computes {α : Type} {x : Except Fault α} {k fuel' : Nat} {e : Nested.EvalM α}
    (hcalls : S.calls = callsOf (act :: callers)) (h : Nested.Computes x k fuel' S (e S))
    (enough : fuel' ≤ k → fuel ≤ size)
    (faults : ∀ f, x = .error f → Stops p (place act callers (stmt :: rest) S) (.fault f)
      (place act callers rest S)) {f : α → Nested.EvalM Nested.Flow}
    (goes : ∀ a, x = .ok a → Executes p limit size fuel act callers stmt rest S (f a S)) :
    Executes p limit size fuel act callers stmt rest S ((e >>= f) S) := by
  rw [bind_apply]
  rcases h with h | ⟨h, hk⟩
  · rw [h]
    cases hx : x with
    | ok a => exact goes a hx
    | error fault => exact .at_once (faults fault hx) rfl rfl hcalls.symm
  · rw [h]
    exact .unfinished (.refl _) (by have := enough hk; omega)

/-- A jump of the evaluator that the linear machine makes when it executes the statement. -/
theorem Executes.of_goto {l : String}
    (h : ∀ steps, Linear.execute p S.temps stmt ((place act callers rest S).state steps) =
      Linear.goto l ((place act callers rest S).state steps)) :
    Executes p limit size fuel act callers stmt rest S (.ok (.jump l) S) := by
  refine ⟨rfl, fun target found => ?_, fun missing => ?_⟩
  · refine Linear.moves_of_execute fun steps => (h steps).trans ?_
    simp [Linear.goto, place, Activation.config, Config.state, found]
  · refine Linear.stops_of_execute fun steps => (h steps).trans ?_
    simp [Linear.goto, place, Activation.config, Config.state, missing]

/-- Counting a statement changes nothing that the linear machine shows. -/
theorem Executes.of_tick (budget : setting.budget = none) {x : Nested.EvalM Nested.Flow}
    (hcalls : S.calls = callsOf (act :: callers))
    (h : ∀ S₁ : Nested.State, S₁.calls = callsOf (act :: callers) →
      Executes p limit size fuel act callers stmt rest S₁ (x S₁)) :
    Executes p limit size fuel act callers stmt rest S
      ((Nested.tick setting >>= fun _ => x) S) := by
  rw [bind_apply, Nested.tick_apply budget]
  exact h { S with machine.steps := S.machine.steps + 1 } hcalls

theorem isFlat_of_source {e : Expr} (source : (e.isFlat || e.isFlatCall) = true)
    (notCall : ∀ l args, e ≠ .call l args) : e.isFlat = true := by
  rcases Bool.or_eq_true_iff.1 source with flat | flat
  · exact flat
  · cases e with
    | call l args => exact absurd rfl (notCall l args)
    | _ => cases flat

/-- Statements other than calls are one step. -/
theorem executes_flat (budget : setting.budget = none) (canonical : stmt.isCanonical = true)
    (noCall : ∀ r l args, stmt ≠ Linear.callStmt r (.call l args)) (bound : sizeOf stmt + 4 ≤ size)
    (fuel : Nat) (hcalls : S.calls = callsOf (act :: callers)) :
    Executes p limit size (fuel + 1) act callers stmt rest S
      (Nested.exec setting fuel stmt S) := by
  cases fuel with
  | zero => exact .unfinished (.refl _) (by omega)
  | succ fuel =>
    cases stmt with
    | label l =>
      simp only [Nested.exec, pure_apply]
      exact ⟨rfl, 0, .single Linear.moves_label⟩
    | jump l =>
      simp only [Nested.exec]
      exact .of_tick budget hcalls fun S hcalls => .of_goto fun _ => rfl
    | cjump c ifTrue ifFalse =>
      simp only [Nested.exec]
      refine .of_tick budget hcalls fun S hcalls => ?_
      refine .of_computes hcalls (Nested.eval_flat c canonical fuel _) (by simp at bound; omega)
        (fun f hf => Linear.faults_cjump hf) fun v hv => ?_
      refine .of_computes hcalls (Nested.computes_lift v.isTruthy 0 1 _) (by omega)
        (fun f hf => ?_) fun b hb => ?_
      · refine Linear.stops_of_execute fun _ => ?_
        rw [Linear.execute_cjump]
        simp only [Activation.config, Linear.Config.state, hv, Except.bind, hf]
        rfl
      · refine .of_goto fun steps => ?_
        rw [place, Linear.execute_cjump]
        simp only [Activation.config, Linear.Config.state, hv, Except.bind, hb]
    | move dst src =>
      cases dst with
      | temp t =>
        have notCall (l : String) (args : List Expr) : src ≠ .call l args := fun h =>
          noCall (some t) l args (by rw [h]; rfl)
        have flat : src.isFlat = true := isFlat_of_source canonical notCall
        simp only [Nested.exec]
        refine .of_tick budget hcalls fun S hcalls => ?_
        cases fuel with
        | zero => exact .unfinished (.refl _) (by simp at bound; omega)
        | succ fuel =>
          simp only [Nested.move]
          refine .of_computes hcalls (Nested.eval_flat src flat fuel _) (by simp at bound; omega)
            (fun f hf => Linear.faults_move_temp notCall hf) fun v hv => ?_
          simp only [bind_apply, Nested.writeTemp]
          cases ht : S.temps.set t v with
          | ok ts => exact ⟨rfl, 0, .single (Linear.moves_move_temp notCall hv ht)⟩
          | error f => exact .at_once (Linear.faults_move_fp notCall hv ht) rfl rfl hcalls.symm
      | mem a =>
        simp only [Stmt.isCanonical, Bool.and_eq_true] at canonical
        simp only [Nested.exec]
        refine .of_tick budget hcalls fun S hcalls => ?_
        cases fuel with
        | zero => exact .unfinished (.refl _) (by simp at bound; omega)
        | succ fuel =>
          simp only [Nested.move]
          refine .of_computes hcalls (Nested.eval_flat a canonical.1 fuel _)
            (by simp at bound; omega)
            (fun f hf => Linear.faults_store (by simp [hf, bind, Except.bind])) fun va hva => ?_
          refine .of_computes hcalls (Nested.computes_lift va.asInt 0 1 _) (by omega)
            (fun f hf => Linear.faults_store (by simp [hva, hf, bind, Except.bind])) fun n hn => ?_
          refine .of_computes hcalls (Nested.eval_flat src canonical.2 fuel _)
            (by simp at bound; omega)
            (fun f hf => Linear.faults_store (by simp [hva, hn, hf, bind, Except.bind]))
            fun v hv => ?_
          simp only [bind_apply, Nested.onMachine, Machine.onMemory]
          cases hm : Memory.store n.toInt v S.machine.memory with
          | ok _ m => exact ⟨rfl, 0, .single (Linear.moves_store hva hn hv hm)⟩
          | error halt m =>
            refine .at_once
              (show Linear.Stops p _ halt (act.config callers rest S.temps m S.machine.host)
              from Linear.stops_of_execute fun _ => ?_) rfl rfl hcalls.symm
            simp only [Linear.execute, Linear.onMachine, Linear.storeAt, Activation.config,
              Config.state, hva, hn, hv, bind, Except.bind, pure, Except.pure, Machine.onMemory, hm]
      | const | data | binop | call | eseq | checkIndex => cases canonical
    | seq => cases canonical
    | eval e =>
      have notCall (l : String) (args : List Expr) : e ≠ .call l args := fun h =>
        noCall none l args (by rw [h]; rfl)
      have flat : e.isFlat = true := isFlat_of_source canonical notCall
      simp only [Nested.exec]
      refine .of_tick budget hcalls fun S hcalls => ?_
      refine .of_computes hcalls (Nested.eval_flat e flat fuel _) (by simp at bound; omega)
        (fun f hf => Linear.faults_eval notCall hf) fun v hv => ?_
      exact ⟨rfl, 0, .single (Linear.moves_eval notCall hv)⟩

/-! ## Calls -/

/-- What the simulation asks of linear code: canonical statements up to some size, and labels that
are defined once. -/
structure Regular (p : LinearProgram) (size : Nat) : Prop where
  canonical : ∀ c ∈ p.init :: p.chunks, c.isCanonical = true
  unique : ∀ c ∈ p.init :: p.chunks, (labelsOf c.body).Nodup
  bound : ∀ c ∈ p.init :: p.chunks, ∀ s ∈ c.body, sizeOf s + 4 ≤ size

/-- Bodies of chunks, from any place in them on, for one amount of fuel. -/
def CompletesAll (setting : Nested.Setting) (p : LinearProgram) (size fuel : Nat) : Prop :=
  ∀ (act : Activation) (callers : List Activation) (rest : List Stmt) (S : Nested.State),
    act.chunk ∈ p.init :: p.chunks → rest <:+ act.chunk.body →
    S.calls = callsOf (act :: callers) →
    Completes p setting.maxCallDepth size fuel act callers rest S
      (Nested.execFrom setting fuel act.chunk.body rest S)

/-- A chunk's body as tree code. -/
theorem completes_body (reg : Regular p size) (ih : ∀ g < fuel, CompletesAll setting p size g)
    {c : Chunk (List Stmt)} (hc : c ∈ p.init :: p.chunks) (result : Option Temp) (saved : Registers)
    (callers : List Activation) (S : Nested.State)
    (hcalls : S.calls = c.frame.label :: callsOf callers) :
    Completes p setting.maxCallDepth size (fuel - 1)
      { chunk := c, rest := c.body, result, saved } callers c.body S
      (Nested.exec setting fuel c.asTree.body S) := by
  cases fuel with
  | zero => exact .unfinished (.refl _) (Nat.zero_le _)
  | succ fuel =>
    simp only [Nested.exec, Chunk.asTree, Stmt.flattenList_of_isCanonical (reg.canonical c hc)]
    exact ih fuel (Nat.lt_succ_self _) { chunk := c, rest := c.body, result, saved } callers
      c.body S hc
      List.suffix_rfl hcalls

/-- A call is a step, then the steps of the callee, then its return. -/
theorem returns_call (program : setting.program = p.asTree) (reg : Regular p size) {f : Nat}
    (ih : ∀ g < f, CompletesAll setting p size g) (hfuel : fuel ≤ f + 5) {vs : List Value}
    (hvs : Linear.evalAll S.machine.memory S.temps args = .ok vs)
    (hcalls : S.calls = callsOf (act :: callers)) :
    Returns p setting.maxCallDepth size fuel act callers
      (Linear.callStmt result (.call label args)) result rest S
      (Nested.call setting (f + 1) label vs S) := by
  have chunk : setting.program.chunk? label = (p.chunk? label).map Chunk.asTree := by
    rw [program, p.chunk?_asTree]
  cases hc : p.chunk? label with
  | none =>
    rw [hc, Option.map_none] at chunk
    obtain ⟨⟨m, h, n⟩, calls, ts⟩ := S
    have linear := Linear.call_builtin_apply hc vs result act callers rest ts m h
    simp only [Nested.call, chunk, Nested.onMachine, Machine.callBuiltin_apply]
    cases hb : Builtin.ofLabel? label with
    | none =>
      simp only [hb] at linear
      exact .at_once (Linear.stops_call hvs linear) rfl rfl hcalls.symm
    | some b =>
      cases hh : Host.call b (vs.drop 1) h with
      | error f h' =>
        simp only [hb, hh] at linear ⊢
        exact .at_once (Linear.stops_call hvs linear) rfl rfl hcalls.symm
      | ok v h' =>
        simp only [hb, hh] at linear ⊢
        refine ⟨rfl, rfl, fun ts hts => ⟨0, ?_⟩, fun f hf => ?_⟩
        · simp only [hts] at linear
          exact .single (Linear.moves_call hvs linear)
        · simp only [hf] at linear
          exact .at_once (Linear.stops_call hvs linear) rfl rfl hcalls.symm
  | some c =>
    rw [hc, Option.map_some] at chunk
    have mem := (Program.mem_of_chunk? hc).1
    simp only [Nested.call, chunk]
    rw [bind_apply]
    cases opening setting hc vs result S ({ act with rest, temps := S.temps } :: callers) with
    | tooDeep deep nested =>
      rw [show c.asTree.frame = c.frame from rfl, nested]
      exact .tooDeep (.refl _)
        (by rw [hcalls] at deep; simpa [callsOf, place, Activation.config] using deep)
    | fails nested linear =>
      rw [show c.asTree.frame = c.frame from rfl, nested]
      exact .at_once (Linear.stops_call hvs linear) rfl rfl hcalls.symm
    | @opens saved m entered nested linear =>
      rw [show c.asTree.frame = c.frame from rfl, nested]
      have enters : Linear.Moves p
          (place act callers (Linear.callStmt result (.call label args) :: rest) S) _ :=
        Linear.moves_call hvs linear
      have body := completes_body reg ih mem result saved
        ({ act with rest, temps := S.temps } :: callers)
        ⟨{ S.machine with memory := m }, c.frame.label :: S.calls, {}⟩ (by rw [hcalls]; rfl)
      dsimp only
      rw [bind_apply]
      generalize Nested.exec setting f c.asTree.body
        ⟨{ S.machine with memory := m }, c.frame.label :: S.calls, {}⟩ = res at body
      cases res with
      | ok flow S₂ =>
        cases flow with
        | next =>
          obtain ⟨calls, n, steps⟩ := body
          refine ⟨congrArg (List.drop 1) calls, rfl, fun ts hts => ⟨n + 1, ?_⟩, fun f hf => ?_⟩
          · exact .head enters (steps.trans (.single (Linear.moves_leave _ hts)))
          · exact .stops (.head enters steps) (Linear.stops_leave _ hf) rfl rfl 
              (hcalls.symm.trans (congrArg (List.drop 1) calls).symm)
        | jump l =>
          exact body.of_steps (.single enters) (Nat.le_refl _) (by omega)
      | error halt S₂ =>
        exact body.of_steps (.single enters) (Nat.le_refl _) (by omega)

/-- The evaluation of a call, whose value goes to a temporary or is dropped. -/
theorem returns_eval (program : setting.program = p.asTree) (reg : Regular p size) {f : Nat}
    (ih : ∀ g < f, CompletesAll setting p size g) (hfuel : fuel ≤ f + 3)
    (flat : args.all Expr.isFlat = true) (bound : sizeOf args + 4 ≤ size)
    (hcalls : S.calls = callsOf (act :: callers)) :
    Returns p setting.maxCallDepth size fuel act callers
      (Linear.callStmt result (.call label args)) result rest S
      (Nested.eval setting f (.call label args) S) := by
  cases f with
  | zero => exact .unfinished (.refl _) (by omega)
  | succ f =>
    simp only [Nested.eval, bind_apply]
    have computed : Nested.Computes _ _ _ _ (args.mapM (Nested.eval setting f) S) :=
      Nested.evalAll_flat args flat f S
    rcases computed with h | ⟨h, small⟩
    · rw [h]
      cases hvs : Linear.evalAll S.machine.memory S.temps args with
      | error fault => exact .at_once (Linear.faults_args hvs) rfl rfl hcalls.symm
      | ok vs =>
        cases f with
        | zero => exact .unfinished (.refl _) (by omega)
        | succ f =>
          exact returns_call program reg (fun g hg => ih g (by omega)) (by omega) hvs hcalls
    · rw [h]
      exact .unfinished (.refl _) (by omega)

/-- A call statement takes the linear machine through the callee. -/
theorem executes_call (program : setting.program = p.asTree) (budget : setting.budget = none)
    (reg : Regular p size) {f : Nat} (ih : ∀ g < f, CompletesAll setting p size g)
    (flat : args.all Expr.isFlat = true)
    (bound : sizeOf (Linear.callStmt result (.call label args)) + 4 ≤ size)
    (hcalls : S.calls = callsOf (act :: callers)) :
    Executes p setting.maxCallDepth size (f + 1) act callers
      (Linear.callStmt result (.call label args)) rest S
      (Nested.exec setting f (Linear.callStmt result (.call label args)) S) := by
  cases f with
  | zero => exact .unfinished (.refl _) (by omega)
  | succ f =>
    cases result with
    | none =>
      simp only [Linear.callStmt, Nested.exec] at bound ⊢
      refine .of_tick budget hcalls fun S hcalls => ?_
      have called : Returns p setting.maxCallDepth size (f + 2) act callers
          (Linear.callStmt none (.call label args)) none rest S
          (Nested.eval setting f (.call label args) S) :=
        returns_eval program reg (fun g hg => ih g (Nat.lt_succ_of_lt hg)) (Nat.le_succ _) flat
          (by simp at bound; omega) hcalls
      rw [bind_apply]
      generalize Nested.eval setting f (.call label args) S = res at called
      cases res with
      | ok v S' =>
        obtain ⟨calls, temps, goes, -⟩ := called
        obtain ⟨n, steps⟩ := goes S.temps rfl
        rw [← temps] at steps
        exact ⟨calls, n, steps⟩
      | error halt S' =>
        exact called
    | some t =>
      simp only [Linear.callStmt, Nested.exec] at bound ⊢
      refine .of_tick budget hcalls fun S hcalls => ?_
      cases f with
      | zero => exact .unfinished (.refl _) (by simp at bound; omega)
      | succ f =>
        simp only [Nested.move]
        have called : Returns p setting.maxCallDepth size (f + 3) act callers
            (Linear.callStmt (some t) (.call label args)) (some t) rest S
            (Nested.eval setting f (.call label args) S) :=
          returns_eval program reg (fun g hg => ih g (by omega)) (Nat.le_refl _) flat
            (by simp at bound; omega) hcalls
        rw [bind_apply]
        generalize Nested.eval setting f (.call label args) S = res at called
        cases res with
        | ok v S' =>
          obtain ⟨calls, temps, goes, fails⟩ := called
          simp only [bind_apply, Nested.writeTemp, temps]
          simp only [Temps.receive] at goes fails
          cases ht : S.temps.set t v with
          | ok ts => exact ⟨calls, goes ts ht⟩
          | error fault =>
            have ends := fails fault ht
            rw [← temps]
            exact ends
        | error halt S' =>
          exact called

/-- Calls stand where canonical statements have them. -/
theorem canonical_cases (canonical : stmt.isCanonical = true) :
    (∃ result label args, stmt = Linear.callStmt result (.call label args) ∧
      args.all Expr.isFlat = true) ∨
    ∀ r l args, stmt ≠ Linear.callStmt r (.call l args) := by
  by_cases h : ∃ result label args, stmt = Linear.callStmt result (.call label args)
  · obtain ⟨result, label, args, rfl⟩ := h
    refine .inl ⟨result, label, args, rfl, ?_⟩
    cases result <;>
      simpa [Linear.callStmt, Stmt.isCanonical, Expr.isFlat, Expr.effects, Expr.isFlatCall]
        using canonical
  · exact .inr fun r l args heq => h ⟨r, l, args, heq⟩

theorem Completes.of_steps {n fuel' : Nat} {rest' : List Stmt} {S' : Nested.State}
    {res : EStateM.Result (Halt Fault) Nested.State Nested.Flow}
    (h : Completes p limit size fuel' act callers rest' S' res)
    (steps : StepsIn p n (place act callers rest S) (place act callers rest' S'))
    (calls : S'.calls = S.calls) (spent : fuel ≤ fuel' + 6 * n) :
    Completes p limit size fuel act callers rest S res := by
  have depth : (place act callers rest' S').stack.length ≤
      (place act callers rest S).stack.length + n := Nat.le_add_right _ _
  cases res with
  | ok flow S₂ =>
    cases flow with
    | next =>
      obtain ⟨calls₂, m, more⟩ := h
      exact ⟨calls₂.trans calls, n + m, steps.trans more⟩
    | jump l =>
      exact Ends.of_steps h steps depth spent
  | error halt S₂ =>
    exact Ends.of_steps h steps depth spent

/-- The linear machine keeps up with the evaluator. -/
theorem completesAll (program : setting.program = p.asTree) (budget : setting.budget = none)
    (reg : Regular p size) (fuel : Nat) : CompletesAll setting p size fuel := by
  induction fuel using Nat.strongRecOn with
  | ind fuel ih =>
    intro act callers rest S hchunk hrest hcalls
    cases fuel with
    | zero => exact .unfinished (.refl _) (Nat.zero_le _)
    | succ fuel =>
      cases rest with
      | nil => exact ⟨rfl, 0, .refl _⟩
      | cons stmt rest =>
        have mem : stmt ∈ act.chunk.body := hrest.subset (List.mem_cons_self ..)
        have canonical := List.all_eq_true.1 (reg.canonical _ hchunk) stmt mem
        have small := reg.bound _ hchunk stmt mem
        have first : Executes p setting.maxCallDepth size (fuel + 1) act callers stmt rest S
            (Nested.exec setting fuel stmt S) := by
          rcases canonical_cases canonical with ⟨result, label, args, rfl, flat⟩ | noCall
          · exact executes_call program budget reg (fun g hg => ih g (by omega)) flat small hcalls
          · exact executes_flat budget canonical noCall small fuel hcalls
        simp only [Nested.execFrom]
        rw [bind_apply]
        generalize Nested.exec setting fuel stmt S = res at first
        cases res with
        | ok flow S' =>
          cases flow with
          | next =>
            obtain ⟨calls, n, steps⟩ := first
            have more := ih fuel (Nat.lt_succ_self _) act callers rest S' hchunk
              ((List.suffix_cons _ _).trans hrest) (calls.trans hcalls)
            exact more.of_steps steps calls (by omega)
          | jump l =>
            obtain ⟨calls, found, missing⟩ := first
            dsimp only
            rw [nested_seek_eq (reg.unique _ hchunk)]
            cases hseek : Linear.seek l act.chunk.body with
            | none => exact .at_once (missing hseek) rfl rfl (hcalls.symm.trans calls.symm)
            | some target =>
              have more := ih fuel (Nat.lt_succ_self _) act callers target S' hchunk
                (seek_suffix hseek) (calls.trans hcalls)
              exact more.of_steps (.single (found target hseek)) calls (by omega)
        | error halt S' =>
          exact first

end
end Lockstep
end PinsBackend
