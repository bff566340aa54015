import Mathlib.Algebra.Ring.Int.Defs
import PinsBackend.Proofs.Machine.Commutation
import PinsBackend.Proofs.Machine.Lockstep
import PinsBackend.Proofs.Machine.Memory
import PinsBackend.Proofs.Machine.Regions
import PinsBackend.Proofs.Machine.Visited

/-! The stack of activations of a run.

Each activation record lies right below the record of the caller, the first one at the end of
memory. The registers address the record of the running activation, and each activation gives the
registers back that its caller had. What a step can do to all this is said once, by `Turn`. -/
namespace PinsBackend

open Ir Memory

/-- Bytes that an activation record takes in memory. -/
def Frame.recordBytes (f : Frame) : Int := Word.rounded (max (f.parametersSize + f.localsSize) 0)

/-- The size of the frame and of its record can be represented. -/
def Frame.Sized (f : Frame) : Prop :=
  ∃ size, f.size = .ok size ∧ Word.roundUp (max size 0) = .ok f.recordBytes

theorem Frame.sized_of_roundUp {f : Frame} {size k : Int} (hs : f.size = .ok size)
    (hk : Word.roundUp (max size 0) = .ok k) : k = f.recordBytes ∧ f.Sized := by
  obtain ⟨-, rfl⟩ := Word.add_eq_ok.1 hs
  obtain ⟨-, rfl⟩ := Word.roundUp_eq_ok.1 hk
  exact ⟨rfl, _, hs, hk⟩

theorem Frame.recordBytes_nonneg (f : Frame) : 0 ≤ f.recordBytes := by
  have := (Word.rounded_bounds (max (f.parametersSize + f.localsSize) 0)).1
  simp only [Frame.recordBytes]
  omega

theorem Frame.recordBytes_aligned (f : Frame) : Word.bytes ∣ f.recordBytes :=
  (Word.rounded_bounds _).2.2

/-- Bytes of static data. -/
def Global.totalBytes (globals : List Global) : Int :=
  (globals.map fun g => Word.rounded (max g.size 0)).sum

namespace Linear

variable {globals : List Global}

/-- Where the record of an activation lies. -/
def Activation.record (act : Activation) : Region :=
  ⟨act.saved.sp - act.chunk.frame.recordBytes, act.saved.sp⟩

def Activation.pushed (act : Activation) : Pushed := ⟨act.record, act.saved⟩

/-! ## What a statement does -/

/-- What stays of the activations, however far they have come. -/
def outline (stack : List Activation) : List (Frame × Registers) :=
  stack.map fun act => (act.chunk.frame, act.saved)

/-- The same activations are live, however far they have come, and the registers are the same. -/
structure Same (s s' : State) : Prop where
  outline : outline s'.stack = outline s.stack
  registers : s'.machine.memory.registers = s.machine.memory.registers
  staticTop : s'.machine.memory.staticTop = s.machine.memory.staticTop

theorem Same.refl (s : State) : Same s s := ⟨rfl, rfl, rfl⟩

/-- Why a statement is not executed to its end. -/
inductive Stop (s : State) : Halt Fault → State → Prop
  | overflow {s' : State} (o : Overflow) : Stop s (.overflow o) s'
  | plain {f : Fault} {s' : State} (h : f.isOverflow = false) : Stop s (.fault f) s'
  /-- The record of a callee would reach into static data. -/
  | noRoom {low : Int} {s' : State} (below : low < s.machine.memory.staticTop)
      (memory : s'.machine.memory = s.machine.memory) : Stop s (.fault (.stackOverflow low)) s'

/-- What a statement comes to: the running activation goes on, or calls another one, or stops. None
of this counts statements. -/
inductive Deed (s : State) : EStateM.Result (Halt Fault) State Unit → Prop
  | goes {s' : State} (same : Same s s') (clock : s'.machine.steps = s.machine.steps) :
    Deed s (.ok () s')
  | calls {act : Activation} {args : List Value} {s' : State} (stack : s'.stack = act :: s.stack)
      (enter : Memory.enter act.chunk.frame args s.machine.memory = .ok act.saved s'.machine.memory)
      (clock : s'.machine.steps = s.machine.steps) : Deed s (.ok () s')
  | stops {halt : Halt Fault} {s' : State} (why : Stop s halt s')
      (clock : s'.machine.steps = s.machine.steps) : Deed s (.error halt s')

variable {p : LinearProgram} {s s' : State} {label : String} {budget : Option Nat}

theorem assign_cases (t : Temp) (v : Value) (s : State) :
    (∃ s', assign t v s = .ok () s' ∧ Same s s' ∧ s'.machine = s.machine) ∨
      assign t v s = .error (.fault (.malformed .framePointerWritten)) s := by
  obtain ⟨machine, stack⟩ := s
  cases stack with
  | nil => exact .inl ⟨_, rfl, .refl _, rfl⟩
  | cons act callers =>
    simp only [assign]
    cases set : act.temps.set t v with
    | ok temps => exact .inl ⟨_, rfl, ⟨rfl, rfl, rfl⟩, rfl⟩
    | error f =>
      rw [Temps.set_eq_error set]
      exact .inr rfl

theorem assign_deed (t : Temp) (v : Value) (s : State) : Deed s (assign t v s) := by
  rcases assign_cases t v s with ⟨s', eq, same, machine⟩ | eq
  · rw [eq]
    exact .goes same (by rw [machine])
  · rw [eq]
    exact .stops (.plain rfl) rfl

theorem goto_deed (label : String) (s : State) : Deed s (goto label s) := by
  obtain ⟨machine, stack⟩ := s
  cases stack with
  | nil => exact .goes (.refl _) rfl
  | cons act callers =>
    simp only [goto]
    cases seek label act.chunk.body with
    | some rest => exact .goes ⟨rfl, rfl, rfl⟩ rfl
    | none => exact .stops (.plain rfl) rfl

theorem store_deed (a : Int) (v : Value) (s : State) :
    Deed s (onMachine (Machine.onMemory (Memory.store a v)) s) := by
  simp only [onMachine, Machine.onMemory]
  cases stored : Memory.store a v s.machine.memory with
  | ok _ m =>
    obtain ⟨i, -, rfl⟩ := store_eq_ok stored
    exact .goes ⟨rfl, rfl, rfl⟩ rfl
  | error halt m =>
    obtain ⟨rfl, -⟩ := store_eq_error stored
    exact .stops (.plain rfl) rfl

/-- A call opens the record of a chunk, or a built-in runs in place. -/
theorem call_deed {args : List Value} {result : Option Temp}
    {res : EStateM.Result (Halt Fault) State Unit} (h : call p label args result s = res) :
    Deed s res := by
  subst h
  obtain ⟨⟨m, host, steps⟩, stack⟩ := s
  unfold call
  cases hc : p.chunk? label with
  | some c =>
    dsimp only
    cases c.frame.argumentWords with
    | error o => exact .stops (.overflow o) rfl
    | ok expected =>
      dsimp only
      split
      · simp only [enter, Machine.onMemory]
        cases entered : Memory.enter c.frame args m with
        | ok saved m' => exact .calls rfl entered rfl
        | error halt m' =>
          rcases enter_eq_error entered with ⟨o, rfl⟩ | ⟨a, rfl⟩ | ⟨low, below, rfl, rfl⟩
          · exact .stops (.overflow o) rfl
          · exact .stops (.plain rfl) rfl
          · exact .stops (.noRoom below rfl) rfl
      · exact .stops (.plain rfl) rfl
  | none =>
    simp only [bind_apply, onMachine, Machine.callBuiltin_apply]
    cases hb : Builtin.ofLabel? label with
    | none => exact .stops (.plain rfl) rfl
    | some b =>
      dsimp only
      cases ran : Host.call b (args.drop 1) host with
      | error f host' =>
        refine .stops (.plain ?_) rfl
        cases f with
        | stackOverflow low => cases Host.call_eq_error ran
        | _ => rfl
      | ok v host' =>
        cases result with
        | none => exact .goes ⟨rfl, rfl, rfl⟩ rfl
        | some t =>
          rcases assign_cases t v ⟨⟨m, host', steps⟩, stack⟩ with ⟨s', eq, same, machine⟩ | eq
          · simp only [eq]
            exact .goes ⟨same.outline, same.registers, same.staticTop⟩ (by rw [machine])
          · simp only [eq]
            exact .stops (.plain rfl) rfl

/-- A store evaluates the address and the word, and writes the word there. -/
theorem storeAt_eq_ok {ts : Temps} {address src : Expr}
    (h : onMachine (storeAt ts address src) s = .ok () s') :
    ∃ n v m, eval s.machine.memory ts address = .ok (.int n) ∧
      eval s.machine.memory ts src = .ok v ∧
      Memory.store n.toInt v s.machine.memory = .ok () m ∧
      s' = ⟨{ s.machine with memory := m }, s.stack⟩ := by
  obtain ⟨⟨m, host, steps⟩, stack⟩ := s
  simp only [onMachine, storeAt] at h
  split at h
  · next hs =>
    split at hs
    · next operands =>
      simp only [except_bind_eq_ok] at operands
      obtain ⟨w, hw, n, hn, v, hv, pair⟩ := operands
      cases pair
      cases w with
      | str => cases hn
      | int =>
        cases hn
        simp only [Machine.onMemory] at hs
        split at hs
        · next hm =>
          cases hs
          cases h
          exact ⟨_, _, _, hw, hv, hm, rfl⟩
        · cases hs
    · cases hs
  · cases h

/-- A store writes a word, or an operand faults. -/
theorem storeAt_cases (ts : Temps) (address src : Expr) (machine : Machine) :
    (∃ a v, storeAt ts address src machine = Machine.onMemory (Memory.store a v) machine) ∨
      ∃ f, f.isOverflow = false ∧
        storeAt ts address src machine = .error (.fault f) machine := by
  unfold storeAt
  dsimp only
  split
  · next a v _ => exact .inl ⟨a, v, rfl⟩
  · next f stopped =>
    refine .inr ⟨f, ?_, rfl⟩
    simp only [except_bind_eq_error] at stopped
    rcases stopped with stopped | ⟨a, -, stopped | ⟨n, -, stopped | ⟨v, -, stopped⟩⟩⟩
    · exact eval_not_overflow stopped
    · exact Fault.isOverflow_of_isSilent (asInt_eq_error stopped)
    · exact eval_not_overflow stopped
    · cases stopped

theorem execute_deed (p : LinearProgram) (ts : Temps) (stmt : Stmt) (s : State) :
    Deed s (execute p ts stmt s) := by
  have faults {f : Fault} (h : f.isOverflow = false) : Deed s (.error (.fault f) s) :=
    .stops (.plain h) rfl
  have called (result : Option Temp) (label : String) (args : List Expr) :
      Deed s (execute p ts (callStmt result (.call label args)) s) := by
    rw [execute_call]
    cases hv : evalAll s.machine.memory ts args with
    | ok vs => exact call_deed rfl
    | error f => exact faults (evalAll_not_overflow hv)
  cases stmt with
  | move dst src =>
    cases dst with
    | temp t =>
      by_cases call : ∃ label args, src = .call label args
      · obtain ⟨label, args, rfl⟩ := call
        exact called (some t) label args
      · rw [execute_move_temp fun l args h => call ⟨l, args, h⟩]
        cases hv : eval s.machine.memory ts src with
        | ok v => exact assign_deed t v s
        | error f => exact faults (eval_not_overflow hv)
    | mem a =>
      have eq : execute p ts (.move (.mem a) src) s = onMachine (storeAt ts a src) s := rfl
      rcases storeAt_cases ts a src s.machine with ⟨n, v, h⟩ | ⟨f, plain, h⟩
      · rw [eq, onMachine, h]
        exact store_deed n v s
      · rw [eq, onMachine, h]
        exact faults plain
    | _ => exact faults rfl
  | eval e =>
    by_cases call : ∃ label args, e = .call label args
    · obtain ⟨label, args, rfl⟩ := call
      exact called none label args
    · rw [execute_eval fun l args h => call ⟨l, args, h⟩]
      cases hv : eval s.machine.memory ts e with
      | ok v => exact .goes (.refl _) rfl
      | error f => exact faults (eval_not_overflow hv)
  | jump l => exact goto_deed l s
  | cjump c l k =>
    rw [execute_cjump]
    cases hv : eval s.machine.memory ts c with
    | error f => exact faults (eval_not_overflow hv)
    | ok v =>
      simp only [Except.bind]
      cases hb : v.isTruthy with
      | error f => exact faults (Fault.isOverflow_of_isSilent (isTruthy_eq_error hb))
      | ok b => exact goto_deed _ s
  | label l => exact .goes (.refl _) rfl
  | seq ss => exact faults rfl

/-! ## What a step does -/

/-- The running activation has a statement to execute next. In the second state the statement is
counted and taken off. -/
def State.Next (s s₁ : State) : Prop :=
  ∃ act callers stmt rest, s.stack = act :: callers ∧ act.rest = stmt :: rest ∧
    s₁ = ⟨{ s.machine with steps := s.machine.steps + 1 }, { act with rest } :: callers⟩

theorem State.Next.same {s₁ : State} (h : s.Next s₁) : Same s s₁ := by
  obtain ⟨act, callers, stmt, rest, stack, code, rfl⟩ := h
  refine ⟨?_, rfl, rfl⟩
  rw [stack]
  rfl

/-- What a step can do: it executes a statement, or gives the running activation up. Only the
outermost one gives a result. -/
inductive Turn (budget : Option Nat) (s : State) :
    EStateM.Result (Halt Fault) State (Option Value) → Prop
  | executes {s₁ s' : State} (next : s.Next s₁) (deed : Deed s₁ (.ok () s')) :
    Turn budget s (.ok none s')
  | stops {s₁ s' : State} {halt : Halt Fault} (next : s.Next s₁) (deed : Deed s₁ (.error halt s')) :
    Turn budget s (.error halt s')
  | timeout {s₁ : State} {limit : Nat} (next : s.Next s₁) (limited : budget = some limit) :
    Turn budget s (.error (.fault (.timeout limit)) s₁)
  | leaves {act caller : Activation} {callers : List Activation} {s' : State}
      (stack : s.stack = act :: caller :: callers) (idle : act.rest = [])
      (same : Same ⟨{ s.machine with memory := s.machine.memory.restore act.saved }, caller ::
        callers⟩ s')
      (machine : s'.machine = { s.machine with memory := s.machine.memory.restore act.saved }) :
      Turn budget s (.ok none s')
  | returns {act : Activation} {v : Value} {s' : State} (stack : s.stack = [act])
      (idle : act.rest = [])
      (eq : s' = ⟨{ s.machine with memory := s.machine.memory.restore act.saved }, []⟩) :
      Turn budget s (.ok (some v) s')
  /-- Nobody takes the result. -/
  | refuses {m : Malformation} {s' : State} (idle : ∀ act callers, s.stack = act :: callers →
      act.rest = [])
      (clock : s'.machine.steps = s.machine.steps) : Turn budget s
        (.error (.fault (.malformed m)) s')

theorem step_turn {res : EStateM.Result (Halt Fault) State (Option Value)}
    (h : step p budget s = res) :
    Turn budget s res := by
  subst h
  obtain ⟨machine, stack⟩ := s
  cases stack with
  | nil => exact .refuses nofun rfl
  | cons act callers =>
    cases hrest : act.rest with
    | cons stmt rest =>
      have next : State.Next ⟨machine, act :: callers⟩
          ⟨{ machine with steps := machine.steps + 1 }, { act with rest } :: callers⟩ :=
        ⟨act, callers, stmt, rest, rfl, hrest, rfl⟩
      simp only [step, hrest, bind_apply, onMachine]
      rcases Machine.tick_cases budget machine with ticked | ⟨limit, limited, ticked⟩
      · rw [ticked]
        dsimp only
        have deed := execute_deed p act.temps stmt
          ⟨{ machine with steps := machine.steps + 1 }, { act with rest } :: callers⟩
        generalize execute p act.temps stmt _ = res at deed
        cases res with
        | ok _ s' => exact .executes next deed
        | error halt s' => exact .stops next deed
      · rw [ticked]
        exact .timeout next limited
    | nil =>
      simp only [step, hrest, leave]
      cases callers with
      | nil => exact .returns rfl hrest rfl
      | cons caller callers =>
        cases act.result with
        | none => exact .leaves rfl hrest (.refl _) rfl
        | some t =>
          dsimp only
          rcases assign_cases t (act.temps.get machine.memory Temp.rv)
            ⟨⟨machine.memory.restore act.saved, machine.host, machine.steps⟩, caller ::
              callers⟩ with
            ⟨s', eq, same, kept⟩ | eq
          · rw [eq]
            exact .leaves rfl hrest same kept
          · rw [eq]
            refine .refuses ?_ rfl
            rintro act' callers' ⟨⟩
            exact hrest

/-- An activation that is live before and after a step keeps its frame and the registers that it
saved, and so do the older ones. -/
theorem Turn.older {r : Option Value} (h : Turn budget s (.ok r s'))
    {younger older younger' older' : List Activation}
    {act act' : Activation} (split : s.stack = younger ++ act :: older)
    (split' : s'.stack = younger' ++ act' :: older') (length : older'.length = older.length) :
    outline (act' :: older') = outline (act :: older) := by
  have here : outline (act :: older) <:+ outline s.stack :=
    ⟨outline younger, by rw [split, outline, outline, outline, List.map_append]⟩
  have there : outline (act' :: older') <:+ outline s'.stack :=
    ⟨outline younger', by rw [split', outline, outline, outline, List.map_append]⟩
  have same : (outline (act' :: older')).length = (outline (act :: older)).length := by
    simp [outline, length]
  -- one of the two stacks ends with the other
  have ends : outline s.stack <:+ outline s'.stack ∨ outline s'.stack <:+ outline s.stack := by
    cases h with
    | executes next deed =>
      rw [← next.same.outline]
      apply Or.inl
      cases deed with
      | goes same _ => exact ⟨[], same.outline.symm⟩
      | @calls callee _ _ stack =>
        rw [stack]
        exact List.suffix_cons _ _
    | @leaves callee _ _ _ stack _ same =>
      apply Or.inr
      rw [stack, same.outline]
      exact List.suffix_cons _ _
    | returns stack _ eq =>
      rw [eq]
      exact .inr (List.nil_suffix)
  rcases ends with ends | ends
  · exact (List.suffix_of_suffix_length_le there (here.trans ends)
      (Nat.le_of_eq same)).eq_of_length same
  · exact (List.suffix_of_suffix_length_le (there.trans ends) here
      (Nat.le_of_eq same)).eq_of_length same

/-! ## Records lie below each other -/

/-- The records of the live activations lie below each other from `top` down to the registers, above
static data. -/
structure InOrder (top static : Int) (s : State) : Prop where
  piled : Piled top (s.stack.map Activation.pushed) s.machine.memory.registers
  sized : ∀ f ∈ s.stack.map (fun act => act.chunk.frame), f.Sized
  aligned : Word.bytes ∣ s.machine.memory.sp
  staticTop : s.machine.memory.staticTop = static
  room : static ≤ s.machine.memory.sp

namespace InOrder

variable {act : Activation}

variable {top static : Int}

theorem of_same (h : InOrder top static s) (same : Same s s') : InOrder top static s' := by
  have sp : s'.machine.memory.sp = s.machine.memory.sp := congrArg Registers.sp same.registers
  have pushed : s'.stack.map Activation.pushed = s.stack.map Activation.pushed := by
    have := congrArg (List.map fun x : Frame × Registers =>
      (⟨⟨x.2.sp - x.1.recordBytes, x.2.sp⟩, x.2⟩ : Pushed)) same.outline
    rwa [outline, outline, List.map_map, List.map_map] at this
  have frames : s'.stack.map (fun act => act.chunk.frame) = s.stack.map fun act =>
      act.chunk.frame := by
    have := congrArg (List.map Prod.fst) same.outline
    rwa [outline, outline, List.map_map, List.map_map] at this
  exact ⟨pushed ▸ same.registers ▸ h.piled, frames ▸ h.sized, sp ▸ h.aligned,
    same.staticTop.trans h.staticTop,
    sp ▸ h.room⟩

theorem opens (h : InOrder top static s) {args : List Value} (stack : s'.stack = act :: s.stack)
    (enter : Memory.enter act.chunk.frame args s.machine.memory = .ok act.saved s'.machine.memory) :
    InOrder top static s' := by
  obtain ⟨size, k, words, hs, hk, room, saved, memory⟩ := enter_eq_ok enter
  obtain ⟨rfl, sized⟩ := Frame.sized_of_roundUp hs hk
  have nonneg := act.chunk.frame.recordBytes_nonneg
  have aligned : Word.bytes ∣ act.saved.sp := saved ▸ h.aligned
  have piled : Piled top (s.stack.map Activation.pushed) act.saved := saved ▸ h.piled
  refine ⟨?_, ?_, ?_, memory ▸ h.staticTop, ?_⟩
  · rw [stack, List.map_cons, memory]
    refine ⟨?_, ?_, rfl, aligned, piled⟩
    · simp [Activation.pushed, Activation.record, saved, Memory.registers]
    · simp only [Activation.pushed, Activation.record]
      omega
  · rw [stack]
    exact List.forall_mem_cons.2 ⟨sized, h.sized⟩
  · rw [memory]
    exact Int.dvd_sub h.aligned act.chunk.frame.recordBytes_aligned
  · rw [memory, ← h.staticTop]
    exact room

theorem gives_up (h : InOrder top static s) {callers : List Activation}
    (stack : s.stack = act :: callers) :
    InOrder top static ⟨{ s.machine with memory := s.machine.memory.restore act.saved },
      callers⟩ := by
  obtain ⟨current, -, -, aligned, rest⟩ := stack ▸ h.piled
  have sized := stack ▸ h.sized
  have sp : s.machine.memory.sp = act.saved.sp - act.chunk.frame.recordBytes :=
    congrArg Registers.sp current
  have nonneg := act.chunk.frame.recordBytes_nonneg
  have room := h.room
  refine ⟨rest, (List.forall_mem_cons.1 sized).2, aligned, h.staticTop, ?_⟩
  simp only [Memory.restore]
  omega

theorem deed (h : InOrder top static s) (deed : Deed s (.ok () s')) :
    InOrder top static s' := by
  cases deed with
  | goes same _ => exact h.of_same same
  | calls stack enter _ => exact h.opens stack enter

theorem turn (h : InOrder top static s) {r : Option Value} (turn : Turn budget s (.ok r s')) :
    InOrder top static s' := by
  cases turn with
  | executes next deed => exact (h.of_same next.same).deed deed
  | leaves stack _ same _ => exact (h.gives_up stack).of_same same
  | returns stack _ eq => exact eq ▸ h.gives_up stack

/-- Between calls from outside both registers are where they started. -/
theorem registers_of_nil (h : InOrder top static s) (stack : s.stack = []) :
    s.machine.memory.registers = ⟨top, top⟩ := by
  have piled := h.piled
  rwa [stack] at piled

end InOrder

/-! ## Runs -/

theorem Same.live (h : Same s s') (live : s.stack ≠ []) : s'.stack ≠ [] := by
  have outline := h.outline
  intro none
  rw [none] at outline
  exact live (List.map_eq_nil_iff.1 outline.symm)

theorem Turn.live (h : Turn budget s (.ok none s')) (live : s.stack ≠ []) : s'.stack ≠ [] := by
  cases h with
  | executes next deed =>
    cases deed with
    | goes same _ => exact same.live (next.same.live live)
    | calls stack _ _ => simp [stack]
  | leaves stack _ same _ => exact same.live (by simp)

theorem Starts.live {machine : Machine} (h : Starts p label machine s) : s.stack ≠ [] := by
  obtain ⟨c, args, hc, -, called⟩ := h
  exact (call_outside hc called).2

section

variable {top static : Int} {budget : Option Nat} {label : String} {machine : Machine}

theorem passes_inOrder (start : InOrder top static ⟨machine, []⟩)
    (h : Passes p budget label machine s) :
    InOrder top static s ∧ s.stack ≠ [] := by
  induction h with
  | start h =>
    obtain ⟨c, args, hc, hargs, called⟩ := id h
    exact ⟨start.deed (call_deed called), h.live⟩
  | next _ step ih => exact ⟨ih.1.turn (step_turn step), (step_turn step).live ih.2⟩

theorem loop_inOrder {fuel : Nat} {v : Value} (h : InOrder top static s)
    (loops : loop p budget fuel s = .ok v s') :
    InOrder top static s' ∧ s'.stack = [] := by
  induction fuel generalizing s with
  | zero => cases loops
  | succ fuel ih =>
    simp only [loop, bind_eq_ok] at loops
    obtain ⟨r, s₁, stepped, loops⟩ := loops
    have inOrder := h.turn (step_turn stepped)
    cases step_turn stepped with
    | returns _ _ eq =>
      obtain ⟨-, rfl⟩ := pure_eq_ok.1 loops
      exact ⟨inOrder, eq ▸ rfl⟩
    | executes | leaves => exact ih inOrder loops

theorem invoke_inOrder {fuel : Nat} {v : Value} {last : Machine}
    (h : InOrder top static ⟨machine, []⟩)
    (invoked : invoke p budget fuel label machine = .ok v last) :
    InOrder top static ⟨last, []⟩ := by
  unfold invoke at invoked
  split at invoked
  · cases invoked
  · split at invoked
    · cases invoked
    · dsimp only at invoked
      split at invoked
      · next body =>
        cases invoked
        obtain ⟨_, s₁, called, loops⟩ := bind_eq_ok.1 body
        obtain ⟨inOrder, stack⟩ := loop_inOrder (h.deed (call_deed called)) loops
        exact ⟨stack ▸ inOrder.piled, by simp, inOrder.aligned, inOrder.staticTop, inOrder.room⟩
      · cases invoked

end

/-- Static data takes the bytes of all globals, below an empty stack. -/
theorem allocateGlobals_eq_ok {m m' : Memory} (h : allocateGlobals globals m = .ok () m')
    (room : m.staticTop ≤ m.sp) :
    m'.registers = m.registers ∧ m'.staticTop = m.staticTop + Global.totalBytes globals ∧
      m'.staticTop ≤ m'.sp := by
  induction globals generalizing m with
  | nil =>
    obtain ⟨-, rfl⟩ := pure_eq_ok.1 h
    exact ⟨rfl, (Int.add_zero _).symm, room⟩
  | cons g gs ih =>
    simp only [allocateGlobals, bind_eq_ok] at h
    obtain ⟨a, m₁, first, rest⟩ := h
    obtain ⟨k, rounded, fits, -, rfl⟩ := allocateStatic_eq_ok first
    obtain ⟨-, rfl⟩ := Word.roundUp_eq_ok.1 rounded
    obtain ⟨registers, staticTop, above⟩ := ih rest fits
    refine ⟨registers, ?_, above⟩
    rw [staticTop, Global.totalBytes, Global.totalBytes, List.map_cons, List.sum_cons,
      Int.add_assoc]

/-- A run starts with an empty stack above static data. -/
theorem allocated_inOrder {words : Nat} {sink : Sink} {allocated : Machine}
    (h : Machine.onMemory (allocateGlobals globals) (Machine.create words sink) =
      .ok () allocated) :
    InOrder (words * Word.bytes) (Global.totalBytes globals) ⟨allocated, []⟩ := by
  simp only [Machine.create, Machine.onMemory] at h
  split at h
  · next ok =>
    cases h
    have nonneg : 0 ≤ words * Word.bytes := Int.mul_nonneg (Int.natCast_nonneg _) (by decide)
    obtain ⟨registers, staticTop, above⟩ := allocateGlobals_eq_ok ok nonneg
    have sp := congrArg Registers.sp registers
    simp only [ofCapacity, Int.zero_add] at staticTop
    exact ⟨registers, by simp, ⟨words, sp.trans (Int.mul_comm ..)⟩, staticTop, staticTop ▸ above⟩
  · cases h

/-- The discipline of the stack: each activation gives the registers back that its caller had, and
nothing lies between two records. -/
structure Disciplined (words : Nat) (static : Int) (s : State) : Prop where
  live : s.stack ≠ []
  sized : ∀ act ∈ s.stack, act.chunk.frame.Sized
  outermost : ∀ callees act, s.stack = callees ++ [act] →
    act.saved = ⟨words * Word.bytes, words * Word.bytes⟩
  caller : ∀ callees act caller callers, s.stack = callees ++ act :: caller :: callers →
    act.saved =
      ⟨caller.saved.sp - caller.chunk.frame.recordBytes,
      caller.saved.sp - caller.chunk.frame.recordBytes⟩
  running : ∀ act callers, s.stack = act :: callers →
    s.machine.memory.registers =
      ⟨act.saved.sp - act.chunk.frame.recordBytes, act.saved.sp - act.chunk.frame.recordBytes⟩
  staticTop : s.machine.memory.staticTop = static
  room : static ≤ s.machine.memory.sp
  apart : (s.stack.map Activation.record).Pairwise Region.Apart
  inside : ∀ act ∈ s.stack, act.record.Inside static (words * Word.bytes)

theorem InOrder.disciplined {words : Nat} {static : Int} (h : InOrder (words * Word.bytes) static s)
    (live : s.stack ≠ []) : Disciplined words static s where
  live := live
  sized act mem := h.sized _ (List.mem_map_of_mem mem)
  outermost callees act stack := by
    have piled := h.piled
    rw [stack, List.map_append] at piled
    exact piled.below
  caller callees act caller callers stack := by
    have piled := h.piled
    rw [stack, List.map_append] at piled
    exact piled.below.1
  running act callers stack := by
    have piled := h.piled
    rw [stack] at piled
    exact piled.1
  staticTop := h.staticTop
  room := h.room
  apart := by
    have apart := h.piled.apart
    rwa [List.map_map] at apart
  inside act mem := (h.piled.inside _ (List.mem_map_of_mem mem)).mono h.room (Int.le_refl _)

/-- **The discipline of the stack.** In every state of a run the live activations lie below each
other from the end of memory down to the registers, each right below its caller and all above static
data, and each keeps the registers of its caller. A run that ends well has an empty stack and all
static data of the program. -/
theorem stack_discipline (p : LinearProgram) (budget : Option Nat) (words : Nat) (sink : Sink) :
    (∀ s, Visits p budget (Machine.create words sink) s →
      Disciplined words (Global.totalBytes p.globals) s) ∧
    ∀ fuel outcome last, run p budget fuel (Machine.create words sink) = .ok outcome last →
      last.memory.fp = words * Word.bytes ∧ last.memory.sp = words * Word.bytes ∧
        last.memory.staticTop = Global.totalBytes p.globals := by
  refine ⟨fun s visits => ?_, fun fuel outcome last ran => ?_⟩
  · cases visits with
    | init static passes =>
      obtain ⟨inOrder, live⟩ := passes_inOrder (allocated_inOrder static) passes
      exact inOrder.disciplined live
    | entry static before returns passes =>
      obtain ⟨inOrder, -⟩ := passes_inOrder (allocated_inOrder static) before
      have turn := step_turn returns
      have returned := inOrder.turn turn
      cases turn with
      | returns _ _ eq =>
        subst eq
        obtain ⟨inOrder, live⟩ := passes_inOrder returned passes
        exact inOrder.disciplined live
  · obtain ⟨_, allocated, static, ran⟩ := bind_eq_ok.1 ran
    obtain ⟨_, initialised, init, ran⟩ := bind_eq_ok.1 ran
    obtain ⟨_, finished, entry, ran⟩ := bind_eq_ok.1 ran
    obtain ⟨_, _, ⟨⟩, ⟨⟩⟩ := bind_eq_ok.1 ran
    split at static
    · next ok =>
      cases static
      have inOrder := invoke_inOrder (invoke_inOrder (allocated_inOrder ok) init) entry
      have registers := inOrder.registers_of_nil rfl
      exact ⟨congrArg Registers.fp registers, congrArg Registers.sp registers, inOrder.staticTop⟩
    · cases static

/-- A program with a global and a local of no whole number of words. -/
def unevenSizes : LinearProgram where
  init := { frame := .initial, body := [.eval (.call "leaf" [.const (.int 0)])] }
  globals := [⟨"g", 12⟩]
  entry := "leaf"
  chunks :=
    [{ frame :=
        { label := "leaf", depth := 1, parameterCount := 0, parametersSize := 8, localsSize := 5 }
       body := [] }]

theorem stack_discipline_unevenSizes :
    (∃ s, Visits unevenSizes none (Machine.create 16 {}) s ∧ Disciplined 16 16 s ∧
      s.stack.map Activation.record = [⟨104, 120⟩, ⟨120, 128⟩]) ∧
    ∃ outcome last, run unevenSizes none 4 (Machine.create 16 {}) = .ok outcome last ∧
      last.memory.sp = 128 ∧ last.memory.staticTop = 16 := by
  obtain ⟨visited, ended⟩ := stack_discipline unevenSizes none 16 {}
  have allocates : value?
      (Machine.onMemory (allocateGlobals unevenSizes.globals) (Machine.create 16 {})) =
      some () := by
    decide +kernel
  have traced : ∃ s ∈ (begun? unevenSizes Frame.initLabel
        (left (Machine.onMemory (allocateGlobals unevenSizes.globals) (Machine.create 16 {})))).bind
          (later? unevenSizes none 1),
      s.stack.map Activation.record = [⟨104, 120⟩, ⟨120, 128⟩] := by decide +kernel
  have finished : (value? (run unevenSizes none 4 (Machine.create 16 {}))).isSome := by
    decide +kernel
  refine ⟨?_, ?_⟩
  · obtain ⟨m, static⟩ := value?_eq_some allocates
    rw [static, left] at traced
    obtain ⟨s, found, records⟩ := traced
    obtain ⟨first, begun, later⟩ := Option.bind_eq_some_iff.1 found
    have visits := Visits.init static (passes_of_later? (.start (starts_of_begun? begun)) later)
    exact ⟨s, visits, visited s visits, records⟩
  · obtain ⟨outcome, some⟩ := Option.isSome_iff_exists.1 finished
    obtain ⟨last, ran⟩ := value?_eq_some some
    obtain ⟨-, sp, staticTop⟩ := ended 4 outcome last ran
    exact ⟨outcome, last, ran, sp, staticTop⟩

end Linear
end PinsBackend
