import PinsBackend.Proofs.Machine.Footprint

/-! What code refers to, and faults where it is missing.

Code names functions and static data, and temporaries that it writes; the frame pointer is none that
may be written. All else that an evaluation does needs nothing of the kind: it may stop, but not
because something is missing. -/
namespace PinsBackend

open Ir

variable {f : Fault} {missing : Fault → Prop}

/-- Faults at a label or a function that is missing, and those of code that is out of place. -/
def Fault.isMissing : Fault → Bool
  | .undefinedLabel _ | .unknownFunction _ => true
  | f => f.isForeign

def Fault.isUndefinedLabel : Fault → Bool
  | .undefinedLabel _ => true
  | _ => false

/-- The fault is at nothing but what may be missing. That is no label. -/
def Fault.MissesOnly (missing : Fault → Prop) (f : Fault) : Prop :=
  f.isMissing = true → f.isUndefinedLabel = false ∧ missing f

theorem Fault.missesOnly (h : f.isMissing = false) : f.MissesOnly missing := by
  intro misses
  rw [h] at misses
  cases misses

theorem Fault.MissesOnly.ne_undefinedLabel (h : f.MissesOnly missing) (l : String) :
    f ≠ .undefinedLabel l := by
  rintro rfl
  cases (h rfl).1

theorem Fault.MissesOnly.isForeign (h : f.MissesOnly fun f => f.isForeign = false) :
    f.isForeign = false := by
  cases f with
  | malformed m =>
    cases foreign : (malformed m).isForeign with
    | true => exact foreign ▸ (h foreign).2
    | false => rfl
  | _ => rfl

theorem Fault.isMissing_of_isSilent (h : f.isSilent = true) : f.isMissing = false := by
  unfold isSilent at h
  split at h <;> first | rfl | cases h

theorem Fault.isMissing_of_host (h : Host.isHostFault f = true) : f.isMissing = false := by
  cases f with
  | malformed m => simpa [Host.isHostFault, isMissing] using h
  | output => rfl
  | _ => cases h

theorem Fault.isMissing_of_memory (h : (Halt.fault f).OfMemory) : f.isMissing = false := by
  cases f with
  | invalidAddress | stackOverflow | outOfMemory => rfl
  | _ => exact h.elim

/-! ## Needs -/

namespace Ir

/-- A fault if the destination may not be written. -/
def Expr.target : Expr → List Fault
  | .temp t => if t = Temp.fp then [.malformed .framePointerWritten] else []
  | .eseq _ e => e.target
  | _ => []

mutual

/-- The faults that code meets if what it refers to is missing. -/
def Expr.needs : Expr → List Fault
  | .const _ | .temp _ => []
  | .data l => [.malformed (.unknownData l)]
  | .mem a => a.needs
  | .binop _ l r => l.needs ++ r.needs
  | .call label args => Expr.needsList args ++ [.unknownFunction label]
  | .eseq s e => s.needs ++ e.needs
  | .checkIndex i _ => i.needs

def Expr.needsList : List Expr → List Fault
  | [] => []
  | e :: es => e.needs ++ Expr.needsList es

def Stmt.needs : Stmt → List Fault
  | .move dst src => dst.target ++ dst.needs ++ src.needs
  | .eval e => e.needs
  | .cjump c _ _ => c.needs
  | .jump _ | .label _ => []
  | .seq ss => Stmt.needsList ss

def Stmt.needsList : List Stmt → List Fault
  | [] => []
  | s :: ss => s.needs ++ Stmt.needsList ss

end

theorem Stmt.needsList_eq (ss : List Stmt) : Stmt.needsList ss = ss.flatMap Stmt.needs := by
  induction ss with
  | nil => rfl
  | cons s ss ih => simp [Stmt.needsList, ih]

theorem Stmt.flattenList_needs (ss : List Stmt) :
    (flattenList ss).flatMap Stmt.needs = needsList ss := by
  rw [needsList_eq, flatMap_flattenList fun ss => by rw [needs, needsList_eq]]

namespace Program

variable {Body : Type} {p : Program Body}

/-- What the fault would be at is there. -/
def Has (p : Program Body) : Fault → Prop
  | .unknownFunction l => (p.chunk? l).isSome = true ∨ (Builtin.ofLabel? l).isSome = true
  | .malformed (.unknownData l) => l ∈ p.globals.map Global.label
  | _ => False

theorem Has.congr {Body' : Type} {q : Program Body'} (h : p.Has f) (globals : q.globals = p.globals)
    (chunks : ∀ l, (q.chunk? l).isSome = (p.chunk? l).isSome) : q.Has f := by
  unfold Has at h ⊢
  simpa only [globals, chunks] using h

/-- All that code needs is there, or it may be missing. -/
def Meets (p : Program Body) (missing : Fault → Prop) (needs : List Fault) : Prop :=
  ∀ f ∈ needs, p.Has f ∨ missing f

@[simp] theorem meets_append {fs fs' : List Fault} :
    p.Meets missing (fs ++ fs') ↔ p.Meets missing fs ∧ p.Meets missing fs' :=
  List.forall_mem_append

@[simp] theorem meets_singleton : p.Meets missing [f] ↔ p.Has f ∨ missing f :=
  List.forall_mem_singleton

end Program
end Ir

namespace Memory

variable {m m' : Memory} {globals : List Global}

/-- Static data has its place. -/
def Holds (m : Memory) (globals : List Global) : Prop :=
  ∀ g ∈ globals, g.label ∈ m.labels.map Prod.fst

theorem Holds.of_labels (h : m.Holds globals) (labels : m'.labels = m.labels) :
    m'.Holds globals := by
  unfold Holds at h ⊢
  rwa [labels]

/-- Allocation gives all static data its place, and what has one keeps it. -/
theorem allocateGlobals_holds (h : allocateGlobals globals m = .ok () m') :
    m.labels.map Prod.fst ⊆ m'.labels.map Prod.fst ∧ m'.Holds globals := by
  induction globals generalizing m with
  | nil =>
    obtain ⟨-, rfl⟩ := pure_eq_ok.1 h
    exact ⟨List.Subset.refl _, nofun⟩
  | cons g gs ih =>
    simp only [allocateGlobals, bind_eq_ok] at h
    obtain ⟨a, m₁, first, rest⟩ := h
    obtain ⟨k, -, -, -, rfl⟩ := allocateStatic_eq_ok first
    obtain ⟨kept, holds⟩ := ih rest
    refine ⟨fun l hl => kept ?_, List.forall_mem_cons.2 ⟨kept (by simp), holds⟩⟩
    obtain ⟨place, mem, rfl⟩ := List.mem_map.1 hl
    by_cases own : place.1 = g.label
    · simp [own]
    · exact List.mem_map_of_mem (List.mem_cons_of_mem _ (List.mem_filter.2 ⟨mem, by simpa⟩))

end Memory

/-! ## Evaluation -/

namespace Nested

variable {α β : Type} {setting : Setting} {S : State} {post post₁ : α → Prop} {x : EvalM α}

/-- Static data has its place in memory. -/
def Setting.Stocked (setting : Setting) (S : State) : Prop :=
  S.machine.memory.Holds setting.program.globals

/-- The computation gives such a result and leaves static data in its place, or it stops, but not
because something is missing that may not be. -/
def Finds (setting : Setting) (missing : Fault → Prop) (post : α → Prop) :
    EStateM.Result (Halt Fault) State α → Prop
  | .ok a S => post a ∧ setting.Stocked S
  | .error (.fault f) _ => f.MissesOnly missing
  | .error _ _ => True

/-- The computation never stops because something is missing, and leaves static data where it is. -/
structure Nameless (x : EvalM α) : Prop extends Respects Restored x where
  fault : ∀ {S f S'}, x S = .error (.fault f) S' → f.isMissing = false

theorem Finds.bind {post' : β → Prop} {f : α → EvalM β} (hx : Finds setting missing post (x S))
    (hf : ∀ a S', post a → setting.Stocked S' → Finds setting missing post' (f a S')) :
    Finds setting missing post' ((x >>= f) S) := by
  rw [bind_apply]
  generalize x S = res at hx
  cases res with
  | ok a S' => exact hf a S' hx.1 hx.2
  | error halt S' => cases halt <;> exact hx

theorem Finds.mono {res : EStateM.Result (Halt Fault) State α} (h : Finds setting missing post res)
    (hp : ∀ a, post a → post₁ a) : Finds setting missing post₁ res := by
  cases res with
  | ok a S' => exact ⟨hp a h.1, h.2⟩
  | error halt S' => cases halt <;> exact h

theorem Nameless.finds (hx : Nameless x) (stocked : setting.Stocked S) :
    Finds setting missing (fun _ => True) (x S) := by
  cases hs : x S with
  | ok a S' => exact ⟨trivial, stocked.of_labels (hx.related hs).labels⟩
  | error halt S' =>
    cases halt with
    | fault f => exact Fault.missesOnly (hx.fault hs)
    | overflow | unfinished => trivial

theorem Nameless.bind {f : α → EvalM β} (hx : Nameless x) (hf : ∀ a, Nameless (f a)) :
    Nameless (x >>= f) where
  toRespects := hx.toRespects.bind fun a => (hf a).toRespects
  fault h := by
    rcases bind_eq_error.1 h with h | ⟨a, S₁, -, h⟩
    · exact hx.fault h
    · exact (hf a).fault h

theorem Nameless.get : Nameless (get : EvalM State) := ⟨respects_get, fun h => by cases h⟩

theorem nameless_lift {x : Except Fault α} (h : ∀ {f}, x = .error f → f.isMissing = false) :
    Nameless (lift x) where
  toRespects := respects_lift x
  fault stopped := by
    cases x with
    | ok a => cases stopped
    | error f =>
      cases stopped
      exact h rfl

theorem nameless_asInt (v : Value) : Nameless (lift v.asInt) :=
  nameless_lift fun h => Fault.isMissing_of_isSilent (Linear.asInt_eq_error h)

theorem nameless_isTruthy (v : Value) : Nameless (lift v.isTruthy) :=
  nameless_lift fun h => Fault.isMissing_of_isSilent (Linear.isTruthy_eq_error h)

theorem nameless_apply (op : BinOp) (a b : Value) : Nameless (lift (op.apply a b)) := by
  apply nameless_lift
  intro f h
  rcases Linear.apply_eq_error h with silent | ⟨-, rfl⟩
  · exact Fault.isMissing_of_isSilent silent
  · rfl

theorem nameless_checkIndex (v : Value) (n : Int) : Nameless (lift (v.checkIndex n)) := by
  apply nameless_lift
  intro f h
  rcases Linear.checkIndex_eq_error h with silent | ⟨i, rfl⟩
  · exact Fault.isMissing_of_isSilent silent
  · rfl

theorem nameless_load (v : Value) : Nameless (load v) := by
  apply (nameless_asInt v).bind
  intro a
  apply Nameless.get.bind
  intro S
  exact nameless_lift fun h => Fault.isMissing_of_isSilent (Linear.load_eq_error h)

theorem nameless_tick (setting : Setting) : Nameless (tick setting) where
  toRespects := restored_tick
  fault {S f S'} h := by
    simp only [tick, onMachine] at h
    rcases Machine.tick_cases setting.budget S.machine with eq | ⟨limit, -, eq⟩
    · rw [eq] at h
      cases h
    · rw [eq] at h
      cases h
      rfl

theorem nameless_store (address : Int) (v : Value) :
    Nameless (onMachine (Machine.onMemory (Memory.store address v))) where
  toRespects := restored_store address v
  fault {S f S'} h := by
    simp only [onMachine, Machine.onMemory] at h
    cases stored : Memory.store address v S.machine.memory with
    | ok _ m =>
      rw [stored] at h
      cases h
    | error halt m =>
      rw [stored] at h
      cases h
      exact Fault.isMissing_of_memory (Memory.ofMemory_store stored)

/-- The address of static data. -/
theorem finds_data (stocked : setting.Stocked S) {l : String}
    (met : setting.program.Meets missing [.malformed (.unknownData l)]) :
    Finds setting missing (fun _ => True) (lift (S.machine.memory.dataAddress l) S) := by
  cases found : S.machine.memory.dataAddress l with
  | ok v => exact ⟨trivial, stocked⟩
  | error f =>
    obtain ⟨absent, rfl⟩ := Linear.dataAddress_eq_error found
    intro _
    refine ⟨rfl, (Program.meets_singleton.1 met).resolve_left fun named => ?_⟩
    obtain ⟨g, mem, rfl⟩ := List.mem_map.1 named
    obtain ⟨place, placed, own⟩ := List.mem_map.1 (stocked g mem)
    have other := List.lookup_eq_none_iff.1 absent place placed
    simp [own] at other

/-- A write to a temporary. -/
theorem finds_writeTemp (stocked : setting.Stocked S) {t : Temp}
    (met : setting.program.Meets missing (Expr.temp t).target) (v : Value) :
    Finds setting missing (fun _ => True) (writeTemp t v S) := by
  cases written : writeTemp t v S with
  | ok u S' =>
    obtain ⟨ts, -, rfl⟩ := writeTemp_eq_ok written
    exact ⟨trivial, stocked⟩
  | error halt S' =>
    simp only [writeTemp, Temps.set] at written
    split at written
    · cases written
    · next refused =>
      split at refused
      · next fp =>
        cases refused
        cases written
        intro _
        rw [Expr.target, if_pos fp, Program.meets_singleton] at met
        exact ⟨rfl, met.resolve_left id⟩
      · cases refused

theorem finds_enter (stocked : setting.Stocked S) (label : String) (frame : Frame)
    (args : List Value) :
    Finds setting missing (fun _ => True) (enter setting label frame args S) := by
  cases entered : enter setting label frame args S with
  | ok caller S' => exact ⟨trivial, stocked.of_labels (enter_eq_ok entered).2⟩
  | error halt S' =>
    -- a size overflows, calls nest too deep, the record does not fit, or arguments are missing
    rw [enter_apply] at entered
    split at entered
    · cases entered
      trivial
    · split at entered
      · split at entered
        · cases entered
          exact Fault.missesOnly rfl
        · split at entered
          · cases entered
          · next halt m refused =>
            cases entered
            cases halt with
            | fault f =>
              exact Fault.missesOnly (Fault.isMissing_of_memory (Memory.ofMemory_enter refused))
            | overflow | unfinished => trivial
      · cases entered
        exact Fault.missesOnly rfl

/-- A label without a chunk is that of a built-in, or it may be missing. -/
theorem finds_callBuiltin (stocked : setting.Stocked S) {label : String}
    (known : (Builtin.ofLabel? label).isSome = true ∨ missing (.unknownFunction label))
    (args : List Value) :
    Finds setting missing (fun _ => True) (onMachine (Machine.callBuiltin label args) S) := by
  obtain ⟨⟨m, host, steps⟩, calls, temps⟩ := S
  simp only [onMachine, Machine.callBuiltin_apply]
  cases found : Builtin.ofLabel? label with
  | none =>
    rw [found] at known
    exact fun _ => ⟨rfl, known.resolve_left Bool.false_ne_true⟩
  | some b =>
    dsimp only
    cases called : Host.call b (args.drop 1) host with
    | ok v host' => exact ⟨trivial, stocked⟩
    | error f host' => exact Fault.missesOnly (Fault.isMissing_of_host (Host.call_eq_error called))

end Nested
end PinsBackend
