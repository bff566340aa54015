import PinsBackend.Proofs.Safety.Values

/-! States of the linear machine without addresses.

A `Config` has a store in place of memory and data in place of words. `Shows` says which states of
the machine it stands for, one for each size of memory, and `Sane` is the invariant: the code that
is left to run is typed, and what it may read has the kinds that it expects. -/
namespace PinsBackend.Safety

open Ir Kinds
open Meaning (Place Datum Activation Store)
open Syntax (Env Level)

/-- A call that has not returned, with data in its temporaries. -/
structure Act where
  chunk : Chunk (List Stmt)
  rest : List Stmt
  result : Option Temp
  temps : Temp → Option Datum

structure Config where
  store : Store
  /-- The running activation first. -/
  acts : List Act
  steps : Nat

/-! ## Machine states -/

structure ShowsAct (S : Storage) (top : Int) (stack : List Activation) (n : Nat) (a : Act)
    (b : Linear.Activation) : Prop where
  chunk : b.chunk = a.chunk
  rest : b.rest = a.rest
  result : b.result = a.result
  saved : b.saved = ⟨edge S top stack n, edge S top stack n⟩
  temps : ShowsTemps S top stack a.temps b.temps

/-- The activations of a machine. One with `n` older ones saves the registers that address the
record of the youngest of them. -/
def ShowsActs (S : Storage) (top : Int) (stack : List Activation) :
    List Act → List Linear.Activation → Prop
  | [], [] => True
  | a :: as, b :: bs => ShowsAct S top stack as.length a b ∧ ShowsActs S top stack as bs
  | [], _ :: _ | _ :: _, [] => False

structure Shows (S : Storage) (top : Int) (A : Config) (s : Linear.State) : Prop where
  memory : Represents S top A.store s.machine.memory
  host : s.machine.host = A.store.host
  steps : s.machine.steps = A.steps
  acts : ShowsActs S top A.store.stack A.acts s.stack

theorem Shows.eta {S : Storage} {top : Int} {A : Config} {s : Linear.State} (h : Shows S top A s) :
    ∃ m stack, s = ⟨⟨m, A.store.host, A.steps⟩, stack⟩ := by
  obtain ⟨⟨m, host, steps⟩, stack⟩ := s
  obtain rfl : host = A.store.host := h.host
  obtain rfl : steps = A.steps := h.steps
  exact ⟨m, stack, rfl⟩

section

variable {θ : Temp → Option Datum}

variable {S : Storage} {top : Int} {stack more : List Activation}

theorem ShowsTemps.append_iff {ts : Temps} (h : ∀ t d, θ t = some d → Bounded stack.length d) :
    ShowsTemps S top (stack ++ more) θ ts ↔ ShowsTemps S top stack θ ts := by
  constructor
  · exact fun shows => ⟨fun {t d} hd => by rw [← shown_append (h t d hd)]; exact shows.get hd⟩
  · exact fun shows => ⟨fun {t d} hd => by rw [shown_append (h t d hd)]; exact shows.get hd⟩

theorem ShowsTemps.set {ts : Temps} (h : ShowsTemps S top stack θ ts) {t : Temp} (ne : t ≠ Temp.fp)
    (d : Datum) :
    ShowsTemps S top stack (Function.update θ t (some d))
      ⟨ts.values.insert t (shown S top stack d)⟩ := by
  refine ⟨fun {u e} he => ?_⟩
  by_cases same : u = t
  · subst same
    rw [Function.update_self] at he
    cases he
    exact ⟨ne, Std.TreeMap.getD_insert_self⟩
  · rw [Function.update_of_ne same] at he
    have differ : compare t u ≠ .eq := fun eq => same (Std.LawfulEqCmp.eq_of_compare eq).symm
    have kept := h.get he
    exact ⟨kept.1, by rw [Std.TreeMap.getD_insert, if_neg differ]; exact kept.2⟩

theorem ShowsAct.append_iff {n : Nat} {a : Act} {b : Linear.Activation} (le : n ≤ stack.length)
    (h : ∀ t d, a.temps t = some d → Bounded stack.length d) :
    ShowsAct S top (stack ++ more) n a b ↔ ShowsAct S top stack n a b := by
  constructor
  · rintro ⟨chunk, rest, result, saved, temps⟩
    exact ⟨chunk, rest, result, by rwa [edge_append le] at saved, (ShowsTemps.append_iff h).1 temps⟩
  · rintro ⟨chunk, rest, result, saved, temps⟩
    exact ⟨chunk, rest, result, by rwa [edge_append le], (ShowsTemps.append_iff h).2 temps⟩

theorem ShowsActs.append_iff {as : List Act} {bs : List Linear.Activation}
    (le : as.length ≤ stack.length)
    (h : ∀ a ∈ as, ∀ t d, a.temps t = some d → Bounded stack.length d) :
    ShowsActs S top (stack ++ more) as bs ↔ ShowsActs S top stack as bs := by
  induction as generalizing bs with
  | nil => cases bs <;> exact Iff.rfl
  | cons a as ih =>
    cases bs with
    | nil => exact Iff.rfl
    | cons b bs =>
      simp only [List.length_cons] at le
      rw [ShowsActs, ShowsActs, ShowsAct.append_iff (by omega) (h a (List.mem_cons_self ..)),
        ih (by omega) fun a' ha' => h a' (List.mem_cons_of_mem _ ha')]

end

/-! ## Typed states -/

/-- An activation that runs typed code. It is the youngest of `stack`, and a caller that waits for
the result of a call has none yet in the temporary for it. -/
structure Runs (K : Context) (frame : Level → Frame) (init : Level) (loose : Prop)
    (stack : List Activation) (a : Act) (result : Option Value.Kind)
    (waiting : Option (Temp × Value.Kind)) (Γ : Env) (κ : Temp → Option Kind) (Ψ : Kinds.Scope)
    (D D' : Set Temp) : Prop where
  known : Γ = [init] ∨ ∃ label r, K.routine label r ∧ Γ = r.env
  framed : ∀ l ∈ Γ.head?, a.chunk.frame = frame l
  linked : ∃ n, stack.length = n + 1 ∧ Linked stack (some n) Γ
  canonical : ∀ s ∈ a.chunk.body, s.isCanonical = true
  labels : ∀ l E, Ψ l = some E → .label l ∈ a.chunk.body
  body : Kinded K Γ κ (.run Ψ ∅ a.chunk.body D')
  noFp : κ Temp.fp = none
  suffix : a.rest <:+ a.chunk.body
  rest : Kinded K Γ κ (.run Ψ D a.rest D')
  holds : ∀ t ∈ D, (∀ w ∈ waiting, t ≠ w.1) → ∀ k, κ t = some k →
    ∃ d, a.temps t = some d ∧ HasKind K.storage loose stack k d
  bounded : ∀ t d, a.temps t = some d → Bounded stack.length d
  awaits : ∀ w ∈ waiting, w.1 ≠ Temp.fp ∧ (κ w.1 = some (.word w.2) ∨ κ w.1 = some .any)
  returns : ∀ k ∈ result, κ Temp.rv = some (.word k) ∧ Temp.rv ∈ D'
  silent : result = none → a.result = none

/-- What a caller waits for: the temporary that it named, and the kind of the result. -/
def waits (result : Option Temp) (k : Option Value.Kind) : Option (Temp × Value.Kind) :=
  result.bind fun t => k.map fun k => (t, k)

/-- All activations run typed code, and callers wait for what they are given. The outermost one
gives a result of the kind `last`, if there is one. -/
def Stacked (K : Context) (frame : Level → Frame) (init : Level) (loose : Prop)
    (last : Option Value.Kind) (stack : List Activation) :
    Option (Temp × Value.Kind) → List Act → Prop
  | _, [] => True
  | w, a :: as => ∃ result, (as = [] → result = last) ∧
    (∃ Γ κ Ψ D D', Runs K frame init loose (stack.take (as.length + 1)) a result w Γ κ Ψ D D') ∧
    Stacked K frame init loose last stack (waits a.result result) as

structure Sane (K : Context) (frame : Level → Frame) (init : Level) (loose : Prop)
    (last : Option Value.Kind) (A : Config) : Prop where
  typed : Typed K.storage loose A.store
  recent : Recent A.store.stack
  running : A.acts ≠ []
  length : A.acts.length = A.store.stack.length
  acts : Stacked K frame init loose last A.store.stack none A.acts

section

variable {w : Option (Temp × Value.Kind)} {as : List Act}

variable {K : Context} {frame : Level → Frame} {init : Level} {loose : Prop}
  {last : Option Value.Kind} {stack more : List Activation}

theorem Stacked.append_iff (le : as.length ≤ stack.length) :
    Stacked K frame init loose last (stack ++ more) w as ↔
      Stacked K frame init loose last stack w as := by
  induction as generalizing w with
  | nil => exact Iff.rfl
  | cons a as ih =>
    simp only [List.length_cons] at le
    have rest (w : Option (Temp × Value.Kind)) := ih (w := w) (by omega)
    simp only [Stacked, List.take_append_of_le_length le, rest]

/-- What temporaries hold is alive. -/
theorem Stacked.bounded (h : Stacked K frame init loose last stack w as) :
    ∀ a ∈ as, ∀ t d, a.temps t = some d → Bounded as.length d := by
  induction as generalizing w with
  | nil => simp
  | cons a as ih =>
    obtain ⟨result, -, ⟨Γ, κ, Ψ, D, D', runs⟩, rest⟩ := h
    intro b hb t d hd
    rcases List.mem_cons.1 hb with rfl | hb
    · exact (runs.bounded t d hd).mono (by simp)
    · exact (ih rest b hb t d hd).mono (by simp)

end

end PinsBackend.Safety
