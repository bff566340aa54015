import PinsBackend.Proofs.Canonical.Correspondence
import PinsBackend.Proofs.Machine.Commutation

/-! What it means that linear code follows the evaluation of tree code.

The linear machine reaches the end of the code of a split expression with the memory, the host and
the temporaries that evaluation leaves, and the residual expression then has the value. If
evaluation faults, the machine stops, or the residual has the fault. A residual may be read late, so
the machine can meet a quiet fault first; nothing else can come between. -/
namespace PinsBackend

open Ir

/-- Faults that effects announce. An undefined label is left out: linear code can jump where tree
code cannot. -/
def Fault.isAnnounced : Fault → Bool
  | .undefinedLabel _ => false
  | f => !f.isQuiet

theorem Fault.isQuiet_of_isAnnounced {f : Fault} (h : f.isAnnounced = true) :
    f.isQuiet = false := by
  cases f <;> simp_all [isAnnounced, isQuiet]

theorem Fault.not_isAnnounced {f : Fault} (h : f.isQuiet = true) : ¬ f.isAnnounced = true := by
  intro hann
  rw [isQuiet_of_isAnnounced hann] at h
  cases h

namespace Canonical

variable {f : Fault} {S : Nested.State} {fx : Effects}

/-- The temporaries of the tree code hold the same words. -/
def Agree (limit : Temp) (tree linear : Temps) : Prop :=
  ∀ t, t < limit → linear.read t = tree.read t

/-- An activation of linear code that follows an evaluation of tree code. -/
structure Track where
  act : Linear.Activation
  callers : List Linear.Activation
  /-- Temporaries from here on belong to the linear code alone. -/
  limit : Temp
  two_le : Temp.firstFree ≤ limit
  labels : (labelsOf act.chunk.body).Nodup

namespace Track

def config (k : Track) (rest : List Stmt) (ts : Temps) (S : Nested.State) : Linear.Config :=
  k.act.config k.callers rest ts S.machine.memory S.machine.host

def calls (k : Track) : List String := (k.act :: k.callers).map fun a => a.chunk.frame.label

end Track

/-- The activation has followed the evaluation up to this state. -/
structure Tracks (k : Track) (ts : Temps) (S : Nested.State) : Prop where
  agree : Agree k.limit S.temps ts
  calls : S.calls = k.calls

variable {p : LinearProgram} {k : Track} {α β : Type}

/-- The machine goes from one place of the activation to another. -/
structure Arrives (p : LinearProgram) (k : Track) (rest : List Stmt) (ts : Temps)
    (S : Nested.State) (fx : Effects) (rest' : List Stmt) (ts' : Temps) (S' : Nested.State) :
    Prop where
  steps : Linear.Steps p (k.config rest ts S) (k.config rest' ts' S')
  kept : Linear.Kept fx S.machine.memory ts S'.machine.memory ts'
  calls : S'.calls = S.calls

namespace Arrives

variable {fx : Effects} {rest rest₁ rest₂ : List Stmt} {ts ts₁ ts₂ : Temps}
  {S S₁ S₂ : Nested.State}

theorem refl : Arrives p k rest ts S fx rest ts S := ⟨.refl, .refl _ _ _, rfl⟩

theorem trans (h : Arrives p k rest ts S fx rest₁ ts₁ S₁)
    (h' : Arrives p k rest₁ ts₁ S₁ fx rest₂ ts₂ S₂) : Arrives p k rest ts S fx rest₂ ts₂ S₂ :=
  ⟨h.steps.trans h'.steps, h.kept.trans h'.kept, h'.calls.trans h.calls⟩

theorem mono {fx' : Effects} (h : Arrives p k rest ts S fx rest₁ ts₁ S₁) (le : fx.Le fx') :
    Arrives p k rest ts S fx' rest₁ ts₁ S₁ :=
  ⟨h.steps, h.kept.mono le, h.calls⟩

end Arrives

/-- The machine stops where the evaluation did, with its fault or with a quiet one. -/
def Stops (p : LinearProgram) (c : Linear.Config) (f : Fault) (S : Nested.State) : Prop :=
  ∃ c₁ f' c₂, Linear.Steps p c c₁ ∧ Linear.Faults p c₁ f' c₂ ∧ (f' = f ∨ f'.isQuiet = true) ∧
    c₂.memory = S.machine.memory ∧ c₂.host = S.machine.host ∧
    (c₂.stack.map fun a => a.chunk.frame.label) = S.calls

theorem Stops.of_steps {c c' : Linear.Config} (h : Linear.Steps p c c') (hs : Stops p c' f S) :
    Stops p c f S := by
  obtain ⟨c₁, f', c₂, steps, rest⟩ := hs
  exact ⟨c₁, f', c₂, h.trans steps, rest⟩

theorem Stops.of_faults {rest rest' : List Stmt} {ts ts' : Temps}
    (hf : Linear.Faults p (k.config rest ts S) f (k.config rest' ts' S)) (hc : S.calls = k.calls) :
    Stops p (k.config rest ts S) f S :=
  ⟨_, f, _, .refl, hf, .inl rfl, rfl, rfl, hc.symm⟩

theorem Stops.of_quiet {rest : List Stmt} {ts : Temps}
    (hs : Linear.StopsQuietly p (k.config rest ts S) k.act k.callers S.machine.memory
      S.machine.host) (hc : S.calls = k.calls) : Stops p (k.config rest ts S) f S := by
  obtain ⟨c₁, f', rest', ts', steps, quiet, fault⟩ := hs
  exact ⟨c₁, f', _, steps, fault, .inr quiet, rfl, rfl, hc.symm⟩

/-- The linear machine has to stop too where the evaluator gives up like this: effects announce the
fault, and it comes from no limit of the evaluator. The limit on nested calls reports the stack
pointer as it stands; a record that does not fit reports the pointer it would need. -/
structure Reported (setting : Nested.Setting) (f : Fault) (S : Nested.State) : Prop where
  announced : f.isAnnounced = true
  budget : setting.budget = none
  guard : f ≠ .stackOverflow S.machine.memory.sp

theorem not_reported {setting : Nested.Setting} (h : f.isAnnounced = false) :
    ¬ Reported setting f S := fun hr => by
  rw [hr.announced] at h
  cases h

/-- The machine follows an evaluation from `rest` to `rest'`, where `value` reads the result. Faults
that need not be reported are not followed. -/
def Delivers (p : LinearProgram) (k : Track) (rest : List Stmt) (ts : Temps) (S : Nested.State)
    (fx : Effects) (rest' : List Stmt) (setting : Nested.Setting)
    (value : Memory → Temps → Except Fault α) :
    EStateM.Result (Halt Fault) Nested.State α → Prop
  | .ok v S' => ∃ ts', Arrives p k rest ts S fx rest' ts' S' ∧ Tracks k ts' S' ∧
      value S'.machine.memory ts' = .ok v
  | .error (.fault f) S' => Reported setting f S' →
      Stops p (k.config rest ts S) f S' ∨
      ∃ ts', Arrives p k rest ts S fx rest' ts' S' ∧ value S'.machine.memory ts' = .error f
  | .error _ _ => True

/-- The machine follows a statement from `rest` to `rest'`, or to the target of a jump. -/
def Performs (p : LinearProgram) (k : Track) (rest : List Stmt) (ts : Temps) (S : Nested.State)
    (fx : Effects) (rest' : List Stmt) (setting : Nested.Setting) :
    EStateM.Result (Halt Fault) Nested.State Nested.Flow → Prop
  | .ok .next S' => ∃ ts', Arrives p k rest ts S fx rest' ts' S' ∧ Tracks k ts' S'
  | .ok (.jump l) S' => ∀ target, Linear.seek l k.act.chunk.body = some target →
      ∃ ts', Arrives p k rest ts S fx target ts' S' ∧ Tracks k ts' S'
  | .error (.fault f) S' => Reported setting f S' → Stops p (k.config rest ts S) f S'
  | .error _ _ => True

section

variable {value : Memory → Temps → Except Fault α}

variable {fx : Effects} {rest rest₁ rest₂ : List Stmt} {ts ts₁ : Temps} {S S₁ : Nested.State}
  {setting : Nested.Setting}

theorem Delivers.of_arrives {res : EStateM.Result (Halt Fault) Nested.State α}
    (ha : Arrives p k rest ts S fx rest₁ ts₁ S₁)
    (h : Delivers p k rest₁ ts₁ S₁ fx rest₂ setting value res) :
    Delivers p k rest ts S fx rest₂ setting value res := by
  match res, h with
  | .ok v S', h =>
    obtain ⟨ts', harr, htr, hv⟩ := h
    exact ⟨ts', ha.trans harr, htr, hv⟩
  | .error (.fault f) S', h =>
    intro hrep
    rcases h hrep with hs | ⟨ts', harr, hv⟩
    · exact .inl (hs.of_steps ha.steps)
    · exact .inr ⟨ts', ha.trans harr, hv⟩
  | .error (.overflow _) _, _ | .error .unfinished _, _ => trivial

theorem Performs.of_arrives {res : EStateM.Result (Halt Fault) Nested.State Nested.Flow}
    (ha : Arrives p k rest ts S fx rest₁ ts₁ S₁)
    (h : Performs p k rest₁ ts₁ S₁ fx rest₂ setting res) :
    Performs p k rest ts S fx rest₂ setting res := by
  match res, h with
  | .ok .next S', h =>
    obtain ⟨ts', harr, htr⟩ := h
    exact ⟨ts', ha.trans harr, htr⟩
  | .ok (.jump l) S', h =>
    intro target ht
    obtain ⟨ts', harr, htr⟩ := h target ht
    exact ⟨ts', ha.trans harr, htr⟩
  | .error (.fault f) S', h =>
    intro hrep
    exact (h hrep).of_steps ha.steps
  | .error (.overflow _) _, _ | .error .unfinished _, _ => trivial

/-- A last computation that reads the memory and changes nothing. -/
theorem Delivers.map {x : Nested.EvalM α} (h : Delivers p k rest ts S fx rest₁ setting value (x S))
    (g : α → Memory → Except Fault β) :
    Delivers p k rest ts S fx rest₁ setting (fun m ts => value m ts >>= fun a => g a m)
      ((do let a ← x; Nested.lift (g a (← get).machine.memory) : Nested.EvalM β) S) := by
  rw [bind_apply]
  generalize x S = res at h
  match res, h with
  | .ok a S', h =>
    obtain ⟨ts', harr, htr, hv⟩ := h
    simp only [bind_apply, get_apply, Nested.lift]
    cases hg : g a S'.machine.memory with
    | ok b => exact ⟨ts', harr, htr, by simp [hv, bind, Except.bind, hg]⟩
    | error f => exact fun _ => .inr ⟨ts', harr, by simp [hv, bind, Except.bind, hg]⟩
  | .error (.fault f) S', h =>
    intro hrep
    rcases h hrep with hs | ⟨ts', harr, hv⟩
    · exact .inl hs
    · exact .inr ⟨ts', harr, by simp [hv, bind, Except.bind]⟩
  | .error (.overflow _) _, _ | .error .unfinished _, _ => trivial

theorem Delivers.congr {value' : Memory → Temps → Except Fault α}
    {res : EStateM.Result (Halt Fault) Nested.State α}
    (h : Delivers p k rest ts S fx rest₁ setting value res)
    (hv : ∀ m ts, value' m ts = value m ts) :
    Delivers p k rest ts S fx rest₁ setting value' res := by
  have : value' = value := by funext m ts; exact hv m ts
  exact this ▸ h

end

/-- A statement list whose statements do nothing that `fx` excludes. -/
def Covers (fx : Effects) (code : List Stmt) : Prop := ∀ st ∈ code, st.effects.Le fx

theorem covers_append {a b : List Stmt} : Covers fx (a ++ b) ↔ Covers fx a ∧ Covers fx b := by
  simp only [Covers, List.mem_append]
  exact ⟨fun h => ⟨fun s hs => h s (.inl hs), fun s hs => h s (.inr hs)⟩,
    fun h s hs => hs.elim (h.1 s) (h.2 s)⟩

theorem covers_cons {s : Stmt} {b : List Stmt} :
    Covers fx (s :: b) ↔ s.effects.Le fx ∧ Covers fx b := by
  simp [Covers]

theorem covers_code (s : Stmt) : Covers s.effects s.code := fun _ h => Stmt.code_le h

mutual

theorem flatten_le_of_covers : (s : Stmt) → ∀ {fx : Effects}, Covers fx s.code → s.effects.Le fx
  | .seq ss, fx, h => flattenList_le_of_covers ss h
  | .eval e, fx, h => by
    by_cases leaf : e.isLeaf
    · cases e <;> simp only [Expr.isLeaf, Bool.false_eq_true] at leaf <;>
        constructor <;> simp [Stmt.effects, Expr.effects]
    · exact h _ (by simp [Stmt.code_eval (by simpa using leaf)])
  | .move _ _, fx, h | .jump _, fx, h | .cjump _ _ _, fx, h | .label _, fx, h => h _ (by simp)

theorem flattenList_le_of_covers : (ss : List Stmt) → ∀ {fx : Effects},
    Covers fx (Stmt.codeList ss) → (Stmt.effectsList ss).Le fx
  | [], fx, _ => Effects.empty_le fx
  | s :: ss, fx, h => by
    rw [Stmt.codeList_cons, covers_append] at h
    exact Effects.union_le (flatten_le_of_covers s h.1) (flattenList_le_of_covers ss h.2)

end

end Canonical
end PinsBackend
