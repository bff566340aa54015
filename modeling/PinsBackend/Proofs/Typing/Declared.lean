import Mathlib.Data.List.Perm.Subperm
import PinsBackend.Proofs.Typing.Types
import PinsBackend.Typing.Check

/-! The types of declarations, one step at a time.

The chain of aliases behind a type is never cut off: an alias that is met twice is reported.
Whatever is typed, no report is taken back and no entry of the table is lost. -/
namespace PinsBackend.Typing

open Syntax

variable {α : Type}

theorem bind_run {β : Type} (x : CheckM α) (f : α → CheckM β) (σ : Typing) :
    (x >>= f) σ = f (x σ).1 (x σ).2 := rfl

theorem pure_run (a : α) (σ : Typing) : (pure a : CheckM α) σ = (a, σ) := rfl

theorem remember_run (id : NodeId) (x : CheckM Ty) (σ : Typing) :
    remember id x σ = match σ.types.get? id with
      | some τ => (τ, σ)
      | none => ((x σ).1, { (x σ).2 with types := (x σ).2.types.insert id (x σ).1 }) := by
  have state : (get : CheckM Typing) σ = (σ, σ) := rfl
  simp only [remember, bind_run, state]
  cases σ.types.get? id with
  | some τ => rfl
  | none => rfl

/-- A list of different nodes that a table describes is not longer than the table. -/
theorem length_le_size {t : NodeTable α} {ids : List NodeId} (nodup : ids.Nodup)
    (known : ∀ id ∈ ids, (t.get? id).isSome = true) : ids.length ≤ t.size := by
  have sub : ids ⊆ t.entries.keys := fun id hid => by
    rw [Std.TreeMap.mem_keys]
    have := known id hid
    rwa [NodeTable.get?, Std.TreeMap.isSome_getElem?_iff_mem] at this
  have := (nodup.subperm sub).length_le
  rwa [Std.TreeMap.length_keys] at this

section

variable {ctx : Context}

theorem declType_succ (fuel : Nat) (resolving : List NodeId) (id : NodeId) (σ : Typing) :
    declType ctx (fuel + 1) resolving id σ =
      (match σ.types.get? id, ctx.signatures.get? id with
      | some type, _ => (type, σ)
      | none, none => (.error, σ)
      | none, some (.alias site name type) =>
        if id ∈ resolving then
          (.error, { σ with errors := σ.errors.push (.cyclicType name site.position) })
        else
          let r := typeExpr ctx (declType ctx fuel (id :: resolving)) type σ
          (.alias name r.1, { r.2 with types := r.2.types.insert id (.alias name r.1) })
      | none, some (.param type) | none, some (.var type) =>
        let r := typeExpr ctx (declType ctx fuel resolving) type σ
        (r.1, { r.2 with types := r.2.types.insert id r.1 })
      | none, some (.function params result) =>
        let ps := params.mapM (declType ctx fuel resolving) σ
        let r := typeExpr ctx (declType ctx fuel resolving) result ps.2
        (.function ps.1 r.1, { r.2 with types := r.2.types.insert id (.function ps.1 r.1) })) := by
  rw [declType, bind_run]
  change (match σ.types.get? id, ctx.signatures.get? id with
    | some type, _ => (Pure.pure type : CheckM Ty)
    | none, none => _
    | none, some (.alias site name type) => _
    | none, some (.param type) | none, some (.var type) => _
    | none, some (.function params result) => _) σ = _
  cases σ.types.get? id with
  | some τ => rfl
  | none =>
    cases ctx.signatures.get? id with
    | none => rfl
    | some signature =>
      cases signature with
      | «alias» site name type =>
        dsimp only
        split <;> rfl
      | function => rfl
      | param => rfl
      | var => rfl
/-- The chain of aliases behind a declaration fits the fuel it is given. -/
theorem chain_enough {id : NodeId} {s : Signature} (h : ctx.signatures.get? id = some s) :
    ∃ fuel, ctx.chain = fuel + 2 ∧ ctx.signatures.size < fuel := by
  have pos : [id].length ≤ ctx.signatures.size := length_le_size (by simp) (by simp [h])
  rw [List.length_singleton] at pos
  have square : (ctx.signatures.size + 1) * 2 ≤ ctx.chain :=
    Nat.mul_le_mul_left _ (by omega)
  exact ⟨ctx.chain - 2, by omega, by omega⟩

end

/-! ## What lasts -/

/-- A condition on the state of the checker that neither a report nor an entry ends. -/
structure Lasting (J : Typing → Prop) : Prop where
  report : ∀ {σ e}, J σ → J { σ with errors := σ.errors.push e }
  record : ∀ {σ id τ}, J σ → J { σ with types := σ.types.insert id τ }

/-- The node has a type. -/
def Recorded (σ : Typing) (id : NodeId) : Prop := (σ.types.get? id).isSome = true

theorem recorded_insert {σ : Typing} {id j : NodeId} {τ : Ty} :
    Recorded { σ with types := σ.types.insert j τ } id ↔ id = j ∨ Recorded σ id := by
  simp only [Recorded, NodeTable.get?_insert]
  by_cases same : id = j
  · cases h : σ.types.get? j <;> simp [same, h]
  · simp [same]

theorem not_recorded (id : NodeId) : ¬ Recorded {} id := by
  have none : ({} : Typing).types.get? id = none := NodeTable.get?_empty id
  simp [Recorded, none]

/-- The first entry stays. -/
theorem get?_insert_cases {σ : Typing} {id j : NodeId} {τ τ' : Ty}
    (h : (σ.types.insert id τ).get? j = some τ') : σ.types.get? j = some τ' ∨ j = id ∧ τ' = τ := by
  rw [NodeTable.get?_insert] at h
  by_cases same : j = id
  · subst same
    cases old : σ.types.get? j <;> simp_all
  · exact .inl (by rwa [if_neg same] at h)

theorem lasting_recorded (id : NodeId) : Lasting fun σ => Recorded σ id where
  report h := h
  record h := recorded_insert.2 (.inr h)

def Keeps {α : Type} (J : Typing → Prop) (x : CheckM α) : Prop := ∀ σ, J σ → J (x σ).2

section

variable {J : Typing → Prop} {ctx : Context}

theorem Lasting.remember (h : Lasting J) {x : CheckM Ty} (hx : Keeps J x) (id : NodeId) :
    Keeps J (remember id x) := by
  intro σ holds
  rw [remember_run]
  cases σ.types.get? id with
  | some τ => exact holds
  | none => exact h.record (hx σ holds)

theorem Lasting.typeExpr (h : Lasting J) {decl : NodeId → CheckM Ty} (hdecl : ∀ d, Keeps J (decl d))
    (t : TypeExpr) : Keeps J (typeExpr ctx decl t) := by
  induction t with
  | absent | atom => exact h.remember (fun _ holds => holds) _
  | array site size element ih =>
    refine h.remember (fun σ holds => ?_) _
    rw [bind_run]
    split
    · exact h.report (ih σ holds)
    · exact ih σ holds
  | named site name =>
    refine h.remember ?_ _
    split
    · exact hdecl _
    · exact fun _ holds => holds

theorem Keeps.mapM {f : NodeId → CheckM Ty} (hf : ∀ id, Keeps J (f id)) (ids : List NodeId) :
    Keeps J (ids.mapM f) := by
  induction ids with
  | nil => exact fun _ holds => holds
  | cons id ids ih =>
    rw [List.mapM_cons]
    exact fun σ holds => ih _ (hf id σ holds)

theorem Lasting.declType (h : Lasting J) (fuel : Nat) (resolving : List NodeId) (id : NodeId) :
    Keeps J (declType ctx fuel resolving id) := by
  induction fuel generalizing resolving id with
  | zero => exact fun _ holds => holds
  | succ fuel ih =>
    intro σ holds
    rw [declType_succ]
    split
    · exact holds
    · exact holds
    · split
      · exact h.report holds
      · exact h.record (h.typeExpr (ih _) _ σ holds)
    · exact h.record (h.typeExpr (ih _) _ σ holds)
    · exact h.record (h.typeExpr (ih _) _ σ holds)
    · exact h.record (h.typeExpr (ih _) _ _ (Keeps.mapM (ih _) _ σ holds))

/-- Typing a declaration records its type. -/
theorem recorded_declType {id : NodeId} {s : Signature} (known : ctx.signatures.get? id = some s)
    (σ : Typing) : Recorded (ctx.declType id σ).2 id := by
  obtain ⟨fuel, chain, -⟩ := chain_enough known
  rw [Context.declType, chain, declType_succ, known]
  cases old : σ.types.get? id with
  | some τ => simp [Recorded, old]
  | none =>
    cases s with
    | «alias» => exact recorded_insert.2 (.inl rfl)
    | param | var | function => exact recorded_insert.2 (.inl rfl)

end

end PinsBackend.Typing
