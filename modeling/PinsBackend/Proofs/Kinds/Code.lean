import Mathlib.Data.Set.Insert
import PinsBackend.Proofs.Canonical.Correspondence
import PinsBackend.Proofs.Lowering.Relation
import PinsBackend.Proofs.Syntax.Traversal
import PinsBackend.Proofs.Typing.Types

/-! Kinds of words.

A word is an integer, a string or the place of some cells, and code that comes from a typed program
keeps the three apart. `Kinded` says so of expressions and of statements. A temporary has one kind
throughout a function, but it may be read only where it was written before: the sets of temporaries
say which ones that are, and a label expects a set of its own. -/
namespace PinsBackend

/-- What a cell of a variable holds. -/
inductive Content where
  | word (k : Value.Kind)
  /-- The place of an array of so many words. -/
  | array (k : Value.Kind) (n : Nat)
  deriving DecidableEq

inductive Kind where
  /-- A word that is only passed on. -/
  | any
  | word (k : Value.Kind)
  /-- The place of so many cells. -/
  | cells (c : Content) (n : Nat)
  deriving DecidableEq

def Content.kind : Content → Kind
  | .word k => .word k
  | .array k n => .cells (.word k) n

namespace Ty

variable {τ : Ty}

/-- The words that a value is made of. -/
def leaf : Ty → Value.Kind
  | .string => .string
  | .array _ element => element.leaf
  | .alias _ target => target.leaf
  | .logical | .integer | .void | .function _ _ | .error => .integer

/-- What a parameter of this type holds. -/
def content (τ : Ty) : Content :=
  if τ.isArray then .array τ.leaf τ.extent else .word τ.leaf

/-- The kind of a value of this type. -/
def kind (τ : Ty) : Kind := τ.content.kind

theorem Same.leaf {a b : Ty} (h : a.Same b) : a.leaf = b.leaf :=
  SeesThrough.same ⟨fun _ _ => rfl, fun _ _ inner => inner, fun _ _ => rfl⟩ h

theorem Same.content {a b : Ty} (h : a.Same b) : a.content = b.content := by
  rw [Ty.content, Ty.content, h.isArray, h.leaf, h.extent]

theorem Same.kind {a b : Ty} (h : a.Same b) : a.kind = b.kind := congrArg Content.kind h.content

theorem content_of_isAtomic (h : τ.isAtomic = true) : τ.content = .word τ.leaf := by
  simp [content, isArray_of_isAtomic h]

theorem kind_of_isAtomic (h : τ.isAtomic = true) : τ.kind = .word τ.leaf := by
  rw [kind, content_of_isAtomic h, Content.kind]

theorem kind_of_isArray (h : τ.isArray = true) : τ.kind = .cells (.word τ.leaf) τ.extent := by
  simp [kind, content, h, Content.kind]

theorem leaf_of_arrayParts? : {τ : Ty} → {n : Int} → {element : Ty} →
    τ.arrayParts? = some (n, element) → τ.leaf = element.leaf
  | .alias _ target, _, _, h => leaf_of_arrayParts? (τ := target) h
  | .array _ _, _, _, h => by
    cases h
    rfl

end Ty

open Syntax (Env Level)

/-- Where the variables of a program lie and what their cells hold. -/
structure Storage where
  content : NodeId → Content
  /-- The cells of a variable. -/
  count : NodeId → Nat
  /-- The first byte of a variable in the record of its function. -/
  offset : NodeId → Int
  /-- The bytes of the record of a function. -/
  size : Level → Int
  globals : List NodeId
  label : NodeId → String
  /-- The address of a global. -/
  start : NodeId → Int
  /-- The bytes of all globals. -/
  static : Int

/-- A function, with the functions around it. -/
structure Routine where
  level : Level
  outer : Env
  result : Value.Kind

def Routine.env (r : Routine) : Env := r.level :: r.outer

namespace Kinds

open Ir Lowering

variable {κ : Temp → Option Kind}

/-- A map that says more. -/
structure Extends {α β : Type} (f g : α → Option β) : Prop where
  get : ∀ {a b}, f a = some b → g a = some b

theorem Extends.refl {α β : Type} (f : α → Option β) : Extends f f := ⟨id⟩

theorem Extends.trans {α β : Type} {f g h : α → Option β} (hf : Extends f g) (hg : Extends g h) :
    Extends f h := ⟨fun e => hg.get (hf.get e)⟩

/-- Temporaries from `n` on have no kind yet, and the frame pointer never gets one. -/
structure Free (κ : Temp → Option Kind) (n : Temp) : Prop where
  two_le : Temp.firstFree ≤ n
  unset : ∀ t, n ≤ t → κ t = none
  fp : κ Temp.fp = none

theorem Free.extends {n : Temp} (h : Free κ n) (k : Kind) :
    Extends κ (Function.update κ n (some k)) := by
  refine ⟨fun {t _} e => ?_⟩
  by_cases ht : t = n
  · rw [ht, h.unset n (Nat.le_refl n)] at e
    cases e
  · rwa [Function.update_of_ne ht]

theorem Free.save {n : Temp} (h : Free κ n) (k : Kind) :
    Free (Function.update κ n (some k)) (n + 1) := by
  refine ⟨Nat.le_succ_of_le h.two_le, fun t ht => ?_, ?_⟩
  · rw [Function.update_of_ne (Nat.ne_of_gt ht)]
    exact h.unset t (Nat.le_of_succ_le ht)
  · have ne : Temp.fp ≠ n := Nat.ne_of_lt (Nat.lt_of_lt_of_le Nat.two_pos h.two_le)
    rw [Function.update_of_ne ne]
    exact h.fp

/-- What the code of a program may refer to. -/
structure Context where
  storage : Storage
  routine : String → Routine → Prop

/-- The static link that a function in the environment `Γ` passes to one declared in `outer`. -/
def LinkTo (Γ outer : Env) (link : Expr) : Prop :=
  (outer = [] ∧ link = .int 0) ∨ ∃ hops, outer ≠ [] ∧ outer = Γ.drop hops ∧ link = frameAt hops

/-- The temporaries that were written when a label is reached. -/
abbrev Scope := String → Option (Set Temp)

inductive Task where
  /-- An expression that is read when these temporaries were written. -/
  | value (D : Set Temp) (e : Expr) (k : Kind)
  /-- A statement that leaves more temporaries written. -/
  | stmt (Ψ : Scope) (D : Set Temp) (s : Stmt) (D' : Set Temp)
  | run (Ψ : Scope) (D : Set Temp) (ss : List Stmt) (D' : Set Temp)

/-- Code of a function in the environment `Γ` whose temporaries have the kinds `κ`. -/
inductive Kinded (ctx : Context) (Γ : Env) (κ : Temp → Option Kind) : Task → Prop
  | int {D : Set Temp} (n : Int64) : Kinded ctx Γ κ (.value D (.const (.int n)) (.word .integer))
  | str {D : Set Temp} (s : String) : Kinded ctx Γ κ (.value D (.const (.str s)) (.word .string))
  | temp {D : Set Temp} {t : Temp} {k : Kind} (kind : κ t = some k) (written : t ∈ D) :
    Kinded ctx Γ κ (.value D (.temp t) k)
  | slot {D : Set Temp} {hops : Nat} {l : Level} {d : NodeId} (level : Γ[hops]? = some l)
      (mem : d ∈ l.variables) :
    Kinded ctx Γ κ (.value D (.binop .add (frameAt hops) (.int (ctx.storage.offset d)))
      (.cells (ctx.storage.content d) (ctx.storage.count d)))
  | global {D : Set Temp} {d : NodeId} (mem : d ∈ ctx.storage.globals) :
    Kinded ctx Γ κ (.value D (.data (ctx.storage.label d))
      (.cells (ctx.storage.content d) (ctx.storage.count d)))
  | load {D : Set Temp} {a : Expr} {c : Content} {n : Nat}
      (address : Kinded ctx Γ κ (.value D a (.cells c n))) (pos : 0 < n) :
    Kinded ctx Γ κ (.value D (.mem a) c.kind)
  | element {D : Set Temp} {base i : Expr} {k : Value.Kind} {n m : Nat} {length size : Int}
      (array : Kinded ctx Γ κ (.value D base (.cells (.word k) n)))
      (index : Kinded ctx Γ κ (.value D i (.word .integer)))
      (inside : length.toNat * m ≤ n) (bytes : size = m * Word.bytes) (fits : Word.Fits size) :
    Kinded ctx Γ κ (.value D (elementExpr base i length size) (.cells (.word k) m))
  | arithmetic {D : Set Temp} {op : BinOp} {l r : Expr} (hop : op.isComparison = false)
      (left : Kinded ctx Γ κ (.value D l (.word .integer)))
      (right : Kinded ctx Γ κ (.value D r (.word .integer))) :
    Kinded ctx Γ κ (.value D (.binop op l r) (.word .integer))
  | comparison {D : Set Temp} {op : BinOp} {l r : Expr} {k : Value.Kind}
      (hop : op.isComparison = true) (left : Kinded ctx Γ κ (.value D l (.word k)))
      (right : Kinded ctx Γ κ (.value D r (.word k))) :
    Kinded ctx Γ κ (.value D (.binop op l r) (.word .integer))
  | builtin {D : Set Temp} {b : Builtin} {ts : List Temp}
      (args : List.Forall₂ (fun t τ => κ t = some (Ty.kind τ) ∧ t ∈ D) ts b.params)
      (unused : ∀ r, ¬ ctx.routine b.name r) :
    Kinded ctx Γ κ (.value D (.call b.name (.int 0 :: ts.map .temp)) b.result.kind)
  | call {D : Set Temp} {label : String} {r : Routine} {link : Expr} {ts : List Temp}
      (callee : ctx.routine label r) (linked : LinkTo Γ r.outer link)
      (args : List.Forall₂ (fun t d => κ t = some (ctx.storage.content d).kind ∧ t ∈ D) ts
        r.level.params) :
    Kinded ctx Γ κ (.value D (.call label (link :: ts.map .temp)) (.word r.result))
  | eseq {D D' : Set Temp} {Ψ : Scope} {ss : List Stmt} {e : Expr} {k : Kind}
      (own : ∀ {l E}, Ψ l = some E → .label l ∈ ss) (stmts : Kinded ctx Γ κ (.run Ψ D ss D'))
      (value : Kinded ctx Γ κ (.value D' e k)) :
    Kinded ctx Γ κ (.value D (.eseq (.seq ss) e) k)
  | assign {Ψ : Scope} {D : Set Temp} {t : Temp} {e : Expr} {k k' : Kind} (kind : κ t = some k')
      (suits : k' = k ∨ k' = .any) (value : Kinded ctx Γ κ (.value D e k)) :
    Kinded ctx Γ κ (.stmt Ψ D (.move (.temp t) e) (insert t D))
  | store {Ψ : Scope} {D : Set Temp} {a e : Expr} {k : Value.Kind} {n : Nat}
      (address : Kinded ctx Γ κ (.value D a (.cells (.word k) n))) (pos : 0 < n)
      (value : Kinded ctx Γ κ (.value D e (.word k))) :
    Kinded ctx Γ κ (.stmt Ψ D (.move (.mem a) e) D)
  | eval {Ψ : Scope} {D : Set Temp} {e : Expr} {k : Kind} (value : Kinded ctx Γ κ (.value D e k)) :
    Kinded ctx Γ κ (.stmt Ψ D (.eval e) D)
  -- nothing falls through a jump, so any set will do for what stands behind it
  | jump {Ψ : Scope} {D D' E : Set Temp} {l : String} (target : Ψ l = some E) (sub : E ⊆ D) :
    Kinded ctx Γ κ (.stmt Ψ D (.jump l) D')
  | cjump {Ψ : Scope} {D D' E F : Set Temp} {c : Expr} {l m : String}
      (condition : Kinded ctx Γ κ (.value D c (.word .integer))) (onTrue : Ψ l = some E)
      (subTrue : E ⊆ D) (onFalse : Ψ m = some F) (subFalse : F ⊆ D) :
    Kinded ctx Γ κ (.stmt Ψ D (.cjump c l m) D')
  | label {Ψ : Scope} {D E : Set Temp} {l : String} (here : Ψ l = some E) (sub : E ⊆ D) :
    Kinded ctx Γ κ (.stmt Ψ D (.label l) E)
  | nil {Ψ : Scope} {D D' : Set Temp} (sub : D' ⊆ D) : Kinded ctx Γ κ (.run Ψ D [] D')
  | cons {Ψ : Scope} {D D₁ D' : Set Temp} {s : Stmt} {ss : List Stmt}
      (first : Kinded ctx Γ κ (.stmt Ψ D s D₁)) (rest : Kinded ctx Γ κ (.run Ψ D₁ ss D')) :
    Kinded ctx Γ κ (.run Ψ D (s :: ss) D')

section

variable {ctx : Context} {Γ : Env} {κ κ' : Temp → Option Kind} {D E D' : Set Temp} {Ψ : Scope}
  {ss : List Stmt}

theorem Kinded.zero (n : Int) : Kinded ctx Γ κ (.value D (.int n) (.word .integer)) :=
  .int _

/-- Labels that expect some temporaries more. -/
def Scope.add (Ψ : Scope) (X : Set Temp) : Scope := fun l => (Ψ l).map (· ∪ X)

theorem Scope.add_eq_some {X : Set Temp} {l : String} (h : Ψ l = some E) :
    Ψ.add X l = some (E ∪ X) := by simp [Scope.add, h]

def Task.add (X : Set Temp) : Task → Task
  | .value D e k => .value (D ∪ X) e k
  | .stmt Ψ D s D' => .stmt (Ψ.add X) (D ∪ X) s (D' ∪ X)
  | .run Ψ D ss D' => .run (Ψ.add X) (D ∪ X) ss (D' ∪ X)

@[simp] theorem Task.add_empty (task : Task) : task.add ∅ = task := by
  have scope (Ψ : Scope) : Ψ.add ∅ = Ψ := by
    funext l
    simp [Scope.add]
  cases task <;> simp [Task.add, scope]

/-- Kinds of more temporaries do no harm, nor do more temporaries that were written before. -/
theorem Kinded.weaken (le : Extends κ κ') (X : Set Temp) {task : Task} (h : Kinded ctx Γ κ task) :
    Kinded ctx Γ κ' (task.add X) := by
  induction h with
  | int n => exact .int n
  | str s => exact .str s
  | temp kind written => exact .temp (le.get kind) (.inl written)
  | slot level mem => exact .slot level mem
  | global mem => exact .global mem
  | load _ pos ih => exact .load ih pos
  | element _ _ inside bytes fits iha ihi => exact .element iha ihi inside bytes fits
  | arithmetic hop _ _ ihl ihr => exact .arithmetic hop ihl ihr
  | comparison hop _ _ ihl ihr => exact .comparison hop ihl ihr
  | builtin args unused => exact .builtin (args.imp fun _ _ h => ⟨le.get h.1, .inl h.2⟩) unused
  | call callee linked args =>
    exact .call callee linked (args.imp fun _ _ h => ⟨le.get h.1, .inl h.2⟩)
  | @eseq _ _ Ψ _ _ _ own _ _ ihs ihe =>
    refine .eseq (fun {l E} h => ?_) ihs ihe
    obtain ⟨F, hF, -⟩ := Option.map_eq_some_iff.1 h
    exact own hF
  | assign kind suits _ ih =>
    simp only [Task.add, Set.insert_union]
    exact .assign (le.get kind) suits ih
  | store _ pos _ iha ihe => exact .store iha pos ihe
  | eval _ ih => exact .eval ih
  | jump target sub => exact .jump (Scope.add_eq_some target) (Set.union_subset_union_left X sub)
  | cjump _ onTrue subTrue onFalse subFalse ih =>
    exact .cjump ih (Scope.add_eq_some onTrue) (Set.union_subset_union_left X subTrue)
      (Scope.add_eq_some onFalse) (Set.union_subset_union_left X subFalse)
  | label here sub => exact .label (Scope.add_eq_some here) (Set.union_subset_union_left X sub)
  | nil sub => exact .nil (Set.union_subset_union_left X sub)
  | cons _ _ ihs ihss => exact .cons ihs ihss

theorem Kinded.extend (le : Extends κ κ') {task : Task} (h : Kinded ctx Γ κ task) :
    Kinded ctx Γ κ' task := by
  simpa using h.weaken le ∅

theorem Kinded.mono {e : Expr} {k : Kind} (h : Kinded ctx Γ κ (.value D e k)) (sub : D ⊆ E) :
    Kinded ctx Γ κ (.value E e k) := by
  have wider := h.weaken (.refl κ) E
  rwa [Task.add, Set.union_eq_self_of_subset_left sub] at wider

/-- A statement that starts with more temporaries ends with more. -/
theorem Kinded.mono_stmt {s : Stmt} (h : Kinded ctx Γ κ (.stmt Ψ D s D')) (sub : D ⊆ E) :
    ∃ E', D' ⊆ E' ∧ Kinded ctx Γ κ (.stmt Ψ E s E') := by
  cases h with
  | assign kind suits value =>
    exact ⟨_, Set.insert_subset_insert sub, .assign kind suits (value.mono sub)⟩
  | store address pos value => exact ⟨_, sub, .store (address.mono sub) pos (value.mono sub)⟩
  | eval value => exact ⟨_, sub, .eval (value.mono sub)⟩
  | jump target le => exact ⟨_, subset_rfl, .jump target (le.trans sub)⟩
  | cjump condition onTrue subTrue onFalse subFalse =>
    exact ⟨_, subset_rfl, .cjump (condition.mono sub) onTrue (subTrue.trans sub) onFalse
      (subFalse.trans sub)⟩
  | label here le => exact ⟨_, subset_rfl, .label here (le.trans sub)⟩

theorem Kinded.mono_run {E' : Set Temp} (h : Kinded ctx Γ κ (.run Ψ D ss D')) (sub : D ⊆ E)
    (sub' : E' ⊆ D') : Kinded ctx Γ κ (.run Ψ E ss E') := by
  induction ss generalizing D E with
  | nil =>
    cases h with
    | nil le => exact .nil ((sub'.trans le).trans sub)
  | cons s ss ih =>
    cases h with
    | cons first rest =>
      obtain ⟨F, le, first⟩ := first.mono_stmt sub
      exact .cons first (ih rest le)

theorem Kinded.append {D₁ : Set Temp} {ts : List Stmt} (h : Kinded ctx Γ κ (.run Ψ D ss D₁))
    (h' : Kinded ctx Γ κ (.run Ψ D₁ ts D')) : Kinded ctx Γ κ (.run Ψ D (ss ++ ts) D') := by
  induction ss generalizing D with
  | nil =>
    cases h with
    | nil le => exact h'.mono_run le subset_rfl
  | cons s ss ih =>
    cases h with
    | cons first rest => exact .cons first (ih rest)

theorem Kinded.single {s : Stmt} (h : Kinded ctx Γ κ (.stmt Ψ D s D')) :
    Kinded ctx Γ κ (.run Ψ D [s] D') :=
  .cons h (.nil subset_rfl)

/-- Statements may stand where more labels are known. -/
theorem Kinded.widen {Ψ' : Scope} (le : Extends Ψ Ψ') (h : Kinded ctx Γ κ (.run Ψ D ss D')) :
    Kinded ctx Γ κ (.run Ψ' D ss D') := by
  induction ss generalizing D with
  | nil =>
    cases h with
    | nil sub => exact .nil sub
  | cons s ss ih =>
    cases h with
    | cons first rest =>
      refine .cons ?_ (ih rest)
      cases first with
      | assign kind suits value => exact .assign kind suits value
      | store address pos value => exact .store address pos value
      | eval value => exact .eval value
      | jump target sub => exact .jump (le.get target) sub
      | cjump condition onTrue subTrue onFalse subFalse =>
        exact .cjump condition (le.get onTrue) subTrue (le.get onFalse) subFalse
      | label here sub => exact .label (le.get here) sub

end

end Kinds
end PinsBackend
