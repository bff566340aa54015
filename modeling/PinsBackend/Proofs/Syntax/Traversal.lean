import Mathlib.Data.List.Flatten
import PinsBackend.Syntax.Tree

/-! What stands where in the trees of a program.

An environment lists the functions around a place, from the inside out. `Everywhere` says that a
fact holds of each node of a tree in its environment; each pass gives such facts, and later proofs
read them off node by node. -/
namespace PinsBackend.Syntax

variable {ds : List Decl}

/-! ## Identities -/

def TypeExpr.ids : TypeExpr → List NodeId
  | .absent site | .atom site _ | .named site _ => [site.id]
  | .array site _ element => site.id :: element.ids

mutual

/-- The identities of all nodes of a tree, in order. -/
def Expr.ids : Expr → List NodeId
  | .absent site | .hole site | .literal site _ | .name site _ => [site.id]
  | .unary site _ e => site.id :: e.ids
  | .binary site _ l r => site.id :: (l.ids ++ r.ids)
  | .call site _ args => site.id :: Expr.idsList args
  | .block site items => site.id :: Expr.idsList items
  | .ifThen site c t => site.id :: (c.ids ++ t.ids)
  | .ifElse site c t e => site.id :: (c.ids ++ t.ids ++ e.ids)
  | .whileDo site c b => site.id :: (c.ids ++ b.ids)
  | .forDo site c lo hi st b => site.id :: (c.ids ++ lo.ids ++ hi.ids ++ st.ids ++ b.ids)
  | .scoped site ds b => site.id :: (Decl.idsList ds ++ b.ids)
  | .assign site t v => site.id :: (t.ids ++ v.ids)

def Expr.idsList : List Expr → List NodeId
  | [] => []
  | e :: es => e.ids ++ Expr.idsList es

def Decl.ids : Decl → List NodeId
  | .absent site => [site.id]
  | .alias site _ type => site.id :: type.ids
  | .param site _ type => site.id :: type.ids
  | .var site _ type none => site.id :: type.ids
  | .var site _ type (some init) => site.id :: (type.ids ++ init.ids)
  | .function site _ params result body =>
    site.id :: (Decl.idsList params ++ result.ids ++ body.ids)

def Decl.idsList : List Decl → List NodeId
  | [] => []
  | d :: ds => d.ids ++ Decl.idsList ds

end

@[simp] theorem Expr.idsList_eq (es : List Expr) : Expr.idsList es = es.flatMap Expr.ids := by
  induction es with
  | nil => rfl
  | cons e es ih => simp [Expr.idsList, ih]

@[simp] theorem Decl.idsList_eq (ds : List Decl) : Decl.idsList ds = ds.flatMap Decl.ids := by
  induction ds with
  | nil => rfl
  | cons d ds ih => simp [Decl.idsList, ih]

/-! ## Parts of declarations -/

/-- No part of the type is missing. -/
def TypeExpr.isComplete : TypeExpr → Bool
  | .absent _ => false
  | .atom _ _ | .named _ _ => true
  | .array _ _ element => element.isComplete

def Decl.isParam : Decl → Bool
  | .param _ _ _ => true
  | _ => false

def Decl.params : Decl → List Decl
  | .function _ _ params _ _ => params
  | _ => []

/-- The type that a declaration writes down; that of the result, for a function. -/
def Decl.type? : Decl → Option TypeExpr
  | .absent _ => none
  | .alias _ _ type | .param _ _ type | .var _ _ type _ => some type
  | .function _ _ _ result _ => some result

/-- What a declaration says about types. -/
def Decl.signature? : Decl → Option Signature
  | .absent _ => none
  | .alias site name type => some (.alias site name type)
  | .function _ _ params result _ => some (.function (params.map Decl.id) result)
  | .param _ _ type => some (.param type)
  | .var _ _ type _ => some (.var type)

/-! ## Variables of a function -/

mutual

/-- The variables of the scoped blocks of an expression, in the order of their places in a frame.
Functions keep theirs to themselves. -/
def Expr.locals : Expr → List NodeId
  | .absent _ | .hole _ | .literal _ _ | .name _ _ => []
  | .unary _ _ e => e.locals
  | .binary _ _ l r => l.locals ++ r.locals
  | .call _ _ args => Expr.localsList args
  | .block _ items => Expr.localsList items
  | .ifThen _ c t => c.locals ++ t.locals
  | .ifElse _ c t e => c.locals ++ t.locals ++ e.locals
  | .whileDo _ c b => c.locals ++ b.locals
  | .forDo _ c lo hi st b => c.locals ++ lo.locals ++ hi.locals ++ st.locals ++ b.locals
  | .scoped _ ds b => (ds.filter Decl.isVar).map Decl.id ++ Decl.localsList ds ++ b.locals
  | .assign _ t v => t.locals ++ v.locals

def Expr.localsList : List Expr → List NodeId
  | [] => []
  | e :: es => e.locals ++ Expr.localsList es

/-- The variables of the blocks in the initializer of a variable. -/
def Decl.locals : Decl → List NodeId
  | .var _ _ _ (some init) => init.locals
  | _ => []

def Decl.localsList : List Decl → List NodeId
  | [] => []
  | d :: ds => d.locals ++ Decl.localsList ds

end

theorem Decl.mem_localsList {x : NodeId} : x ∈ Decl.localsList ds ↔ ∃ d ∈ ds, x ∈ d.locals := by
  induction ds with
  | nil => simp [Decl.localsList]
  | cons d ds ih => simp [Decl.localsList, ih]

variable {d : Decl} {e : Expr} {F : Facts} {Γ : Env}

theorem Decl.locals_subset (h : d ∈ ds) :
    d.locals ⊆ Decl.localsList ds := fun _ hx => Decl.mem_localsList.2 ⟨d, h, hx⟩

/-- A function, or the initializers of globals, with its variables. -/
structure Level where
  /-- The declaration; the initializers have none. -/
  function : Option NodeId
  params : List NodeId
  locals : List NodeId

def Level.variables (l : Level) : List NodeId := l.params ++ l.locals

/-- The functions around a place, the innermost first. -/
abbrev Env := List Level

/-- The level of the body of a function. -/
def Decl.level (site : Site) (params : List Decl) (body : Expr) : Level where
  function := some site.id
  params := params.map Decl.id
  locals := body.locals

/-! ## Facts about all nodes -/

/-- Facts about expressions and declarations in their environments. -/
structure Facts where
  expr : Env → Expr → Prop
  decl : Env → Decl → Prop

mutual

/-- The facts hold of the expression and of everything in it. -/
def Expr.Everywhere (F : Facts) (Γ : Env) : Expr → Prop
  | .absent site => F.expr Γ (.absent site)
  | .hole site => F.expr Γ (.hole site)
  | .literal site l => F.expr Γ (.literal site l)
  | .name site x => F.expr Γ (.name site x)
  | .unary site op e => F.expr Γ (.unary site op e) ∧ e.Everywhere F Γ
  | .binary site op l r => F.expr Γ (.binary site op l r) ∧ l.Everywhere F Γ ∧ r.Everywhere F Γ
  | .call site f args => F.expr Γ (.call site f args) ∧ Expr.EverywhereList F Γ args
  | .block site items => F.expr Γ (.block site items) ∧ Expr.EverywhereList F Γ items
  | .ifThen site c t => F.expr Γ (.ifThen site c t) ∧ c.Everywhere F Γ ∧ t.Everywhere F Γ
  | .ifElse site c t e =>
    F.expr Γ (.ifElse site c t e) ∧ c.Everywhere F Γ ∧ t.Everywhere F Γ ∧ e.Everywhere F Γ
  | .whileDo site c b => F.expr Γ (.whileDo site c b) ∧ c.Everywhere F Γ ∧ b.Everywhere F Γ
  | .forDo site c lo hi st b =>
    F.expr Γ (.forDo site c lo hi st b) ∧ c.Everywhere F Γ ∧ lo.Everywhere F Γ ∧
      hi.Everywhere F Γ ∧ st.Everywhere F Γ ∧ b.Everywhere F Γ
  | .scoped site ds b =>
    F.expr Γ (.scoped site ds b) ∧ Decl.EverywhereList F Γ ds ∧ b.Everywhere F Γ
  | .assign site t v => F.expr Γ (.assign site t v) ∧ t.Everywhere F Γ ∧ v.Everywhere F Γ

def Expr.EverywhereList (F : Facts) (Γ : Env) : List Expr → Prop
  | [] => True
  | e :: es => e.Everywhere F Γ ∧ Expr.EverywhereList F Γ es

/-- The body of a function stands one level deeper than the function. -/
def Decl.Everywhere (F : Facts) (Γ : Env) : Decl → Prop
  | .absent site => F.decl Γ (.absent site)
  | .alias site x type => F.decl Γ (.alias site x type)
  | .param site x type => F.decl Γ (.param site x type)
  | .var site x type none => F.decl Γ (.var site x type none)
  | .var site x type (some init) => F.decl Γ (.var site x type (some init)) ∧ init.Everywhere F Γ
  | .function site f params result body =>
    F.decl Γ (.function site f params result body) ∧ Decl.EverywhereList F Γ params ∧
      body.Everywhere F (Decl.level site params body :: Γ)

def Decl.EverywhereList (F : Facts) (Γ : Env) : List Decl → Prop
  | [] => True
  | d :: ds => d.Everywhere F Γ ∧ Decl.EverywhereList F Γ ds

end

@[simp] theorem Expr.everywhereList_iff {F : Facts} {Γ : Env} {es : List Expr} :
    Expr.EverywhereList F Γ es ↔ ∀ e ∈ es, e.Everywhere F Γ := by
  induction es with
  | nil => simp [Expr.EverywhereList]
  | cons e es ih => simp [Expr.EverywhereList, ih]

@[simp] theorem Decl.everywhereList_iff {F : Facts} {Γ : Env} :
    Decl.EverywhereList F Γ ds ↔ ∀ d ∈ ds, d.Everywhere F Γ := by
  induction ds with
  | nil => simp [Decl.EverywhereList]
  | cons d ds ih => simp [Decl.EverywhereList, ih]

/-! ## Parts -/

/-- The declarations of a scoped block. -/
def Expr.items : Expr → List Decl
  | .scoped _ ds _ => ds
  | _ => []

/-- The expressions directly in an expression, in order. -/
def Expr.parts : Expr → List Expr
  | .absent _ | .hole _ | .literal _ _ | .name _ _ => []
  | .unary _ _ e | .scoped _ _ e => [e]
  | .binary _ _ l r | .ifThen _ l r | .whileDo _ l r | .assign _ l r => [l, r]
  | .call _ _ es | .block _ es => es
  | .ifElse _ c t e => [c, t, e]
  | .forDo _ c lo hi st b => [c, lo, hi, st, b]

/-- The initializer of a variable, the body of a function. -/
def Decl.body? : Decl → Option Expr
  | .var _ _ _ init => init
  | .function _ _ _ _ body => some body
  | _ => none

/-- The environment of the body of a declaration. -/
def Decl.inner (Γ : Env) : Decl → Env
  | .function site _ params _ body => Decl.level site params body :: Γ
  | _ => Γ

theorem Expr.sizeOf_part {c : Expr} (h : c ∈ e.parts) : sizeOf c < sizeOf e := by
  cases e with
  | call _ _ es | block _ es =>
    have := List.sizeOf_lt_of_mem (show c ∈ es from h)
    simp only [Expr.call.sizeOf_spec, Expr.block.sizeOf_spec]
    omega
  | _ =>
    simp [Expr.parts] at h
    try grind

theorem Expr.sizeOf_item (h : d ∈ e.items) : sizeOf d < sizeOf e := by
  cases e <;> simp only [Expr.items, List.not_mem_nil] at h
  have := List.sizeOf_lt_of_mem h
  simp only [Expr.scoped.sizeOf_spec]
  omega

theorem Decl.sizeOf_param {p : Decl} (h : p ∈ d.params) : sizeOf p < sizeOf d := by
  cases d <;> simp only [Decl.params, List.not_mem_nil] at h
  have := List.sizeOf_lt_of_mem h
  simp only [Decl.function.sizeOf_spec]
  omega

theorem Decl.sizeOf_body (h : e ∈ d.body?) : sizeOf e < sizeOf d := by
  cases d <;> cases h
  · simp only [Decl.function.sizeOf_spec]
    omega
  · simp only [Decl.var.sizeOf_spec, Option.some.sizeOf_spec]
    omega

theorem Expr.ids_eq (e : Expr) :
    e.ids = e.id :: (e.items.flatMap Decl.ids ++ e.parts.flatMap Expr.ids) := by
  cases e <;> simp [Expr.ids, Expr.id, Expr.site, Expr.items, Expr.parts]

theorem Decl.ids_eq (d : Decl) : d.ids = d.id :: (d.params.flatMap Decl.ids ++
    ((d.type?.toList.flatMap TypeExpr.ids) ++ d.body?.toList.flatMap Expr.ids)) := by
  cases d with
  | var _ _ _ init =>
    cases init <;> simp [Decl.ids, Decl.id, Decl.site, Decl.params, Decl.type?, Decl.body?]
  | _ => simp [Decl.ids, Decl.id, Decl.site, Decl.params, Decl.type?, Decl.body?]

theorem Decl.id_mem_ids (d : Decl) : d.id ∈ d.ids := by
  rw [Decl.ids_eq]
  exact List.mem_cons_self

theorem Expr.localsList_eq (es : List Expr) : Expr.localsList es = es.flatMap Expr.locals := by
  induction es with
  | nil => rfl
  | cons e es ih => simp [Expr.localsList, ih]

theorem Decl.localsList_eq (ds : List Decl) : Decl.localsList ds = ds.flatMap Decl.locals := by
  induction ds with
  | nil => rfl
  | cons d ds ih => simp [Decl.localsList, ih]

theorem Expr.locals_eq (e : Expr) : e.locals = (e.items.filter Decl.isVar).map Decl.id ++
    e.items.flatMap Decl.locals ++ e.parts.flatMap Expr.locals := by
  cases e <;> simp [Expr.locals, Expr.items, Expr.parts, Expr.localsList_eq, Decl.localsList_eq]

theorem Expr.mem_locals_iff {x : NodeId} : x ∈ e.locals ↔
    (∃ d ∈ e.items, d.isVar = true ∧ d.id = x) ∨ (∃ d ∈ e.items, x ∈ d.locals) ∨
      ∃ c ∈ e.parts, x ∈ c.locals := by
  rw [Expr.locals_eq]
  simp only [List.mem_append, List.mem_map, List.mem_filter, List.mem_flatMap, and_assoc, or_assoc]

theorem Decl.locals_param {p : Decl} (h : p.isParam = true) : p.locals = [] := by
  cases p with
  | param => rfl
  | _ => cases h

theorem Decl.mem_locals {x : NodeId} (h : x ∈ d.locals) :
    ∃ e ∈ d.body?, (∀ Γ, d.inner Γ = Γ) ∧ x ∈ e.locals := by
  cases d with
  | var _ _ _ init =>
    cases init with
    | none => cases h
    | some init => exact ⟨init, rfl, fun _ => rfl, h⟩
  | _ => cases h

theorem Decl.suffix_inner (Γ : Env) (d : Decl) : Γ <:+ d.inner Γ := by
  cases d with
  | function => exact List.suffix_cons _ _
  | _ => exact List.suffix_refl _

mutual

/-- What each piece of syntax takes over from its parts holds of all trees. -/
theorem Expr.byParts {P : Expr → Prop} {Q : Decl → Prop}
    (expr : ∀ e, (∀ d ∈ e.items, Q d) → (∀ c ∈ e.parts, P c) → P e)
    (decl : ∀ d, (∀ p ∈ d.params, Q p) → (∀ e ∈ d.body?, P e) → Q d) (e : Expr) : P e :=
  expr e (fun d _ => Decl.byParts expr decl d) (fun c _ => Expr.byParts expr decl c)
termination_by sizeOf e
decreasing_by
  · exact Expr.sizeOf_item ‹_›
  · exact Expr.sizeOf_part ‹_›

theorem Decl.byParts {P : Expr → Prop} {Q : Decl → Prop}
    (expr : ∀ e, (∀ d ∈ e.items, Q d) → (∀ c ∈ e.parts, P c) → P e)
    (decl : ∀ d, (∀ p ∈ d.params, Q p) → (∀ e ∈ d.body?, P e) → Q d) (d : Decl) : Q d :=
  decl d (fun p _ => Decl.byParts expr decl p) (fun e _ => Expr.byParts expr decl e)
termination_by sizeOf d
decreasing_by
  · exact Decl.sizeOf_param ‹_›
  · exact Decl.sizeOf_body ‹_›

end

theorem byParts {P : Expr → Prop} {Q : Decl → Prop}
    (expr : ∀ e, (∀ d ∈ e.items, Q d) → (∀ c ∈ e.parts, P c) → P e)
    (decl : ∀ d, (∀ p ∈ d.params, Q p) → (∀ e ∈ d.body?, P e) → Q d) :
    (∀ e, P e) ∧ ∀ d, Q d :=
  ⟨Expr.byParts expr decl, Decl.byParts expr decl⟩

section

variable {F : Facts} {Γ : Env}

theorem Expr.everywhere_iff {e : Expr} : e.Everywhere F Γ ↔ F.expr Γ e ∧
    (∀ d ∈ e.items, d.Everywhere F Γ) ∧ ∀ c ∈ e.parts, c.Everywhere F Γ := by
  cases e <;> simp [Expr.Everywhere, Expr.items, Expr.parts]

theorem Decl.everywhere_iff {d : Decl} : d.Everywhere F Γ ↔ F.decl Γ d ∧
    (∀ p ∈ d.params, p.Everywhere F Γ) ∧ ∀ e ∈ d.body?, e.Everywhere F (d.inner Γ) := by
  cases d with
  | var _ _ _ init => cases init <;> simp [Decl.Everywhere, Decl.params, Decl.body?, Decl.inner]
  | _ => simp [Decl.Everywhere, Decl.params, Decl.body?, Decl.inner]

theorem Expr.Everywhere.here {e : Expr} (h : e.Everywhere F Γ) : F.expr Γ e :=
  (Expr.everywhere_iff.1 h).1

theorem Decl.Everywhere.here {d : Decl} (h : d.Everywhere F Γ) : F.decl Γ d :=
  (Decl.everywhere_iff.1 h).1

end

/-- No node is missing, declarations stand where they may, and their signatures are known. -/
def complete (signatures : NodeTable Signature) : Facts where
  expr _ e :=
    match e with
    | .absent _ => False
    | .scoped _ ds _ => ∀ d ∈ ds, d.isParam = false
    | _ => True
  decl _ d :=
    ∃ signature, d.signature? = some signature ∧ signatures.get? d.id = some signature ∧
      (∀ type, d.type? = some type → type.isComplete = true) ∧ ∀ p ∈ d.params, p.isParam = true

/-- What a node is. -/
inductive NodeSort where
  /-- A name or a call. -/
  | reference
  | expression
  | declaration
  | typeExpr
  deriving DecidableEq

def Expr.sort : Expr → NodeSort
  | .name _ _ | .call _ _ _ => .reference
  | _ => .expression

/-- The sort of each node is that of its identity. -/
def sorted (sort : NodeId → NodeSort) : Facts where
  expr _ e := sort e.id = e.sort
  decl _ d := sort d.id = .declaration ∧
    ∀ type, d.type? = some type → ∀ id ∈ type.ids, sort id = .typeExpr

def Facts.and (F G : Facts) : Facts where
  expr Γ e := F.expr Γ e ∧ G.expr Γ e
  decl Γ d := F.decl Γ d ∧ G.decl Γ d

theorem everywhere_zip {G H : Facts} (he : ∀ Γ e, F.expr Γ e → G.expr Γ e → H.expr Γ e)
    (hd : ∀ Γ d, F.decl Γ d → G.decl Γ d → H.decl Γ d) :
    (∀ (e : Expr) Γ, e.Everywhere F Γ → e.Everywhere G Γ → e.Everywhere H Γ) ∧
    ∀ (d : Decl) Γ, d.Everywhere F Γ → d.Everywhere G Γ → d.Everywhere H Γ := by
  apply byParts
  · intro e items parts Γ hf hg
    rw [Expr.everywhere_iff] at hf hg ⊢
    exact ⟨he Γ e hf.1 hg.1, fun d h => items d h Γ (hf.2.1 d h) (hg.2.1 d h),
      fun c h => parts c h Γ (hf.2.2 c h) (hg.2.2 c h)⟩
  · intro d params body Γ hf hg
    rw [Decl.everywhere_iff] at hf hg ⊢
    exact ⟨hd Γ d hf.1 hg.1, fun p h => params p h Γ (hf.2.1 p h) (hg.2.1 p h),
      fun e h => body e h _ (hf.2.2 e h) (hg.2.2 e h)⟩

/-- Facts that follow from others at each node follow everywhere. -/
theorem Decl.Everywhere.zip {G H : Facts} (he : ∀ Γ e, F.expr Γ e → G.expr Γ e → H.expr Γ e)
    (hd : ∀ Γ d, F.decl Γ d → G.decl Γ d → H.decl Γ d) (d : Decl) (hf : d.Everywhere F Γ)
    (hg : d.Everywhere G Γ) : d.Everywhere H Γ :=
  (everywhere_zip he hd).2 d Γ hf hg

theorem Decl.isVar_of_isFunction (h : d.isFunction = true) : d.isVar = false := by
  cases d with
  | function => rfl
  | _ => cases h

/-! ## Declarations of a program -/

mutual

/-- The declarations in an expression, with the environments they stand in. -/
def Expr.declarations (Γ : Env) : Expr → List (Env × Decl)
  | .absent _ | .hole _ | .literal _ _ | .name _ _ => []
  | .unary _ _ e => e.declarations Γ
  | .binary _ _ l r => l.declarations Γ ++ r.declarations Γ
  | .call _ _ args => Expr.declarationsList Γ args
  | .block _ items => Expr.declarationsList Γ items
  | .ifThen _ c t => c.declarations Γ ++ t.declarations Γ
  | .ifElse _ c t e => c.declarations Γ ++ t.declarations Γ ++ e.declarations Γ
  | .whileDo _ c b => c.declarations Γ ++ b.declarations Γ
  | .forDo _ c lo hi st b =>
    c.declarations Γ ++ lo.declarations Γ ++ hi.declarations Γ ++ st.declarations Γ ++
      b.declarations Γ
  | .scoped _ ds b => Decl.declarationsList Γ ds ++ b.declarations Γ
  | .assign _ t v => t.declarations Γ ++ v.declarations Γ

def Expr.declarationsList (Γ : Env) : List Expr → List (Env × Decl)
  | [] => []
  | e :: es => e.declarations Γ ++ Expr.declarationsList Γ es

/-- A declaration and those in it. -/
def Decl.declarations (Γ : Env) : Decl → List (Env × Decl)
  | .absent site => [(Γ, .absent site)]
  | .alias site x type => [(Γ, .alias site x type)]
  | .param site x type => [(Γ, .param site x type)]
  | .var site x type none => [(Γ, .var site x type none)]
  | .var site x type (some init) => (Γ, .var site x type (some init)) :: init.declarations Γ
  | .function site f params result body =>
    (Γ, .function site f params result body) :: (Decl.declarationsList Γ params ++
      body.declarations (Decl.level site params body :: Γ))

def Decl.declarationsList (Γ : Env) : List Decl → List (Env × Decl)
  | [] => []
  | d :: ds => d.declarations Γ ++ Decl.declarationsList Γ ds

end

theorem Expr.declarationsList_eq (Γ : Env) (es : List Expr) :
    Expr.declarationsList Γ es = es.flatMap (Expr.declarations Γ) := by
  induction es with
  | nil => rfl
  | cons e es ih => simp [Expr.declarationsList, ih]

theorem Decl.declarationsList_eq (Γ : Env) (ds : List Decl) :
    Decl.declarationsList Γ ds = ds.flatMap (Decl.declarations Γ) := by
  induction ds with
  | nil => rfl
  | cons d ds ih => simp [Decl.declarationsList, ih]

theorem Expr.declarations_eq (Γ : Env) (e : Expr) : e.declarations Γ =
    e.items.flatMap (Decl.declarations Γ) ++ e.parts.flatMap (Expr.declarations Γ) := by
  cases e <;> simp [Expr.declarations, Expr.items, Expr.parts, Expr.declarationsList_eq,
    Decl.declarationsList_eq]

theorem Decl.declarations_eq (Γ : Env) (d : Decl) : d.declarations Γ =
    (Γ, d) :: (d.params.flatMap (Decl.declarations Γ) ++
      d.body?.toList.flatMap (Expr.declarations (d.inner Γ))) := by
  cases d with
  | var _ _ _ init => cases init <;> simp [Decl.declarations, Decl.params, Decl.body?, Decl.inner]
  | _ => simp [Decl.declarations, Decl.params, Decl.body?, Decl.inner, Decl.declarationsList_eq]

theorem Expr.mem_declarations_iff {x : Env × Decl} :
    x ∈ e.declarations Γ ↔
      (∃ d ∈ e.items, x ∈ d.declarations Γ) ∨ ∃ c ∈ e.parts, x ∈ c.declarations Γ := by
  rw [Expr.declarations_eq, List.mem_append, List.mem_flatMap, List.mem_flatMap]

theorem Decl.mem_declarations_iff {x : Env × Decl} :
    x ∈ d.declarations Γ ↔ x = (Γ, d) ∨ (∃ p ∈ d.params, x ∈ p.declarations Γ) ∨
      ∃ e ∈ d.body?, x ∈ e.declarations (d.inner Γ) := by
  rw [Decl.declarations_eq, List.mem_cons, List.mem_append, List.mem_flatMap, List.mem_flatMap]
  simp only [Option.mem_toList, Option.mem_def]

theorem Decl.mem_declarations (Γ : Env) (d : Decl) : (Γ, d) ∈ d.declarations Γ :=
  Decl.mem_declarations_iff.2 (.inl rfl)

theorem declarations_ids :
    (∀ (e : Expr) Γ, ((e.declarations Γ).map fun x => x.2.id).Sublist e.ids) ∧
    ∀ (d : Decl) Γ, ((d.declarations Γ).map fun x => x.2.id).Sublist d.ids := by
  apply byParts
  · intro e items parts Γ
    rw [Expr.declarations_eq, Expr.ids_eq, List.map_append, List.map_flatMap, List.map_flatMap]
    exact ((List.Sublist.flatMap_right _ fun d h => items d h Γ).append
      (List.Sublist.flatMap_right _ fun c h => parts c h Γ)).cons _
  · intro d params body Γ
    rw [Decl.declarations_eq, Decl.ids_eq, List.map_cons, List.map_append, List.map_flatMap,
      List.map_flatMap]
    exact ((List.Sublist.flatMap_right _ fun p h => params p h Γ).append
      ((List.Sublist.flatMap_right _ fun e h =>
      body e (Option.mem_toList.1 h) _).trans (List.sublist_append_right _ _))).cons_cons _

/-- Declarations come in the order of their nodes. -/
theorem Decl.declarations_sublist (d : Decl) :
    ((d.declarations Γ).map fun x => x.2.id).Sublist d.ids :=
  declarations_ids.2 d Γ

theorem declarations_deeper {x : Env × Decl} :
    (∀ (e : Expr) Γ, x ∈ e.declarations Γ → Γ <:+ x.1) ∧
    ∀ (d : Decl) Γ, x ∈ d.declarations Γ → Γ <:+ x.1 := by
  apply byParts
  · intro e items parts Γ h
    rcases Expr.mem_declarations_iff.1 h with ⟨d, hd, h⟩ | ⟨c, hc, h⟩
    · exact items d hd Γ h
    · exact parts c hc Γ h
  · intro d params body Γ h
    rcases Decl.mem_declarations_iff.1 h with rfl | ⟨p, hp, h⟩ | ⟨e, he, h⟩
    · exact List.suffix_refl _
    · exact params p hp Γ h
    · exact (d.suffix_inner Γ).trans (body e he _ h)

/-- What is declared inside a piece of syntax stands in its environment or deeper. -/
theorem Expr.declarations_suffix {x : Env × Decl} (e : Expr) (h : x ∈ e.declarations Γ) :
    Γ <:+ x.1 :=
  declarations_deeper.1 e Γ h

theorem Decl.declarations_suffix {x : Env × Decl} (d : Decl) (h : x ∈ d.declarations Γ) :
    Γ <:+ x.1 :=
  declarations_deeper.2 d Γ h

theorem locals_among_declarations {x : NodeId} :
    (∀ (e : Expr) Γ, x ∈ e.locals → ∃ d, (Γ, d) ∈ e.declarations Γ ∧ d.id = x ∧ d.isVar = true) ∧
    ∀ (d : Decl) Γ, x ∈ d.locals →
      ∃ d', (Γ, d') ∈ d.declarations Γ ∧ d'.id = x ∧ d'.isVar = true := by
  apply byParts
  · intro e items parts Γ h
    rcases Expr.mem_locals_iff.1 h with ⟨d, hd, isVar, rfl⟩ | ⟨d, hd, h⟩ | ⟨c, hc, h⟩
    · exact ⟨d, Expr.mem_declarations_iff.2 (.inl ⟨d, hd, d.mem_declarations Γ⟩), rfl, isVar⟩
    · obtain ⟨v, mem, own⟩ := items d hd Γ h
      exact ⟨v, Expr.mem_declarations_iff.2 (.inl ⟨d, hd, mem⟩), own⟩
    · obtain ⟨v, mem, own⟩ := parts c hc Γ h
      exact ⟨v, Expr.mem_declarations_iff.2 (.inr ⟨c, hc, mem⟩), own⟩
  · intro d _ body Γ h
    obtain ⟨e, he, same, h⟩ := Decl.mem_locals h
    obtain ⟨v, mem, own⟩ := body e he Γ h
    rw [← same Γ] at mem
    exact ⟨v, Decl.mem_declarations_iff.2 (.inr (.inr ⟨e, he, by rwa [same Γ] at mem ⊢⟩)), own⟩

/-- The variables of the blocks of an expression are declared in it, in its own environment. -/
theorem Expr.locals_declared {x : NodeId} (e : Expr) (h : x ∈ e.locals) :
    ∃ d, (Γ, d) ∈ e.declarations Γ ∧ d.id = x ∧ d.isVar = true :=
  locals_among_declarations.1 e Γ h

theorem Decl.locals_declared {x : NodeId} (d : Decl) (h : x ∈ d.locals) :
    ∃ d', (Γ, d') ∈ d.declarations Γ ∧ d'.id = x ∧ d'.isVar = true :=
  locals_among_declarations.2 d Γ h

theorem everywhere_declarations {Γ' : Env} :
    (∀ (e : Expr) Γ, e.Everywhere F Γ → (Γ', d) ∈ e.declarations Γ → d.Everywhere F Γ') ∧
    ∀ (d' : Decl) Γ, d'.Everywhere F Γ → (Γ', d) ∈ d'.declarations Γ → d.Everywhere F Γ' := by
  apply byParts
  · intro e items parts Γ hf h
    obtain ⟨_, inItems, inParts⟩ := Expr.everywhere_iff.1 hf
    rcases Expr.mem_declarations_iff.1 h with ⟨d, hd, h⟩ | ⟨c, hc, h⟩
    · exact items d hd Γ (inItems d hd) h
    · exact parts c hc Γ (inParts c hc) h
  · intro d' params body Γ hf h
    obtain ⟨_, inParams, inBody⟩ := Decl.everywhere_iff.1 hf
    rcases Decl.mem_declarations_iff.1 h with heq | ⟨p, hp, h⟩ | ⟨e, he, h⟩
    · cases heq
      exact hf
    · exact params p hp Γ (inParams p hp) h
    · exact body e he _ (inBody e he) h

/-- Facts hold of the declarations in an expression and of everything in them. -/
theorem Expr.Everywhere.declarations {Γ' : Env} (e : Expr) (hf : e.Everywhere F Γ)
    (h : (Γ', d) ∈ e.declarations Γ) : d.Everywhere F Γ' :=
  everywhere_declarations.1 e Γ hf h

/-! ## Plain expressions -/

/-- Expressions that neither declare nor name anything themselves. -/
def Expr.isPlain : Expr → Bool
  | .absent _ | .hole _ | .name _ _ | .scoped _ _ _ => false
  | _ => true

section

variable {e : Expr} (plain : e.isPlain = true)

include plain

theorem Expr.items_plain : e.items = [] := by
  cases e <;> first | rfl | cases plain

theorem Expr.ids_plain : e.ids = e.id :: Expr.idsList e.parts := by
  rw [Expr.ids_eq, Expr.items_plain plain, Expr.idsList_eq]
  rfl

theorem Expr.locals_plain : e.locals = Expr.localsList e.parts := by
  rw [Expr.locals_eq, Expr.items_plain plain, Expr.localsList_eq]
  rfl

theorem Expr.everywhere_plain {F : Facts} {Γ : Env} :
    e.Everywhere F Γ ↔ F.expr Γ e ∧ Expr.EverywhereList F Γ e.parts := by
  rw [Expr.everywhere_iff, Expr.items_plain plain, Expr.everywhereList_iff]
  simp

end

namespace Source

/-- The level at which the initializers of globals run. -/
def init (source : Source) : Level where
  function := none
  params := []
  locals := Decl.localsList (source.definitions.filter Decl.isVar)

/-- The environment of a declaration of the top level. -/
def envOf (source : Source) (d : Decl) : Env := if d.isVar then [source.init] else []

def Everywhere (F : Facts) (source : Source) : Prop :=
  ∀ d ∈ source.definitions, d.Everywhere F (source.envOf d)

/-- All declarations of a program, with their environments. -/
def declarations (source : Source) : List (Env × Decl) :=
  source.definitions.flatMap fun d => d.declarations (source.envOf d)

def globals (source : Source) : List NodeId := (source.definitions.filter Decl.isVar).map Decl.id

/-- The environments of a program: each level is that of a function declared in the rest. -/
inductive Scope (source : Source) : Env → Prop
  | top : Scope source []
  | init : Scope source [source.init]
  | function {Γ : Env} {site : Site} {f : String} {params : List Decl} {result : TypeExpr}
      {body : Expr} (outer : Scope source Γ)
      (declared : (Γ, .function site f params result body) ∈ source.declarations) :
    Scope source (Decl.level site params body :: Γ)

end Source

/-- The variables of the blocks of the innermost function. -/
def Env.locals (Γ : Env) : List NodeId := (Γ.head?.map Level.locals).getD []

/-- Everything stands in an environment of the program, and blocks have the variables of the
innermost function. -/
def listed (source : Source) : Facts where
  expr Γ e := source.Scope Γ ∧ e.locals ⊆ Env.locals Γ
  decl Γ d := source.Scope Γ ∧ (Γ, d) ∈ source.declarations

section

variable {source : Source} {signatures : NodeTable Signature}

theorem everywhere_listed :
    (∀ (e : Expr) Γ, e.Everywhere (complete signatures) Γ → source.Scope Γ →
      e.declarations Γ ⊆ source.declarations → e.locals ⊆ Env.locals Γ →
      e.Everywhere (listed source) Γ) ∧
    ∀ (d : Decl) Γ, d.Everywhere (complete signatures) Γ → source.Scope Γ →
      d.declarations Γ ⊆ source.declarations → d.locals ⊆ Env.locals Γ →
      d.Everywhere (listed source) Γ := by
  apply byParts
  · intro e items parts Γ hc hs h hl
    obtain ⟨_, inItems, inParts⟩ := Expr.everywhere_iff.1 hc
    refine Expr.everywhere_iff.2 ⟨⟨hs, hl⟩, fun d hd => ?_, fun c hc => ?_⟩
    · exact items d hd Γ (inItems d hd) hs
        (fun x hx => h (Expr.mem_declarations_iff.2 (.inl ⟨d, hd, hx⟩)))
        fun x hx => hl (Expr.mem_locals_iff.2 (.inr (.inl ⟨d, hd, hx⟩)))
    · exact parts c hc Γ (inParts c hc) hs
        (fun x hx => h (Expr.mem_declarations_iff.2 (.inr ⟨c, hc, hx⟩)))
        fun x hx => hl (Expr.mem_locals_iff.2 (.inr (.inr ⟨c, hc, hx⟩)))
  · intro d params body Γ hc hs h hl
    obtain ⟨⟨_, _, _, _, isParam⟩, inParams, inBody⟩ := Decl.everywhere_iff.1 hc
    have declared := h (Decl.mem_declarations Γ d)
    refine Decl.everywhere_iff.2 ⟨⟨hs, declared⟩, fun p hp => ?_, fun e he => ?_⟩
    · refine params p hp Γ (inParams p hp) hs
        (fun x hx => h (Decl.mem_declarations_iff.2 (.inr (.inl ⟨p, hp, hx⟩)))) ?_
      rw [Decl.locals_param (isParam p hp)]
      exact List.nil_subset _
    · have inner : e.declarations (d.inner Γ) ⊆ source.declarations := fun x hx =>
        h (Decl.mem_declarations_iff.2 (.inr (.inr ⟨e, he, hx⟩)))
      cases d with
      | function =>
        cases he
        exact body _ rfl _ (inBody _ rfl) (.function hs declared) inner (List.Subset.refl _)
      | var =>
        cases he
        exact body _ rfl _ (inBody _ rfl) hs inner hl
      | _ => cases he

end

namespace Source

theorem Scope.envOf (source : Source) (d : Decl) : source.Scope (source.envOf d) := by
  unfold Source.envOf
  split
  · exact .init
  · exact .top

variable {source : Source} {F G : Facts}

/-- What is around a place stands in its own environment. -/
theorem Scope.drop {Γ : Env} (scope : source.Scope Γ) (n : Nat) : source.Scope (Γ.drop n) := by
  induction scope generalizing n with
  | top => simpa using .top
  | init =>
    cases n with
    | zero => exact .init
    | succ n => simpa using .top
  | function outer declared ih =>
    cases n with
    | zero => exact .function outer declared
    | succ n => exact ih n

theorem everywhere_listed {signatures : NodeTable Signature}
    (hc : source.Everywhere (complete signatures)) : source.Everywhere (listed source) := by
  intro d hd
  refine Syntax.everywhere_listed.2 d _ (hc d hd) (.envOf source d)
    (fun _ hx => List.mem_flatMap.2 ⟨d, hd, hx⟩) ?_
  cases d with
  | var => exact Decl.locals_subset (List.mem_filter.2 ⟨hd, rfl⟩)
  | _ => exact List.nil_subset _

theorem Everywhere.zip {H : Facts} (hf : source.Everywhere F) (hg : source.Everywhere G)
    (he : ∀ Γ e, F.expr Γ e → G.expr Γ e → H.expr Γ e)
    (hd : ∀ Γ d, F.decl Γ d → G.decl Γ d → H.decl Γ d) : source.Everywhere H :=
  fun d h => Decl.Everywhere.zip he hd d (hf d h) (hg d h)

theorem Everywhere.and (hf : source.Everywhere F) (hg : source.Everywhere G) :
    source.Everywhere (F.and G) :=
  hf.zip hg (fun _ _ => And.intro) (fun _ _ => And.intro)

theorem Everywhere.left (h : source.Everywhere (F.and G)) : source.Everywhere F :=
  h.zip h (fun _ _ hf _ => hf.1) (fun _ _ hf _ => hf.1)

theorem Everywhere.right (h : source.Everywhere (F.and G)) : source.Everywhere G :=
  h.zip h (fun _ _ hf _ => hf.2) (fun _ _ hf _ => hf.2)

/-- Globals stand in the level of their initializers. -/
theorem Everywhere.vars (h : source.Everywhere F) :
    Decl.EverywhereList F [source.init] (source.definitions.filter Decl.isVar) := by
  rw [Decl.everywhereList_iff]
  intro d hd
  obtain ⟨mem, isVar⟩ := List.mem_filter.1 hd
  have facts := h d mem
  rwa [Source.envOf, if_pos isVar] at facts

/-- Functions of the top level stand in no other function. -/
theorem Everywhere.functions (h : source.Everywhere F) :
    Decl.EverywhereList F [] (source.definitions.filter Decl.isFunction) := by
  rw [Decl.everywhereList_iff]
  intro d hd
  obtain ⟨mem, isFunction⟩ := List.mem_filter.1 hd
  have facts := h d mem
  rwa [Source.envOf, if_neg (by simp [Decl.isVar_of_isFunction isFunction])] at facts

theorem Everywhere.declarations (h : source.Everywhere F) {Γ : Env} {d : Decl}
    (hd : (Γ, d) ∈ source.declarations) : d.Everywhere F Γ := by
  obtain ⟨d', hd', hf⟩ := List.mem_flatMap.1 hd
  exact everywhere_declarations.2 d' _ (h d' hd') hf

end Source

end PinsBackend.Syntax
