import PinsBackend.Proofs.Meaning.Calls

/-! What lowered code means.

The induction over the rules of lowering puts the constructs together: the code of each piece of a
program does what the piece does, with the temporaries that were given out for it. -/
namespace PinsBackend.Meaning

open Ir Kinds Safety
open Lowering (Lowers Piece Code Callee Indexed addressExpr elementExpr labelName form)
open Syntax (Decl Env Has Level Site Source)

/-! ## Meanings of constructs -/

section

attribute [local simp] exprs expr

variable (M : Context) (call : NodeId → List Datum → RunM Datum) (limit : Nat) (site : Site)

theorem exprs_eq (es : List Syntax.Expr) : exprs M call limit es = es.mapM (expr M call limit) := by
  induction es with
  | nil => simp
  | cons e es ih => simp [List.mapM_cons, ih]

theorem expr_unary (op : Syntax.UnaryOp) (e : Syntax.Expr) : expr M call limit (.unary site op e) =
    ((expr M call limit e >>= Datum.toWord) >>= fun v => lift (unary op v)) >>= fun v =>
    pure (.word v) := by
  simp only [expr, bind_assoc]

theorem expr_direct {op : Syntax.BinaryOp} {op' : BinOp} (hop : form op = .direct op')
    (l r : Syntax.Expr) :
    expr M call limit (.binary site op l r) =
      ((expr M call limit l >>= Datum.toWord) >>= fun u =>
        (expr M call limit r >>= Datum.toWord) >>= fun v =>
        lift (op'.apply u v)) >>= fun v => pure (.word v) := by
  cases op <;> cases hop <;> simp only [expr, operate, bind_assoc]

theorem expr_shortCircuit (conjunction : Bool) {op : Syntax.BinaryOp}
    (hop : form op = if conjunction then .conjunction else .disjunction) (l r : Syntax.Expr) :
    expr M call limit (.binary site op l r) =
      (expr M call limit l >>= Datum.toWord) >>= fun v => lift v.isTruthy >>= fun flag =>
        if flag = conjunction then expr M call limit r else pure (.word v) := by
  have swap (flag : Bool) (x y : RunM Datum) : (if flag = true then x else y) =
      if flag = false then y else x := by
    cases flag <;> rfl
  cases conjunction <;> cases op <;> cases hop
  · simp only [expr, bind_assoc, swap]
  · simp only [expr, bind_assoc]

theorem location_index (l r : Syntax.Expr) : location M call limit (.binary site .index l r) =
    (expr M call limit l >>= Datum.toPlace) >>= fun base =>
    (expr M call limit r >>= Datum.toWord) >>= fun index =>
      element M l.id base index := by
  simp only [location, bind_assoc]

theorem expr_index (l r : Syntax.Expr) : expr M call limit (.binary site .index l r) =
    location M call limit (.binary site .index l r) >>= fun p =>
      if isArrayOfArrays M l.id then pure (.place p) else load p := by
  simp only [expr, location, bind_assoc]

theorem expr_block (es : List Syntax.Expr) : expr M call limit (.block site es) =
    es.mapM (expr M call limit) >>= fun ds => pure (ds.getLastD (.word .zero)) := by
  simp only [expr, exprs_eq]

theorem expr_ifThen (c b : Syntax.Expr) : expr M call limit (.ifThen site c b) =
    ((expr M call limit c >>= Datum.toWord) >>= fun v => lift v.isTruthy >>= fun flag =>
      if flag then expr M call limit b >>= fun _ => pure () else pure ()) >>= fun _ =>
        pure (.word .zero) := by
  simp only [expr, bind_assoc]
  congr; funext d; congr; funext v; congr; funext flag
  cases flag <;> simp

theorem expr_ifElse (c t e : Syntax.Expr) : expr M call limit (.ifElse site c t e) =
    (expr M call limit c >>= Datum.toWord) >>= fun v => lift v.isTruthy >>= fun flag =>
      if flag then expr M call limit t else expr M call limit e := by
  simp only [expr, bind_assoc]

theorem expr_whileDo (c b : Syntax.Expr) : expr M call limit (.whileDo site c b) =
    repeatWhile ((expr M call limit c >>= Datum.toWord) >>= fun v => lift v.isTruthy)
      (expr M call limit b >>= fun _ => pure ()) limit >>= fun _ => pure (.word .zero) := by
  simp only [expr, bind_assoc]

theorem expr_forDo (c lo hi st b : Syntax.Expr) : expr M call limit (.forDo site c lo hi st b) =
    (location M call limit c >>= fun p => expr M call limit lo >>= fun d => store p d >>= fun _ =>
      (expr M call limit hi >>= Datum.toWord) >>= fun high =>
        (expr M call limit st >>= Datum.toWord) >>= fun step =>
        repeatWhile (below p high >>= fun v => lift v.isTruthy)
          (expr M call limit b >>= fun _ => advance p step) limit) >>= fun _ =>
          pure (.word .zero) := by
  have whole (x : Except Fault Value) (f : Value → Except Fault Bool) :
      (lift (x >>= f) : RunM Bool) = lift x >>= fun v => lift (f v) := by
    cases x <;> rfl
  simp only [expr, bind_assoc, below, advance, whole]

theorem expr_scoped (ds : List Decl) (b : Syntax.Expr) : expr M call limit (.scoped site ds b) =
    decls M call limit ds >>= fun _ => expr M call limit b := by
  simp only [expr]

theorem expr_assign (target v : Syntax.Expr) : expr M call limit (.assign site target v) =
    expr M call limit v >>= fun d => location M call limit target >>= fun p =>
    store p d >>= fun _ => pure d := by
  simp only [expr]

theorem decl_silent {d : Decl} (noInit : ∀ site x type init, d ≠ .var site x type (some init)) :
    decl M call limit d = pure () := by
  rw [decl]
  exact noInit

end

/-! ## Pieces -/

/-- A machine that runs the code of a program, and the calls of the source that are compared with
it. -/
structure Run where
  top : Int
  setting : Nested.Setting
  call : NodeId → List Datum → RunM Datum
  /-- How often loops of the source turn. -/
  limit : Nat
  /-- How much fuel the code may have where the source has too little. -/
  bound : Nat

section

variable (source : Source) (ctx : Lowering.Context) (R : Run) (Γ : Env) (lo hi : Nat)

abbrev Run.world : World := worldOf source ctx R.top R.setting

/-- Calls do what the code of their callees does. -/
structure Run.Good : Prop where
  calls : Calls (R.world source ctx) R.bound R.call
  le : R.bound ≤ R.limit
  builtins : ∀ b, source.IsBuiltin b → R.setting.program.chunk? b.name = none

/-- Code gives the value of an expression, which has the kind of its type. -/
def Agrees (e : Syntax.Expr) (r : Expr) : Prop :=
  ∃ τ k, ctx.types.get? e.id = some τ ∧ (τ.isData = true → k = τ.kind) ∧
    Means (R.world source ctx) R.bound Γ lo hi k (expr (tables source ctx) R.call R.limit e) r

/-- Code gives the address of an atomic variable or element. -/
def AgreesAt (e : Syntax.Expr) (r : Expr) : Prop :=
  ∃ a τ, r = .mem a ∧ ctx.types.get? e.id = some τ ∧ (τ.isAtomic = true → ∃ n, 0 < n ∧
    Points (R.world source ctx) R.bound Γ lo hi (.word τ.leaf) n
      (location (tables source ctx) R.call R.limit e) a)

/-- Data of this kind may be the value of an expression. -/
def Suits (e : Syntax.Expr) (k : Kind) : Prop :=
  ∃ τ, ctx.types.get? e.id = some τ ∧ (τ.isData = true → k = τ.kind)

def Follows : Piece → Code → Prop
  | .expr e, .value r => Agrees source ctx R Γ lo hi e r
  | .location e, .value r => AgreesAt source ctx R Γ lo hi e r
  | .exprs es, .values rs => List.Forall₂ (Agrees source ctx R Γ lo hi) es rs
  | .arguments es, .moves ss temps =>
    ∃ ts ks, temps = ts.map .temp ∧ List.Forall₂ (Suits ctx) es ks ∧
    Passes (R.world source ctx) R.bound Γ lo hi ks
      (exprs (tables source ctx) R.call R.limit es) ss ts
  | .decl d, .stmts ss =>
    Executes (R.world source ctx) R.bound Γ lo hi (decl (tables source ctx) R.call R.limit d) ss
  | .decls ds, .stmts ss =>
    Executes (R.world source ctx) R.bound Γ lo hi (decls (tables source ctx) R.call R.limit ds) ss
  | _, _ => False

/-- Code that is the body of a function. -/
def ChunkAgrees (c : Chunk Stmt) : Prop :=
  ∃ Γ site f params result body r hi, (Γ, .function site f params result body) ∈
    source.declarations ∧
    ctx.layout.frames.get? site.id = some c.frame ∧ c.body = .move (.temp Temp.rv) r ∧
    ∀ R : Run, R.Good source ctx →
      Agrees source ctx R (Decl.level site params body :: Γ) Temp.firstFree hi body r

end

section

variable {size : Int} {d : NodeId} {es : List Syntax.Expr} {ks : List Kind} {ps : List Ty}
  {piece : Piece}

variable {source : Source} {ctx : Lowering.Context} {t : Layout.Tables}
  {sort : NodeId → Syntax.NodeSort}
  {R : Run} {Γ : Env} {lo hi t' : Nat} {e l i c : Syntax.Expr} {r a condition : Expr} {site : Site}
  {length : Int} {x : String} {access : Access}

theorem Agrees.widen (h : Agrees source ctx R Γ lo hi e r) {lo' hi' : Nat} (le : lo' ≤ lo)
    (le' : hi ≤ hi') :
    Agrees source ctx R Γ lo' hi' e r := by
  obtain ⟨τ, k, type, kind, value⟩ := h
  exact ⟨τ, k, type, kind, value.widen le le'⟩

theorem AgreesAt.widen (h : AgreesAt source ctx R Γ lo hi e r) {lo' hi' : Nat} (le : lo' ≤ lo)
    (le' : hi ≤ hi') :
    AgreesAt source ctx R Γ lo' hi' e r := by
  obtain ⟨a, τ, eq, type, address⟩ := h
  exact ⟨a, τ, eq, type, fun atomic => (address atomic).imp fun _ ⟨pos, points⟩ =>
    ⟨pos, points.widen le le'⟩⟩

theorem scoping (h : e.Everywhere (found source ctx t sort) Γ) : source.Scope Γ :=
  h.here.2.2.2.2.2.1

/-- An expression of some type of values has the kind of that type. -/
theorem Agrees.has (h : Agrees source ctx R Γ lo hi e r) {τ : Ty} (has : Has ctx.types e.id τ)
    (data : τ.isData = true) : Means (R.world source ctx) R.bound Γ lo hi τ.kind
      (expr (tables source ctx) R.call R.limit e) r := by
  obtain ⟨τ', k, type, kind, value⟩ := h
  obtain ⟨τ'', type', same⟩ := has
  rw [type] at type'
  cases type'
  rw [same.kind, ← kind (same.isData ▸ data)]
  exact value

theorem Agrees.integer (h : Agrees source ctx R Γ lo hi e r) (has : Has ctx.types e.id .integer) :
    Means (R.world source ctx) R.bound Γ lo hi (.word .integer)
      (expr (tables source ctx) R.call R.limit e) r :=
  h.has has rfl

theorem Agrees.logical (h : Agrees source ctx R Γ lo hi e r) (has : Has ctx.types e.id .logical) :
    Means (R.world source ctx) R.bound Γ lo hi (.word .integer)
      (expr (tables source ctx) R.call R.limit e) r :=
  h.has has rfl

theorem agrees_literal {l : Syntax.Literal}
    (facts : (Syntax.Expr.literal site l).Everywhere (found source ctx t sort) Γ) :
    Agrees source ctx R Γ lo hi (.literal site l) (.const (Lowering.literal l)) := by
  obtain ⟨τ, typed, -, rfl⟩ := typing facts
  refine ⟨_, _, typed, fun _ => rfl, ?_⟩
  have value : Means (R.world source ctx) R.bound Γ lo hi _ _ _ := means_const (Lowering.literal l)
  rw [expr]
  cases l with
  | integer n => exact value
  | logical b => cases b <;> exact value
  | string s => exact value

theorem agrees_unary {op : Syntax.UnaryOp}
    (facts : (Syntax.Expr.unary site op e).Everywhere (found source ctx t sort) Γ)
    (operand : Agrees source ctx R Γ lo hi e r) :
    Agrees source ctx R Γ lo hi (.unary site op e) (Lowering.unary op r) := by
  obtain ⟨τ, typed, -, has, rfl⟩ := typing facts
  have word : Means (R.world source ctx) R.bound Γ lo hi (.word .integer)
      (expr (tables source ctx) R.call R.limit e) r := by
    cases op with
    | plus | minus => exact operand.integer has
    | not => exact operand.logical has
  refine ⟨_, .word .integer, typed, fun _ => by cases op <;> rfl, ?_⟩
  rw [expr_unary]
  exact (word.word.unary op).datum

theorem agrees_direct {op : Syntax.BinaryOp} {op' : BinOp} {b : Expr}
    (facts : (Syntax.Expr.binary site op l i).Everywhere (found source ctx t sort) Γ)
    (hop : form op = .direct op') (ha : Agrees source ctx R Γ lo hi l a)
    (hb : Agrees source ctx R Γ lo hi i b) :
    Agrees source ctx R Γ lo hi (.binary site op l i) (.binop op' a b) := by
  obtain ⟨τ, typed, -, left, right, typeLeft, typeRight, rule⟩ := typing facts
  rcases OperatorRule.direct rule hop with
    ⟨arithmetic, sameLeft, sameRight, rfl⟩ | ⟨comparison, atomic, same, rfl⟩
  · refine ⟨_, .word .integer, typed, fun _ => rfl, ?_⟩
    rw [expr_direct _ _ _ _ hop]
    exact ((ha.integer ⟨left, typeLeft, sameLeft⟩).word.arithmetic arithmetic
      (hb.integer ⟨right, typeRight, sameRight⟩).word).datum
  · have first := ha.has ⟨left, typeLeft, .refl left⟩ (Ty.isData_of_isAtomic atomic)
    have second := hb.has ⟨right, typeRight, same⟩ (Ty.isData_of_isAtomic atomic)
    rw [Ty.kind_of_isAtomic atomic] at first second
    refine ⟨_, .word .integer, typed, fun _ => rfl, ?_⟩
    rw [expr_direct _ _ _ _ hop]
    exact (first.word.comparison comparison second.word).datum

theorem agrees_shortCircuit (conjunction : Bool) {op : Syntax.BinaryOp} {b : Expr}
    (facts : (Syntax.Expr.binary site op l i).Everywhere (found source ctx t sort) Γ)
    (hop : form op = if conjunction then .conjunction else .disjunction) (low : lo ≤ t')
    (ne : t' ≠ Temp.fp) {right done : String} (labels : right ≠ done)
    (ha : Agrees source ctx R Γ lo t' l a) (hb : Agrees source ctx R Γ lo t' i b) :
    Agrees source ctx R Γ lo (t' + 1) (.binary site op l i)
      (Lowering.shortCircuit conjunction a b t' right done) := by
  obtain ⟨τ, typed, -, left, right, typeLeft, typeRight, rule⟩ := typing facts
  obtain ⟨sameLeft, sameRight, rfl⟩ := OperatorRule.logical rule hop
  refine ⟨_, .word .integer, typed, fun _ => rfl, ?_⟩
  rw [expr_shortCircuit _ _ _ _ conjunction hop]
  exact .shortCircuit conjunction low ne labels (ha.logical ⟨left, typeLeft, sameLeft⟩).word
    (hb.logical ⟨right, typeRight, sameRight⟩)

/-! ### Places -/

theorem points_element {b : Expr}
    (facts : (Syntax.Expr.binary site .index l i).Everywhere (found source ctx t sort) Γ)
    {type : Ty} (indexed : Indexed ctx l.id length type size)
    (base : Agrees source ctx R Γ lo hi l a) (index : Agrees source ctx R Γ lo hi i b) :
    ctx.types.get? (Syntax.Expr.binary site .index l i).id = some type ∧ type.isData = true ∧
      Points (R.world source ctx) R.bound Γ lo hi (.word type.leaf) type.extent
        (location (tables source ctx) R.call R.limit (.binary site .index l i))
        (elementExpr a b length size) := by
  obtain ⟨τ, typed, -, left, right, typeLeft, typeRight, rule⟩ := typing facts
  obtain ⟨left', typeLeft', result, -⟩ := typing facts.2.1
  rw [typeLeft] at typeLeft'
  cases typeLeft'
  obtain ⟨rfl, data', data, integer, ⟨n, kind, inside⟩, bytes, -⟩ :=
    element_parts typeLeft rule result indexed
  have array := base.has ⟨left, typeLeft, .refl left⟩ data
  rw [kind] at array
  refine ⟨typed, data', ?_⟩
  rw [location_index]
  exact array.place.element indexed.array inside bytes
    (index.integer ⟨right, typeRight, integer⟩).word

theorem agreesAt_element {b : Expr}
    (facts : (Syntax.Expr.binary site .index l i).Everywhere (found source ctx t sort) Γ)
    {type : Ty} (indexed : Indexed ctx l.id length type size)
    (base : Agrees source ctx R Γ lo hi l a) (index : Agrees source ctx R Γ lo hi i b) :
    AgreesAt source ctx R Γ lo hi (.binary site .index l i)
      (.mem (elementExpr a b length size)) := by
  obtain ⟨typed, data, points⟩ := points_element facts indexed base index
  exact ⟨_, type, rfl, typed, fun _ => ⟨_, Ty.extent_pos data, points⟩⟩

theorem agrees_element {b : Expr}
    (facts : (Syntax.Expr.binary site .index l i).Everywhere (found source ctx t sort) Γ)
    {type : Ty} (indexed : Indexed ctx l.id length type size)
    (base : Agrees source ctx R Γ lo hi l a) (index : Agrees source ctx R Γ lo hi i b) :
    Agrees source ctx R Γ lo hi (.binary site .index l i)
      (if type.isArray then elementExpr a b length size else .mem
        (elementExpr a b length size)) := by
  obtain ⟨typed, data, points⟩ := points_element facts indexed base index
  refine ⟨type, type.kind, typed, fun _ => rfl, ?_⟩
  have nested : isArrayOfArrays (tables source ctx) l.id = type.isArray := by
    simp only [isArrayOfArrays, indexed.array, Option.any_some]
  rw [expr_index, nested]
  cases ha : type.isArray with
  | true =>
    rw [Ty.kind_of_isArray ha]
    exact points.datum
  | false =>
    rw [Ty.kind_of_isAtomic (Ty.isAtomic_of_isData data ha)]
    exact points.load (Ty.extent_pos data)

/-- The address of a variable leads to its block. -/
theorem points_block (h : Analysed source ctx t sort) (scope : source.Scope Γ)
    (reached : Reached source ctx Γ d a) :
    Points (R.world source ctx) R.bound Γ lo hi ((storageOf source ctx.types ctx.layout).content d)
      ((storageOf source ctx.types ctx.layout).count d) (block (tables source ctx) d) a :=
  points_of_found fun σ s ready => by
    obtain ⟨p, found, inside, rfl, first, -⟩ := ready.reaches h scope reached
    refine ⟨p, found, inside, rfl, ?_⟩
    rw [first, Nat.zero_add]
    exact Nat.le_refl _

/-- The cell of an atomic variable. -/
theorem Ready.cell (h : Analysed source ctx t sort) (scope : source.Scope Γ) {σ : Store}
    {s : Nested.State} (ready : Ready (R.world source ctx) Γ σ s)
    (reached : Reached source ctx Γ d a) {τ : Ty} (type : ctx.types.get? d = some τ)
    (atomic : τ.isAtomic = true) :
    ∃ p, Found (R.world source ctx) σ.stack (block (tables source ctx) d) a p ∧
      Cell (R.world source ctx).storage σ.stack p ∧ (R.world source ctx).storage.content p.decl =
        .word τ.leaf := by
  obtain ⟨p, found, inside, rfl, first, -⟩ := ready.reaches h scope reached
  obtain ⟨content, count⟩ : (storageOf source ctx.types ctx.layout).content p.decl = .word τ.leaf ∧
      (storageOf source ctx.types ctx.layout).count p.decl = 1 := cells_of_isAtomic type atomic
  refine ⟨p, found, ⟨inside, ?_⟩, content⟩
  show p.offset < (storageOf source ctx.types ctx.layout).count p.decl
  omega

theorem blockOf_eq {id : NodeId} (bound : ctx.bindings.get? id = some (.decl d)) :
    blockOf (tables source ctx) id = block (tables source ctx) d := by
  simp only [blockOf, bound]

theorem agreesAt_name (h : Analysed source ctx t sort)
    (facts : (Syntax.Expr.name site x).Everywhere (found source ctx t sort) Γ)
    (reached : ctx.layout.accesses.get? site.id = some access) :
    AgreesAt source ctx R Γ lo hi (.name site x) (.mem (addressExpr access)) := by
  obtain ⟨d, τ, bound, typed, type, -, -, reached⟩ := h.name_reached facts reached
  refine ⟨_, τ, rfl, typed, fun atomic => ⟨1, Nat.one_pos, ?_⟩⟩
  have points : Points (R.world source ctx) R.bound Γ lo hi _ _ _ _ :=
    points_block h (scoping facts) reached
  rw [(cells_of_isAtomic type atomic).1, (cells_of_isAtomic type atomic).2] at points
  rw [location, blockOf_eq bound]
  exact points

/-- A name stands for its variable: an array for its place, and a word or a parameter for what it
holds. -/
theorem agrees_name (h : Analysed source ctx t sort)
    (facts : (Syntax.Expr.name site x).Everywhere (found source ctx t sort) Γ) {type : Ty}
    (reached : ctx.layout.accesses.get? site.id = some access)
    (typed : ctx.types.get? site.id = some type) :
    Agrees source ctx R Γ lo hi (.name site x)
      (if type.isArray && !Lowering.isParameter ctx site.id then addressExpr access
        else .mem (addressExpr access)) := by
  obtain ⟨d, τ, bound, typed', ofDecl, data, parameter, reached⟩ := h.name_reached facts reached
  rw [typed] at typed'
  cases typed'
  refine ⟨type, type.kind, typed, fun _ => rfl, fun σ s ready => ?_⟩
  have points : Points (R.world source ctx) R.bound Γ lo hi _ _ _ _ :=
    points_block h (scoping facts) reached
  have value : expr (tables source ctx) R.call R.limit (.name site x) σ =
    (block (tables source ctx) d >>= fun p =>
      if type.isArray && !Kinds.isParameter source d then pure (.place p) else load p) σ := by
    obtain ⟨p, found, -, -, -, same⟩ := ready.reaches h (scoping facts) reached
    simp only [expr, blockOf_eq bound, bind_apply, found.located rfl, get_apply, typed,
      Option.any_some, same]
  refine .congr value ?_
  rw [parameter]
  cases param : Kinds.isParameter source d with
  | true =>
    rw [content_parameter ofDecl param, count_parameter param] at points
    rw [Bool.not_true, Bool.and_false]
    exact points.load Nat.one_pos ready
  | false =>
    rw [content_variable ofDecl param, count_variable ofDecl param] at points
    rw [Bool.not_false, Bool.and_true]
    cases array : type.isArray with
    | true =>
      rw [Ty.kind_of_isArray array]
      exact points.datum ready
    | false =>
      rw [Ty.kind_of_isAtomic (Ty.isAtomic_of_isData data array)]
      exact points.load (Ty.extent_pos data) ready

/-! ### Calls -/

/-- The data of arguments have the kinds of the types of the parameters. -/
theorem kinds_of_suits (suits : List.Forall₂ (Suits ctx) es ks)
    (has : List.Forall₂ (fun e p => Has ctx.types (Syntax.Expr.id e) p) es ps)
    (data : ∀ p ∈ ps, p.isData = true) :
    ks = ps.map Ty.kind := by
  induction suits generalizing ps with
  | nil =>
    cases has
    rfl
  | cons first _ ih =>
    cases has with
    | @cons _ p _ ps has rest =>
      obtain ⟨τ, type, kind⟩ := first
      obtain ⟨τ', type', same⟩ := has
      rw [type] at type'
      cases type'
      rw [List.map_cons, ih rest fun p hp => data p (List.mem_cons_of_mem _ hp), same.kind,
        kind (same.isData ▸ data p (List.mem_cons_self ..))]

theorem kinds_of_params (h : Analysed source ctx t sort) {f : String} {params : List Decl}
    {result : Syntax.TypeExpr} {body : Syntax.Expr}
    (declared : (Γ, .function site f params result body) ∈ source.declarations)
    (types : List.Forall₂ (fun p τ => ctx.types.get? (Decl.id p) = some τ ∧ τ.isData = true) params
      ps) :
    (Decl.level site params body).params.map
      (fun x => ((storageOf source ctx.types ctx.layout).content x).kind) =
      ps.map Ty.kind := by
  have areParams (p : Decl) (hp : p ∈ params) : Kinds.isParameter source p.id = true := by
    obtain ⟨declared, isParam⟩ := h.params_declared declared hp
    exact (h.isParameter_eq declared).trans isParam
  show (params.map Decl.id).map _ = _
  clear declared
  induction types with
  | nil => rfl
  | @cons p τ params ps first _ ih =>
    have here := areParams p (List.mem_cons_self ..)
    rw [List.map_cons, List.map_cons, List.map_cons, ih fun p hp =>
      areParams p (List.mem_cons_of_mem _ hp), content_parameter first.1 here, Ty.kind]

theorem agrees_call (h : Analysed source ctx t sort) (good : R.Good source ctx) {f : String}
    {args : List Syntax.Expr}
    (facts : (Syntax.Expr.call site f args).Everywhere (found source ctx t sort) Γ) {label : String}
    {link : Expr} (callee : Callee ctx Γ.length site.id label link) (low : 0 < lo) (le : lo ≤ hi)
    (suits : List.Forall₂ (Suits ctx) args ks) {ss : List Stmt} {ts : List Temp}
    (passes : Passes (R.world source ctx) R.bound Γ lo hi ks
      (exprs (tables source ctx) R.call R.limit args) ss ts) :
    Agrees source ctx R Γ lo hi (.call site f args)
      (.after (.seq ss) (.call label (link :: ts.map .temp))) := by
  obtain ⟨τ, typed, -, ps, type, has⟩ := typing facts
  rcases h.callee_cases facts.1 type callee with ⟨b, bound, free, rfl, rfl, rfl, rfl⟩ |
    ⟨Γ', site', f', params, result, body, frame, bound, declared, laid, rfl, type, atomic,
      types, linkTo⟩
  · rw [kinds_of_suits suits has (by cases b <;> decide)] at passes
    refine ⟨_, .word b.result.leaf, typed, fun _ => by cases b <;> rfl, ?_⟩
    simp only [expr, bound]
    exact passes.builtin (good.builtins b free) low
  · have data (p : Ty) (hp : p ∈ ps) : p.isData = true := by
      obtain ⟨-, -, -, data⟩ := exists_of_mem_left types.flip hp
      exact data
    rw [kinds_of_suits suits has data, ← kinds_of_params h declared types] at passes
    refine ⟨τ, .word τ.leaf, typed, fun _ => (Ty.kind_of_isAtomic atomic).symm, ?_⟩
    let r : Routine := ⟨Decl.level site' params body, Γ', τ.leaf⟩
    have routine : (contextOf source ctx).routine frame.label r :=
      ⟨site', f', params, result, body, frame, ps, τ, declared, rfl, laid, rfl, type, rfl⟩
    simp only [expr, bound]
    exact good.calls.means routine rfl (fun _ _ ready => ready.links h (scoping facts) linkTo)
      low le passes

/-! ### Control flow -/

theorem agrees_block {items : List Expr}
    (facts : (Syntax.Expr.block site es).Everywhere (found source ctx t sort) Γ)
    (parts : List.Forall₂ (Agrees source ctx R Γ lo hi) es items) :
    Agrees source ctx R Γ lo hi (.block site es) (Lowering.block items) := by
  obtain ⟨τ, typed, -, rule⟩ := typing facts
  simp only [Syntax.Rule] at rule
  rcases List.eq_nil_or_concat' items with rfl | ⟨rs, r, rfl⟩
  · cases parts
    refine ⟨τ, .word .integer, typed, fun data => ?_, ?_⟩
    · rw [show τ = _ from rule] at data
      cases data
    · rw [expr_block]
      exact means_const (.ofInt 0)
  · have front := List.forall₂_take_append _ _ _ parts
    have back := List.forall₂_drop_append _ _ _ parts
    have whole := List.take_append_drop rs.length es
    generalize es.take rs.length = first at front whole
    generalize es.drop rs.length = last at back whole
    subst whole
    obtain ⟨e, rest, ⟨τ', k, type, kind, value⟩, ends, rfl⟩ := List.forall₂_cons_right_iff.1 back
    cases ends
    rw [List.getLast?_concat] at rule
    dsimp only at rule
    rw [type] at rule
    cases rule
    refine ⟨τ, k, typed, kind, ?_⟩
    rw [expr_block]
    refine .block (front.imp fun e r agrees => ?_) value
    obtain ⟨-, k, -, -, value⟩ := agrees
    exact ⟨k, value⟩

theorem agrees_ifThen {b : Syntax.Expr} {branch : Expr}
    (facts : (Syntax.Expr.ifThen site c b).Everywhere (found source ctx t sort) Γ)
    {onTrue onFalse : String} (labels : onTrue ≠ onFalse)
    (hc : Agrees source ctx R Γ lo hi c condition) (hb : Agrees source ctx R Γ lo hi b branch) :
    Agrees source ctx R Γ lo hi (.ifThen site c b)
      (Lowering.ifThen condition branch onTrue onFalse) := by
  obtain ⟨τ, typed, -, has, rfl⟩ := typing facts
  obtain ⟨-, k, -, -, body⟩ := hb
  refine ⟨_, .word .integer, typed, (fun data => by cases data), ?_⟩
  rw [expr_ifThen]
  exact .ifThen labels (hc.logical has).word body

theorem agrees_ifElse {a b : Syntax.Expr} {first second : Expr}
    (facts : (Syntax.Expr.ifElse site c a b).Everywhere (found source ctx t sort) Γ) (low : lo ≤ t')
    (ne : t' ≠ Temp.fp) {onTrue onFalse done : String} (labels : onTrue ≠ onFalse)
    (labels' : done ≠ onTrue) (labels'' : done ≠ onFalse)
    (hc : Agrees source ctx R Γ lo t' c condition) (ha : Agrees source ctx R Γ lo t' a first)
    (hb : Agrees source ctx R Γ lo t' b second) :
    Agrees source ctx R Γ lo (t' + 1) (.ifElse site c a b)
      (Lowering.ifElse condition first second t' onTrue onFalse done) := by
  obtain ⟨τ, typed, -, has, τa, τb, typeTrue, typeFalse, rfl⟩ := typing facts
  obtain ⟨τa', ka, typeTrue', kindTrue, valueTrue⟩ := ha
  obtain ⟨τb', kb, typeFalse', kindFalse, valueFalse⟩ := hb
  rw [typeTrue] at typeTrue'
  rw [typeFalse] at typeFalse'
  cases typeTrue'
  cases typeFalse'
  by_cases same : ka = kb
  · subst same
    refine ⟨_, ka, typed, fun data => ?_, ?_⟩
    · unfold Typing.branchType at data ⊢
      split at data
      · next both => rw [if_pos both, kindTrue data]
      · cases data
    · rw [expr_ifElse]
      exact .ifElse low ne labels labels' labels'' (hc.logical has).word valueTrue valueFalse
  · refine ⟨_, .any, typed, fun data => ?_, ?_⟩
    · unfold Typing.branchType at data
      split at data
      · next both =>
        have same' := Ty.isCompatible_iff.1 (Bool.and_eq_true_iff.1 both).2
        exact absurd (by rw [kindTrue data, kindFalse (same'.isData ▸ data), same'.kind]) same
      · cases data
    · rw [expr_ifElse]
      exact .ifElse low ne labels labels' labels'' (hc.logical has).word valueTrue.any
        valueFalse.any

theorem agrees_whileDo (le : R.bound ≤ R.limit) {b : Syntax.Expr} {body : Expr}
    (facts : (Syntax.Expr.whileDo site c b).Everywhere (found source ctx t sort) Γ)
    {test enter exit : String} (labels : test ≠ enter) (labels' : test ≠ exit)
    (labels'' : enter ≠ exit) (hc : Agrees source ctx R Γ lo hi c condition)
    (hb : Agrees source ctx R Γ lo hi b body) :
    Agrees source ctx R Γ lo hi (.whileDo site c b)
      (Lowering.whileDo condition body test enter exit) := by
  obtain ⟨τ, typed, -, has, rfl⟩ := typing facts
  obtain ⟨-, k, -, -, body⟩ := hb
  refine ⟨_, .word .integer, typed, (fun data => by cases data), ?_⟩
  rw [expr_whileDo]
  exact .whileDo le labels labels' labels'' (hc.logical has).word body

theorem agrees_forDo (h : Analysed source ctx t sort) (le : R.bound ≤ R.limit) {site' : Site}
    {u b : Syntax.Expr} {lower upper step body : Expr}
    (facts : (Syntax.Expr.forDo site (.name site' x) l u i b).Everywhere (found source ctx t sort)
      Γ) (reached : ctx.layout.accesses.get? site'.id = some access) (start : lo ≤ t')
    (ne : t' ≠ Temp.fp) {test enter exit : String} (labels : test ≠ enter) (labels' : test ≠ exit)
    (labels'' : enter ≠ exit) (hl : Agrees source ctx R Γ lo t' l lower)
    (hu : Agrees source ctx R Γ lo t' u upper) (hi' : Agrees source ctx R Γ lo t' i step)
    (hb : Agrees source ctx R Γ lo t' b body) :
    Agrees source ctx R Γ lo (t' + 2) (.forDo site (.name site' x) l u i b)
      (Lowering.forDo (.mem (addressExpr access)) lower upper step body t'
        (t' + 1) test enter exit) := by
  obtain ⟨τ, typed, -, -, hasCounter, hasLow, hasHigh, hasStep, rfl⟩ := typing facts
  obtain ⟨d, τc, bound, typeCounter, type, -, -, reached⟩ := h.name_reached facts.2.1 reached
  obtain ⟨τc', typeCounter', same⟩ := hasCounter
  have eq : ctx.types.get? site'.id = some τc' := typeCounter'
  rw [typeCounter] at eq
  cases eq
  obtain ⟨-, k, -, -, body⟩ := hb
  have counter : Counts (R.world source ctx) Γ
    (location (tables source ctx) R.call R.limit (.name site' x))
      (addressExpr access) := fun σ s ready => by
    rw [location, blockOf_eq bound]
    obtain ⟨p, found, cell, content⟩ :=
      ready.cell h (scoping facts) reached type (same.isAtomic ▸ rfl)
    exact ⟨p, found, cell, content.trans (by rw [← same.leaf]; rfl)⟩
  refine ⟨_, .word .integer, typed, (fun data => by cases data), ?_⟩
  rw [expr_forDo]
  exact .forDo le start ne labels labels' labels'' counter (hl.integer hasLow)
    (hu.integer hasHigh).word
    (hi'.integer hasStep).word body

/-! ### Variables -/

theorem agrees_scoped {ds : List Decl} {b : Syntax.Expr} {inits : List Stmt}
    (facts : (Syntax.Expr.scoped site ds b).Everywhere (found source ctx t sort) Γ)
    (hd : Executes (R.world source ctx) R.bound Γ lo hi
      (decls (tables source ctx) R.call R.limit ds) inits) (hb : Agrees source ctx R Γ lo hi b r) :
    Agrees source ctx R Γ lo hi (.scoped site ds b) (.after (.seq inits) r) := by
  obtain ⟨τ, typed, -, rule⟩ := typing facts
  obtain ⟨τ', k, type, kind, value⟩ := hb
  rw [show ctx.types.get? _ = some τ from rule] at type
  cases type
  refine ⟨τ, k, typed, kind, ?_⟩
  rw [expr_scoped]
  exact hd.after value

theorem agrees_assign {target v : Syntax.Expr} {dst value : Expr}
    (facts : (Syntax.Expr.assign site target v).Everywhere (found source ctx t sort) Γ)
    (low : lo ≤ t') (ne : t' ≠ Temp.fp) (hv : Agrees source ctx R Γ lo t' v value)
    (hp : AgreesAt source ctx R Γ lo t' target dst) :
    Agrees source ctx R Γ lo (t' + 1) (.assign site target v)
      (.after (.seq [.move (.temp t') value, .move dst (.temp t')]) (.temp t')) := by
  obtain ⟨τ, typed, -, typeTarget, atomic, has⟩ := typing facts
  obtain ⟨a, τ', rfl, typeTarget', address⟩ := hp
  rw [typeTarget] at typeTarget'
  cases typeTarget'
  obtain ⟨n, pos, address⟩ := address atomic
  have value := hv.has has (Ty.isData_of_isAtomic atomic)
  rw [Ty.kind_of_isAtomic atomic] at value
  refine ⟨τ, _, typed, fun _ => (Ty.kind_of_isAtomic atomic).symm, ?_⟩
  rw [expr_assign]
  exact .assignment pos low ne value address

theorem executes_initial (h : Analysed source ctx t sort) {type : Syntax.TypeExpr}
    {init : Syntax.Expr}
    (facts : (Decl.var site x type (some init)).Everywhere (found source ctx t sort) Γ)
    (own : IsOwn source Γ (.var site x type (some init)))
    (reached : ctx.layout.accesses.get? site.id = some access)
    (value : Agrees source ctx R Γ lo hi init r) :
    Executes (R.world source ctx) R.bound Γ lo hi
      (decl (tables source ctx) R.call R.limit (.var site x type (some init)))
      [.move (.mem (addressExpr access)) r] := by
  obtain ⟨τ, typed, atomic, has⟩ := facts.1.2.2.2.1
  have value := value.has has (Ty.isData_of_isAtomic atomic)
  rw [Ty.kind_of_isAtomic atomic] at value
  have scope : source.Scope Γ := facts.1.2.2.2.2.2.1
  rw [decl]
  exact executes_store
    (fun σ s ready => ready.cell h scope (h.own_reached scope own reached) typed atomic) value

/-! ## Lowered code -/

theorem labelName_ne {m n : Nat} (ne : m ≠ n) : labelName m ≠ labelName n :=
  fun eq => ne (labelName_injective eq)

theorem ne_fp {u : Nat} (free : Temp.firstFree ≤ u) : u ≠ Temp.fp :=
  Nat.ne_of_gt (Nat.lt_of_lt_of_le (by decide) free)

/-- Temporaries are given out in order. -/
theorem nextTemp_le {depth : Nat} {s s' : Lowering.State} {code : Code}
    (lowers : Lowers ctx depth piece s code s') : @LE.le Nat _ s.nextTemp s'.nextTemp := by
  induction lowers with
  | literal | name | nil | noArguments | nameLocation | function | silent | noDecls =>
    exact Nat.le_refl _
  | unary _ ih | call _ _ ih | block _ ih | initialized _ _ ih => exact ih
  | direct _ _ _ ih ih' | index _ _ _ ih ih' | elementLocation _ _ _ ih ih' =>
    exact Nat.le_trans ih ih'
  | ifThen _ _ ih ih' | whileDo _ _ ih ih' | scope _ _ ih ih' | cons _ _ ih ih'
  | decls _ _ ih ih' =>
    exact Nat.le_trans ih ih'
  | shortCircuit _ _ _ _ ih ih' | assign _ _ ih ih' => exact Nat.le_succ_of_le (Nat.le_trans ih ih')
  | ifElse _ _ _ ih ih' ih'' => exact Nat.le_succ_of_le (Nat.le_trans ih (Nat.le_trans ih' ih''))
  | forDo _ _ _ _ _ ihc ihlo ihhi ihst ihb =>
    exact Nat.le_add_right_of_le
      (Nat.le_trans ihc (Nat.le_trans ihlo (Nat.le_trans ihhi (Nat.le_trans ihst ihb))))
  | argument _ _ ih ih' => exact Nat.le_trans (Nat.le_succ_of_le ih) ih'

theorem follows_of_lowers (h : Analysed source ctx t sort) {depth : Nat} {s s' : Lowering.State}
    {code : Code} (lowers : Lowers ctx depth piece s code s')
    (stands : Stands source (found source ctx t sort) Γ depth piece) (good : R.Good source ctx)
    (free : Temp.firstFree ≤ s.nextTemp) :
    Follows source ctx R Γ s.nextTemp s'.nextTemp piece code ∧
      ((∀ c ∈ s.chunks, ChunkAgrees source ctx c) → ∀ c ∈ s'.chunks, ChunkAgrees source ctx c) := by
  induction lowers generalizing Γ R with
  | literal => exact ⟨agrees_literal stands.2, id⟩
  | name reached typed => exact ⟨agrees_name h stands.2 reached typed, id⟩
  | unary _ ih =>
    obtain ⟨operand, chunks⟩ := ih ⟨stands.1, stands.2.2⟩ good free
    exact ⟨agrees_unary stands.2 operand, chunks⟩
  | direct hop left right ihl ihr =>
    have le := nextTemp_le left
    obtain ⟨a, c₁⟩ := ihl ⟨stands.1, stands.2.2.1⟩ good free
    obtain ⟨b, c₂⟩ := ihr ⟨stands.1, stands.2.2.2⟩ good (Nat.le_trans free le)
    exact ⟨agrees_direct stands.2 hop (a.widen (Nat.le_refl _) (nextTemp_le right))
      (b.widen le (Nat.le_refl _)),
      c₂ ∘ c₁⟩
  | shortCircuit conjunction hop left right ihl ihr =>
    have le := nextTemp_le left
    have le' := nextTemp_le right
    obtain ⟨a, c₁⟩ := ihl ⟨stands.1, stands.2.2.1⟩ good free
    obtain ⟨b, c₂⟩ := ihr ⟨stands.1, stands.2.2.2⟩ good (Nat.le_trans free le)
    exact ⟨agrees_shortCircuit conjunction stands.2 hop (Nat.le_trans le le')
      (ne_fp (Nat.le_trans free (Nat.le_trans le le'))) (labelName_ne (by omega))
      (a.widen (Nat.le_refl _) le')
      (b.widen le (Nat.le_refl _)), c₂ ∘ c₁⟩
  | index indexed base index ihl ihr =>
    have le := nextTemp_le base
    obtain ⟨a, c₁⟩ := ihl ⟨stands.1, stands.2.2.1⟩ good free
    obtain ⟨b, c₂⟩ := ihr ⟨stands.1, stands.2.2.2⟩ good (Nat.le_trans free le)
    exact ⟨agrees_element stands.2 indexed (a.widen (Nat.le_refl _) (nextTemp_le index))
      (b.widen le (Nat.le_refl _)),
      c₂ ∘ c₁⟩
  | call callee arguments ih =>
    obtain ⟨⟨ts, ks, rfl, suits, passes⟩, chunks⟩ := ih ⟨stands.1, stands.2.2⟩ good free
    exact ⟨agrees_call h good stands.2 (stands.1 ▸ callee) (Nat.lt_of_lt_of_le (by decide) free)
      (nextTemp_le arguments) suits passes, chunks⟩
  | block _ ih =>
    obtain ⟨parts, chunks⟩ := ih ⟨stands.1, stands.2.2⟩ good free
    exact ⟨agrees_block stands.2 parts, chunks⟩
  | @ifThen _ _ _ _ _ s₁ s₂ _ _ condition branch ihc iht =>
    have le := nextTemp_le condition
    have le' : s₁.nextTemp ≤ s₂.nextTemp := nextTemp_le branch
    obtain ⟨a, c₁⟩ := ihc ⟨stands.1, stands.2.2.1⟩ good free
    obtain ⟨b, c₂⟩ := iht ⟨stands.1, stands.2.2.2⟩ good (Nat.le_trans free le)
    exact ⟨agrees_ifThen stands.2 (labelName_ne (by omega)) (a.widen (Nat.le_refl _) le')
      (b.widen le (Nat.le_refl _)), c₂ ∘ c₁⟩
  | @ifElse _ _ _ _ _ _ _ s₂ s₃ _ _ _ condition onTrue onFalse ihc iht ihe =>
    have le := nextTemp_le condition
    have le' := nextTemp_le onTrue
    have le'' := nextTemp_le onFalse
    obtain ⟨a, c₁⟩ := ihc ⟨stands.1, stands.2.2.1⟩ good free
    obtain ⟨b, c₂⟩ := iht ⟨stands.1, stands.2.2.2.1⟩ good (Nat.le_trans free le)
    obtain ⟨d, c₃⟩ := ihe ⟨stands.1, stands.2.2.2.2⟩ good (Nat.le_trans free (Nat.le_trans le le'))
    have later : s₂.labels + 2 ≤ s₃.labels :=
      (h.labels_of_lowers onFalse ⟨stands.1, stands.2.2.2.2⟩).numbered.le
    refine ⟨agrees_ifElse stands.2 ?_ (ne_fp ?_) (labelName_ne (by omega)) (labelName_ne (by omega))
      (labelName_ne (by omega)) (a.widen (Nat.le_refl _) (Nat.le_trans le' le'')) (b.widen le le'')
      (d.widen (Nat.le_trans le le') (Nat.le_refl _)), c₃ ∘ c₂ ∘ c₁⟩
    · exact Nat.le_trans le (Nat.le_trans le' le'')
    · exact Nat.le_trans free (Nat.le_trans le (Nat.le_trans le' le''))
  | whileDo condition body ihc ihb =>
    have le := nextTemp_le condition
    obtain ⟨a, c₁⟩ := ihc ⟨stands.1, stands.2.2.1⟩ good free
    obtain ⟨b, c₂⟩ := ihb ⟨stands.1, stands.2.2.2⟩ good (Nat.le_trans free le)
    exact ⟨agrees_whileDo good.le stands.2 (labelName_ne (by omega)) (labelName_ne (by omega))
      (labelName_ne (by omega))
      (a.widen (Nat.le_refl _) (nextTemp_le body)) (b.widen le (Nat.le_refl _)), c₂ ∘ c₁⟩
  | forDo place lower upper step body ihc ihlo ihhi ihst ihb =>
    obtain ⟨site', x, access, rfl, reached, rfl, rfl⟩ := h.counter_name stands.2 place
    have le := nextTemp_le lower
    have le' := nextTemp_le upper
    have le'' := nextTemp_le step
    have last := nextTemp_le body
    obtain ⟨a, c₁⟩ := ihlo ⟨stands.1, stands.2.2.2.1⟩ good free
    obtain ⟨b, c₂⟩ := ihhi ⟨stands.1, stands.2.2.2.2.1⟩ good (Nat.le_trans free le)
    obtain ⟨d, c₃⟩ := ihst ⟨stands.1, stands.2.2.2.2.2.1⟩ good (Nat.le_trans free (by omega))
    obtain ⟨e, c₄⟩ := ihb ⟨stands.1, stands.2.2.2.2.2.2⟩ good (Nat.le_trans free (by omega))
    exact ⟨agrees_forDo h good.le stands.2 reached (by omega) (ne_fp (Nat.le_trans free (by omega)))
      (labelName_ne (by omega)) (labelName_ne (by omega)) (labelName_ne (by omega))
      (a.widen (Nat.le_refl _) (by omega)) (b.widen le (by omega)) (d.widen (by omega) (by omega))
      (e.widen (by omega) (Nat.le_refl _)), c₄ ∘ c₃ ∘ c₂ ∘ c₁⟩
  | scope decls body ihd ihb =>
    have le := nextTemp_le decls
    obtain ⟨inits, c₁⟩ := ihd (stands_decls stands) good free
    obtain ⟨value, c₂⟩ := ihb ⟨stands.1, stands.2.2.2⟩ good (Nat.le_trans free le)
    exact ⟨agrees_scoped stands.2 (inits.widen (Nat.le_refl _) (nextTemp_le body))
      (value.widen le (Nat.le_refl _)),
      c₂ ∘ c₁⟩
  | assign value place ihv iht =>
    have le := nextTemp_le value
    have le' := nextTemp_le place
    obtain ⟨a, c₁⟩ := ihv ⟨stands.1, stands.2.2.2⟩ good free
    obtain ⟨b, c₂⟩ := iht ⟨stands.1, stands.2.2.1⟩ good (Nat.le_trans free le)
    exact ⟨agrees_assign stands.2 (Nat.le_trans le le')
      (ne_fp (Nat.le_trans free (Nat.le_trans le le')))
      (a.widen (Nat.le_refl _) le') (b.widen le (Nat.le_refl _)), c₂ ∘ c₁⟩
  | nil => exact ⟨.nil, id⟩
  | cons first rest ihe ihes =>
    have le := nextTemp_le first
    obtain ⟨a, c₁⟩ := ihe ⟨stands.1, stands.2.1⟩ good free
    obtain ⟨as, c₂⟩ := ihes ⟨stands.1, stands.2.2⟩ good (Nat.le_trans free le)
    exact ⟨.cons (a.widen (Nat.le_refl _) (nextTemp_le rest))
      (as.imp fun _ _ agrees => agrees.widen le (Nat.le_refl _)),
      c₂ ∘ c₁⟩
  | noArguments =>
    refine ⟨⟨[], [], rfl, .nil, ?_⟩, id⟩
    rw [exprs]
    exact passes_nil
  | @argument _ _ _ _ s₁ _ _ _ _ first rest ihe ihes =>
    have le := nextTemp_le first
    have lt : s₁.nextTemp + 1 ≤ _ := nextTemp_le rest
    obtain ⟨⟨τ, k, type, kind, value⟩, c₁⟩ := ihe ⟨stands.1, stands.2.1⟩ good free
    obtain ⟨⟨ts, ks, rfl, suits, passes⟩, c₂⟩ := ihes ⟨stands.1, stands.2.2⟩ good
      (Nat.le_trans free (Nat.le_succ_of_le le))
    refine ⟨⟨s₁.nextTemp :: ts, k :: ks, rfl, .cons ⟨τ, type, kind⟩ suits, ?_⟩, c₂ ∘ c₁⟩
    rw [exprs]
    exact .cons (ne_fp (Nat.le_trans free le)) le lt value passes
  | nameLocation reached => exact ⟨agreesAt_name h stands.2 reached, id⟩
  | elementLocation indexed base index ihl ihr =>
    have le := nextTemp_le base
    obtain ⟨a, c₁⟩ := ihl ⟨stands.1, stands.2.2.1⟩ good free
    obtain ⟨b, c₂⟩ := ihr ⟨stands.1, stands.2.2.2⟩ good (Nat.le_trans free le)
    exact ⟨agreesAt_element stands.2 indexed (a.widen (Nat.le_refl _) (nextTemp_le index))
      (b.widen le (Nat.le_refl _)),
      c₂ ∘ c₁⟩
  | initialized reached _ ih =>
    obtain ⟨value, chunks⟩ := ih ⟨(stands.2 rfl).1, stands.1.2⟩ good free
    exact ⟨executes_initial h stands.1 (stands.2 rfl).2 reached value, chunks⟩
  | function laid _ _ ih =>
    have body := h.stands_body stands.1 laid
    refine ⟨?_, fun hs c hc => ?_⟩
    · show Executes _ _ _ _ _ (decl _ _ _ _) _
      rw [decl_silent _ _ _ (by simp)]
      exact executes_nil
    rcases Array.mem_push.1 hc with hc | rfl
    · exact (ih body good (Nat.le_refl _)).2 hs c hc
    · exact ⟨Γ, _, _, _, _, _, _, _, stands.1.1.2.2.2.2.2.2, laid, rfl, fun R good =>
        (ih body good (Nat.le_refl _)).1⟩
  | silent isFunction noInit =>
    refine ⟨?_, id⟩
    show Executes _ _ _ _ _ (decl _ _ _ _) _
    rw [decl_silent _ _ _ noInit]
    exact executes_nil
  | noDecls =>
    refine ⟨?_, id⟩
    show Executes _ _ _ _ _ (decls _ _ _ _) _
    rw [decls]
    exact executes_nil
  | decls head tail ihd ihds =>
    have le := nextTemp_le head
    obtain ⟨first, c₁⟩ := ihd ⟨stands.1.1, stands.2 _ (by simp)⟩ good free
    obtain ⟨rest, c₂⟩ :=
      ihds ⟨stands.1.2, fun d hd => stands.2 d (by simp [hd])⟩ good (Nat.le_trans free le)
    refine ⟨?_, c₂ ∘ c₁⟩
    show Executes _ _ _ _ _ (decls _ _ _ _) _
    rw [decls]
    exact (first.widen (Nat.le_refl _) (nextTemp_le tail)).append (rest.widen le (Nat.le_refl _))

end

end PinsBackend.Meaning
