import Mathlib.Algebra.Ring.Int.Defs
import PinsBackend.Proofs.Kinds.Code
import PinsBackend.Proofs.Layout.Placement
import PinsBackend.Proofs.Names.Binding
import PinsBackend.Proofs.Typing.Rules

/-! The storage and the functions of a program, as its code uses them.

`Analysed` collects what the stages before code generation found out about a program; from it follow
the kinds of addresses, of names and of calls. -/
namespace PinsBackend.Kinds

open Syntax Ir Layout
open Lowering (addressExpr frameAt Callee)

/-- Everything the stages say about a node. -/
def found (source : Source) (ctx : Lowering.Context) (t : Tables) (sort : NodeId → NodeSort) :
    Facts :=
  (complete source.signatures).and ((sorted sort).and ((bound source ctx.bindings).and
    ((wellTyped ctx.bindings ctx.types).and
      ((placed { bindings := ctx.bindings, types := ctx.types } t).and (listed source)))))

/-- A program without gaps, with its bindings, types and places. -/
structure Analysed (source : Source) (ctx : Lowering.Context) (t : Tables)
    (sort : NodeId → NodeSort) :
    Prop where
  signatures : ctx.signatures = source.signatures
  nodes : source.Everywhere (found source ctx t sort)
  describes : Describes ctx.types ctx.layout t source
  nodup : (source.definitions.flatMap Decl.ids).Nodup
  names : ((source.definitions.filterMap Resolution.declared?).map Prod.snd).Nodup
  references : ∀ {id b}, ctx.bindings.get? id = some b → sort id = .reference ∨ sort id = .typeExpr

/-! ## Storage -/

/-- Holds of the declarations of parameters. -/
def isParameter (source : Source) (d : NodeId) : Bool :=
  match source.signatures.get? d with
  | some (.param _) => true
  | _ => false

/-- The frame in which the code of a level runs. -/
def frameOf (layout : Layout) (l : Level) : Frame :=
  match l.function with
  | none => layout.init
  | some f => (layout.frames.get? f).getD layout.init

/-- The bytes in front of the global with this label. -/
def dataStart (label : String) : List Global → Int
  | [] => 0
  | g :: gs => if g.label = label then 0 else g.size + dataStart label gs

/-- The label of a global. -/
def dataLabel (layout : Layout) (d : NodeId) : String :=
  match layout.accesses.get? d with
  | some (.global label) => label
  | _ => ""

/-- Where a layout puts the variables of a program. Only a parameter that is an array holds the
place of an array; every other variable holds words. -/
def storageOf (source : Source) (types : NodeTable Ty) (layout : Layout) : Storage where
  content d :=
    let τ := (types.get? d).getD .integer
    if isParameter source d then τ.content else .word τ.leaf
  count d := if isParameter source d then 1 else ((types.get? d).getD .integer).extent
  offset d :=
    match layout.accesses.get? d with
    | some (.here offset) => offset
    | _ => 0
  size l := stopOf (frameOf layout l)
  globals := source.globals
  label := dataLabel layout
  start d := dataStart (dataLabel layout d) layout.globals
  static := (layout.globals.map Global.size).sum

/-- The function that a label calls. -/
def routineOf (source : Source) (types : NodeTable Ty) (layout : Layout) (label : String)
    (r : Routine) : Prop :=
  ∃ site f params result body frame ps τ,
    (r.outer, .function site f params result body) ∈ source.declarations ∧
    r.level = Decl.level site params body ∧ layout.frames.get? site.id = some frame ∧
    frame.label = label ∧ types.get? site.id = some (.function ps τ) ∧ r.result = τ.leaf

/-- What the code of a program may refer to. -/
def contextOf (source : Source) (ctx : Lowering.Context) : Context where
  storage := storageOf source ctx.types ctx.layout
  routine := routineOf source ctx.types ctx.layout

theorem contextOf_storage (source : Source) (ctx : Lowering.Context) :
    (contextOf source ctx).storage = storageOf source ctx.types ctx.layout := rfl

section

variable {source : Source} {types : NodeTable Ty} {layout : Layout} {d : NodeId} {τ : Ty}

theorem content_parameter (h : types.get? d = some τ) (hp : isParameter source d = true) :
    (storageOf source types layout).content d = τ.content := by simp [storageOf, h, hp]

theorem content_variable (h : types.get? d = some τ) (hp : isParameter source d = false) :
    (storageOf source types layout).content d = .word τ.leaf := by simp [storageOf, h, hp]

theorem count_parameter (hp : isParameter source d = true) :
    (storageOf source types layout).count d = 1 := by simp [storageOf, hp]

theorem count_variable (h : types.get? d = some τ) (hp : isParameter source d = false) :
    (storageOf source types layout).count d = τ.extent := by simp [storageOf, h, hp]

/-- Atomic variables hold one word, parameters or not. -/
theorem cells_of_isAtomic (h : types.get? d = some τ) (atomic : τ.isAtomic = true) :
    (storageOf source types layout).content d = .word τ.leaf ∧
      (storageOf source types layout).count d = 1 := by
  cases hp : isParameter source d with
  | true =>
    rw [content_parameter h hp, count_parameter hp, Ty.content_of_isAtomic atomic]
    exact ⟨rfl, rfl⟩
  | false =>
    rw [content_variable h hp, count_variable h hp, Ty.extent_of_isAtomic atomic]
    exact ⟨rfl, rfl⟩

end

/-- The address of a variable, for code in an environment. -/
inductive Reached (source : Source) (ctx : Lowering.Context) (Γ : Env) (d : NodeId) : Ir.Expr → Prop
  | slot {hops : Nat} {l : Level} (level : Γ[hops]? = some l) (mem : d ∈ l.variables) :
    Reached source ctx Γ d
      (.binop .add (frameAt hops) (.int ((contextOf source ctx).storage.offset d)))
  | global (mem : d ∈ source.globals) :
    Reached source ctx Γ d (.data ((contextOf source ctx).storage.label d))

theorem Reached.kinded {source : Source} {ctx : Lowering.Context} {Γ : Env} {d : NodeId}
    {a : Ir.Expr} (h : Reached source ctx Γ d a) {κ : Temp → Option Kind} {D : Set Temp} :
    Kinded (contextOf source ctx) Γ κ (.value D a
      (.cells ((contextOf source ctx).storage.content d)
        ((contextOf source ctx).storage.count d))) := by
  cases h with
  | slot level mem => exact .slot level mem
  | global mem => exact .global mem

/-! ## Declarations -/

namespace Analysed

variable {result : TypeExpr} {body : Syntax.Expr} {κ : Temp → Option Kind} {D : Set Temp}
  {ts : List Temp} {label : String} {link : Ir.Expr}

variable {source : Source} {ctx : Lowering.Context} {t : Tables} {sort : NodeId → NodeSort}
  {Γ : Env}
  {l : Level} {site : Site} {f : String} {params : List Decl} {access : Access} {ps : List Ty}
  {args : List Syntax.Expr}

variable (h : Analysed source ctx t sort)

include h

theorem decl_facts {d : Decl} (hd : (Γ, d) ∈ source.declarations) :
    (found source ctx t sort).decl Γ d :=
  (h.nodes.declarations hd).here

/-- A node is declared once. -/
theorem declared_unique {Γ' : Env} {d d' : Decl} (hd : (Γ, d) ∈ source.declarations)
    (hd' : (Γ', d') ∈ source.declarations) (same : d.id = d'.id) :
    Γ = Γ' ∧ d = d' := by
  have sub : (source.declarations.map fun x => x.2.id).Sublist
      (source.definitions.flatMap Decl.ids) := by
    unfold Source.declarations
    rw [List.map_flatMap]
    induction source.definitions with
    | nil => exact .slnil
    | cons e es ih =>
      rw [List.flatMap_cons, List.flatMap_cons]
      exact (Decl.declarations_sublist e).append ih
  have eq := List.inj_on_of_nodup_map (h.nodup.sublist sub) hd hd' same
  exact Prod.mk.inj eq

/-- A function stands in one environment. -/
theorem scope_unique {Γ' : Env} {l' : Level} (scope : source.Scope (l :: Γ))
    (scope' : source.Scope (l' :: Γ')) (same : l.function = l'.function) :
    l :: Γ = l' :: Γ' := by
  cases scope with
  | init =>
    cases scope' with
    | init => rfl
    | function => cases same
  | function _ declared =>
    cases scope' with
    | init => cases same
    | function _ declared' =>
      obtain ⟨rfl, eq⟩ := h.declared_unique declared declared' (Option.some.inj same)
      cases eq
      rfl

theorem signature {d : Decl} (hd : (Γ, d) ∈ source.declarations) :
    source.signatures.get? d.id = d.signature? := by
  obtain ⟨signature, own, table, -⟩ := (h.decl_facts hd).1
  rw [table, own]

theorem isParameter_eq {d : Decl} (hd : (Γ, d) ∈ source.declarations) :
    isParameter source d.id = d.isParam := by
  rw [isParameter, h.signature hd]
  cases d <;> rfl

/-- A variable has the type of a value. -/
theorem variable_type {d : Decl} (hd : (Γ, d) ∈ source.declarations)
    (isVariable : d.isVar = true ∨ d.isParam = true) :
    ∃ τ, ctx.types.get? d.id = some τ ∧ τ.isData = true := by
  have typed := (h.decl_facts hd).2.2.2.1
  match d, typed, isVariable with
  | .param _ _ _, typed, _ | .var _ _ _ none, typed, _ => exact typed
  | .var _ _ _ (some _), ⟨τ, ht, atomic, _⟩, _ => exact ⟨τ, ht, Ty.isData_of_isAtomic atomic⟩

/-- The parameters of a function are declared where the function is. -/
theorem params_declared (hd : (Γ, .function site f params result body) ∈ source.declarations)
    {p : Decl} (hp : p ∈ params) :
    (Γ, p) ∈ source.declarations ∧ p.isParam = true := by
  have whole := h.nodes.declarations hd
  refine ⟨(Decl.everywhereList_iff.1 whole.2.1 p hp).here.2.2.2.2.2.2, ?_⟩
  obtain ⟨_, -, -, -, areParams⟩ := whole.1.1
  exact areParams p hp

/-- The parameters of a function are declared as such. -/
theorem param_declared (scope : source.Scope (l :: Γ)) {d : NodeId} (hd : d ∈ l.params) :
    ∃ Γ' decl, (Γ', decl) ∈ source.declarations ∧ decl.id = d ∧ decl.isParam = true := by
  cases scope with
  | init => cases hd
  | function _ declared =>
    obtain ⟨p, hp, rfl⟩ := List.mem_map.1 hd
    obtain ⟨mem, isParam⟩ := h.params_declared declared hp
    exact ⟨Γ, p, mem, rfl, isParam⟩

/-- The variables of the blocks of a function are declared as such, right inside the function. -/
theorem local_declared (scope : source.Scope (l :: Γ)) {d : NodeId} (hd : d ∈ l.locals) :
    ∃ decl, (l :: Γ, decl) ∈ source.declarations ∧ decl.id = d ∧ decl.isVar = true := by
  cases scope with
  | init =>
    obtain ⟨e, he, mem⟩ := Decl.mem_localsList.1 hd
    obtain ⟨known, isVar⟩ := List.mem_filter.1 he
    obtain ⟨decl, declared, own⟩ := Decl.locals_declared e mem
    refine ⟨decl, List.mem_flatMap.2 ⟨e, known, ?_⟩, own⟩
    rw [Source.envOf, if_pos isVar]
    exact declared
  | @function _ site f params result body _ declared =>
    obtain ⟨decl, inner, own⟩ := Expr.locals_declared body hd
    have whole := h.nodes.declarations declared
    exact ⟨decl, (Expr.Everywhere.declarations body whole.2.2 inner).here.2.2.2.2.2.2, own⟩

/-- Every level around a place has its frame. -/
theorem frame (scope : source.Scope Γ) {i : Nat} (hl : Γ[i]? = some l) :
    ∃ name, FrameOf ctx.types t (frameOf ctx.layout l) name (Γ.length - i) l := by
  induction scope generalizing i with
  | top => simp at hl
  | init =>
    cases i with
    | succ i => simp at hl
    | zero =>
      obtain rfl : source.init = l := by simpa using hl
      exact ⟨_, h.describes.init⟩
  | @function Γ site f params result body _ declared ih =>
    cases i with
    | succ i =>
      obtain ⟨name, frame⟩ := ih (by simpa using hl)
      exact ⟨name, by simpa using frame⟩
    | zero =>
      obtain rfl : Decl.level site params body = l := by simpa using hl
      obtain ⟨frame, hf, of⟩ := (h.decl_facts declared).2.2.2.2.1
      rw [h.describes.frame] at hf
      refine ⟨f, ?_⟩
      rw [frameOf, Decl.level]
      dsimp only
      rw [hf]
      exact of

/-! ## Addresses -/

theorem slot_access (scope : source.Scope Γ) {i : Nat} (hl : Γ[i]? = some l) {d : NodeId}
    (hd : d ∈ l.variables) :
    t.owner d = some (Γ.length - i) ∧
      t.access d = some (.here ((contextOf source ctx).storage.offset d)) := by
  obtain ⟨name, frame⟩ := h.frame scope hl
  have found : ∃ offset, t.owner d = some (Γ.length - i) ∧ t.access d = some (.here offset) := by
    rcases List.mem_append.1 hd with hd | hd
    · exact frame.params.access hd
    · exact frame.locals.access hd
  obtain ⟨offset, owner, access⟩ := found
  refine ⟨owner, ?_⟩
  simp [contextOf, storageOf, ← h.describes.access, access]

theorem global_access {d : NodeId} (hd : d ∈ source.globals) :
    t.access d = some (.global ((contextOf source ctx).storage.label d)) := by
  obtain ⟨e, he, rfl⟩ := List.mem_map.1 hd
  obtain ⟨g, -, site, x, type, init, rfl, -, access, -⟩ := exists_of_mem_left h.describes.globals he
  have access : t.access (Decl.id (.var site x type init)) = some (.global x) := access
  simp [contextOf, storageOf, dataLabel, ← h.describes.access, access]

/-- The address of a variable that is reached from a place. -/
theorem address_reached (scope : source.Scope Γ) {d : NodeId}
    (reach : d ∈ source.globals ∨ ∃ (i : Nat) (l : Level), Γ[i]? = some l ∧ d ∈ l.variables)
    {id : NodeId} {owner : Nat} {own : Access} (howner : t.owner d = some owner)
    (hown : t.access d = some own) (reached : Layout.reach id d Γ.length owner own = .ok access) :
    Reached source ctx Γ d (addressExpr access) := by
  rcases reach with global | ⟨i, l, hl, mem⟩
  · rw [h.global_access global] at hown
    cases hown
    cases reached
    exact .global global
  · obtain ⟨owner', access'⟩ := h.slot_access scope hl mem
    rw [owner'] at howner
    rw [access'] at hown
    cases howner
    cases hown
    obtain rfl := reach_here (List.getElem?_eq_some_iff.1 hl).1 reached
    by_cases zero : i = 0
    · subst zero
      exact .slot hl mem
    · rw [if_neg zero]
      exact .slot hl mem

/-- A name stands for the variable that it is bound to. -/
theorem name_reached {x : String} (facts : (found source ctx t sort).expr Γ (.name site x))
    (reached : ctx.layout.accesses.get? site.id = some access) :
    ∃ d τ, ctx.bindings.get? site.id = some (.decl d) ∧ ctx.types.get? site.id = some τ ∧
      ctx.types.get? d = some τ ∧ τ.isData = true ∧
      Lowering.isParameter ctx site.id = isParameter source d ∧
      Reached source ctx Γ d (addressExpr access) := by
  obtain ⟨-, -, ⟨d, bound, reach, Γ', decl, declared, rfl, isVariable⟩,
    ⟨τ, typed, -, d', bound', type⟩,
    ⟨d'', owner, own, access', bound'', howner, hown, hreach, haccess⟩, scope, -⟩ := facts
  rw [bound] at bound' bound''
  cases bound'
  cases bound''
  rw [h.describes.access, reached] at haccess
  cases haccess
  obtain ⟨τ', type', data⟩ := h.variable_type declared isVariable
  rw [type] at type'
  cases type'
  refine ⟨decl.id, τ, bound, typed, type, data, ?_,
    h.address_reached scope reach howner hown hreach⟩
  unfold Lowering.isParameter isParameter
  rw [bound, h.signatures]
  rfl

/-- A name stands for the cells of its variable. -/
theorem name_kinded {x : String} (facts : (found source ctx t sort).expr Γ (.name site x))
    (reached : ctx.layout.accesses.get? site.id = some access) :
    ∃ d τ, ctx.types.get? site.id = some τ ∧ ctx.types.get? d = some τ ∧ τ.isData = true ∧
      Lowering.isParameter ctx site.id = isParameter source d ∧
      ∀ κ D, Kinded (contextOf source ctx) Γ κ (.value D (addressExpr access)
        (.cells ((contextOf source ctx).storage.content d)
          ((contextOf source ctx).storage.count d))) := by
  obtain ⟨d, τ, -, typed, type, data, parameter, address⟩ := h.name_reached facts reached
  exact ⟨d, τ, typed, type, data, parameter, fun κ D => address.kinded⟩

/-! ## Calls -/

/-- A function that no other is around is a definition of the program. -/
theorem mem_definitions
    (declared : ([], .function site f params result body) ∈ source.declarations) :
    .function site f params result body ∈ source.definitions := by
  obtain ⟨e, he, mem⟩ := List.mem_flatMap.1 declared
  cases e with
  | function site' f' params' result' body' =>
    rcases List.mem_cons.1 mem with eq | mem
    · cases eq
      exact he
    · rcases List.mem_append.1 mem with mem | mem
      · rw [Decl.declarationsList_eq] at mem
        obtain ⟨p, hp, mem⟩ := List.mem_flatMap.1 mem
        have isParam := (h.params_declared
          (List.mem_flatMap.2 ⟨_, he, Decl.mem_declarations _ _⟩) hp).2
        cases p with
        | param => cases List.mem_singleton.1 mem
        | _ => cases isParam
      · simpa using Expr.declarations_suffix body' mem
  | var site' x type init =>
    have outer := Decl.declarations_suffix _ mem
    simp [Source.envOf, Decl.isVar] at outer
  | absent | param => cases List.mem_singleton.1 mem
  | «alias» => cases List.mem_singleton.1 mem

/-- Labels of functions are not names of built-ins that a program calls. -/
theorem builtin_unused {b : Builtin} (free : source.IsBuiltin b)
    (r : Routine) : ¬ (contextOf source ctx).routine b.name r := by
  rintro ⟨site, f, params, result, body, frame, ps, τ, declared, -, laid, label, -⟩
  obtain ⟨frame', laid', of⟩ := (h.decl_facts declared).2.2.2.2.1
  rw [h.describes.frame, laid] at laid'
  cases laid'
  have named := of.label
  split at named
  · have top : r.outer = [] := List.eq_nil_of_length_eq_zero (by omega)
    rw [top] at declared
    exact free _ (h.mem_definitions declared) .function (by rw [← label, named]; rfl)
  · obtain ⟨n, named⟩ := named
    rw [label] at named
    have first : b.name.toList.head? = some 'L' := by
      rw [named]
      simp
    cases b <;> simp [Builtin.name] at first

omit h in
/-- Arguments of the types of the parameters have the kinds that the parameters hold. -/
theorem arguments_suit
    (hargs : List.Forall₂ (fun t p => (p.isData = true → κ t = some (Ty.kind p)) ∧ t ∈ D) ts ps)
    (hparams : List.Forall₂ (fun q τ => ctx.types.get? (Decl.id q) = some τ ∧ τ.isData = true)
      params ps) (areParams : ∀ q ∈ params, isParameter source q.id = true) :
    List.Forall₂ (fun t d => κ t = some ((contextOf source ctx).storage.content d).kind ∧ t ∈ D) ts
      (params.map Decl.id) := by
  induction hparams generalizing ts with
  | nil =>
    cases hargs
    exact .nil
  | @cons q τ params ps first _ ih =>
    cases hargs with
    | cons arg args =>
      refine .cons ⟨?_, arg.2⟩ (ih args fun q hq => areParams q (by simp [hq]))
      rw [arg.1 first.2, contextOf_storage, content_parameter first.1 (areParams q (by simp)),
        Ty.kind]

/-- A call that is bound to a declaration is bound to a function declared around it. -/
theorem called_function (facts : (found source ctx t sort).expr Γ (.call site f args)) {d : NodeId}
    (bound : ctx.bindings.get? site.id = some (.decl d)) :
    ∃ Γ' site' f' params result body, Γ' <:+ Γ ∧ d = site'.id ∧
      (Γ', .function site' f' params result body) ∈ source.declarations := by
  obtain ⟨τ, -, -, ps, type, -⟩ := facts.2.2.2.1
  have type := type.of_decl bound
  rcases facts.2.2.1 with ⟨b, bound', -⟩ | ⟨d', bound', reach⟩
  · simp [bound] at bound'
  rw [bound] at bound'
  cases bound'
  rcases reach with
    ⟨-, Γ', decl, declared, rfl, isVariable⟩ | ⟨Γ', decl, suffix, declared, rfl, isFun⟩
  · -- variables do not have the types of functions
    obtain ⟨τ', type', data⟩ := h.variable_type declared isVariable
    rw [type] at type'
    cases type'
    cases data
  · cases decl with
    | function site' f' params result body =>
      exact ⟨Γ', site', f', params, result, body, suffix, rfl, declared⟩
    | _ => cases isFun

/-- What a call refers to: a built-in, or a function declared around it. -/
theorem callee_cases (facts : (found source ctx t sort).expr Γ (.call site f args)) {τ : Ty}
    (type : CalleeType ctx.bindings ctx.types site.id ps τ)
    (callee : Callee ctx Γ.length site.id label link) :
    (∃ b, ctx.bindings.get? site.id = some (.builtin b) ∧ source.IsBuiltin b ∧ ps = b.params ∧
      τ = b.result ∧ label = b.name ∧ link = .int 0) ∨
    ∃ Γ' site' f' params result body frame, ctx.bindings.get? site.id = some (.decl site'.id) ∧
      (Γ', .function site' f' params result body) ∈ source.declarations ∧
      ctx.layout.frames.get? site'.id = some frame ∧ frame.label = label ∧
      ctx.types.get? site'.id = some (.function ps τ) ∧ τ.isAtomic = true ∧
      List.Forall₂ (fun p τ => ctx.types.get? (Decl.id p) = some τ ∧ τ.isData = true) params ps ∧
      LinkTo Γ Γ' link := by
  rcases facts.2.2.1 with ⟨b, bound, free⟩ | ⟨d, bound, -⟩
  · rcases type with ⟨b', bound', signature⟩ | ⟨d, bound', -⟩
    · rw [bound] at bound'
      cases bound'
      cases signature
      cases callee with
      | builtin bound' =>
        rw [bound] at bound'
        cases bound'
        exact .inl ⟨b, bound, free, rfl, rfl, rfl, rfl⟩
      | top bound' | nested bound' => simp [bound] at bound'
    · simp [bound] at bound'
  · have type := type.of_decl bound
    obtain ⟨Γ', site', f', params, result, body, suffix, rfl, declared⟩ :=
      h.called_function facts bound
    obtain ⟨frame, laid, of⟩ := (h.decl_facts declared).2.2.2.2.1
    obtain ⟨ps', τ', type', atomic, -, hparams⟩ := (h.decl_facts declared).2.2.2.1
    rw [type] at type'
    cases type'
    rw [h.describes.frame] at laid
    obtain ⟨hops, drop⟩ : ∃ hops, Γ' = Γ.drop hops ∧ hops + Γ'.length = Γ.length := by
      obtain ⟨front, rfl⟩ := suffix
      exact ⟨front.length, by simp, by simp⟩
    refine .inr ⟨Γ', site', f', params, result, body, frame, bound, declared, laid, ?_⟩
    cases callee with
    | builtin bound' => simp [bound] at bound'
    | @top d' frame' bound' laid' one =>
      rw [bound] at bound'
      cases bound'
      have same : frame = frame' := by simpa [Decl.id, Decl.site, laid] using laid'
      subst same
      have deep := of.deep
      refine ⟨rfl, type, atomic, hparams, .inl ⟨?_, rfl⟩⟩
      exact List.eq_nil_of_length_eq_zero (show Γ'.length = 0 by omega)
    | @nested d' frame' bound' laid' inner near =>
      rw [bound] at bound'
      cases bound'
      have same : frame = frame' := by simpa [Decl.id, Decl.site, laid] using laid'
      subst same
      have deep := of.deep
      refine ⟨rfl, type, atomic, hparams, .inr ⟨hops, ?_, drop.1, ?_⟩⟩
      · rintro rfl
        exact inner deep
      · congr 1
        omega

/-- A call of a function that is bound to it. -/
theorem call_kinded (facts : (found source ctx t sort).expr Γ (.call site f args)) {τ : Ty}
    (type : CalleeType ctx.bindings ctx.types site.id ps τ)
    (callee : Callee ctx Γ.length site.id label link)
    (hargs : List.Forall₂ (fun t p => (p.isData = true → κ t = some (Ty.kind p)) ∧ t ∈ D) ts ps) :
    Kinded (contextOf source ctx) Γ κ (.value D (.call label (link :: ts.map .temp)) τ.kind) := by
  rcases h.callee_cases facts type callee with ⟨b, -, free, rfl, rfl, rfl, rfl⟩ |
    ⟨Γ', site', f', params, result, body, frame, -, declared, laid, rfl, type, atomic,
      hparams, linked⟩
  · refine .builtin ?_ (h.builtin_unused free)
    cases b <;> simpa [Builtin.params, List.forall₂_cons_right_iff, Ty.isData] using hargs
  · let r : Routine := ⟨Decl.level site' params body, Γ', τ.leaf⟩
    have routine : (contextOf source ctx).routine frame.label r :=
      ⟨site', f', params, result, body, frame, ps, τ, declared, rfl, laid, rfl, type, rfl⟩
    have given : List.Forall₂
      (fun t d => κ t = some ((contextOf source ctx).storage.content d).kind ∧
        t ∈ D) ts r.level.params :=
      arguments_suit hargs hparams fun p hp => by
        obtain ⟨declared, isParam⟩ := h.params_declared declared hp
        exact (h.isParameter_eq declared).trans isParam
    rw [Ty.kind_of_isAtomic atomic]
    exact .call routine linked given

end Analysed
end PinsBackend.Kinds
