import PinsBackend.Proofs.Kinds.Labels

/-! Lowered code has the kinds of the types of the program.

Each construct is treated once, as code with given parts; the induction over the rules of lowering
then only hands the kinds of new temporaries on from part to part. -/
namespace PinsBackend.Kinds

open Syntax Ir Layout
open Lowering hiding Context expr exprs decl decls literal block isParameter shortCircuit ifThen
  ifElse whileDo forDo

/-! ## Constructs -/

section

variable {labels : List String} {t : Temp}

variable {ctx : Context} {Γ : Env} {κ : Temp → Option Kind} {k : Kind} {c v a : Ir.Expr}

/-- Labels that all expect the same temporaries. -/
def Scope.all (labels : List String) (E : Set Temp) : Scope := fun l =>
  if l ∈ labels then some E else none

theorem Scope.all_of_mem {E : Set Temp} {l : String} (h : l ∈ labels) :
    Scope.all labels E l = some E := if_pos h

theorem Scope.mem_of_all {E F : Set Temp} {l : String} (h : Scope.all labels E l = some F) :
    l ∈ labels := by
  unfold Scope.all at h
  split at h
  · assumption
  · cases h

theorem Kinded.after {Ψ : Scope} {D D' : Set Temp} {ss : List Stmt} {e : Ir.Expr}
    (own : ∀ {l E}, Ψ l = some E → .label l ∈ ss) (stmts : Kinded ctx Γ κ (.run Ψ D ss D'))
    (value : Kinded ctx Γ κ (.value D' e k)) :
    Kinded ctx Γ κ (.value D (.after (.seq ss) e) k) := by
  unfold Expr.after
  split
  · next nop =>
    cases stmts with
    | nil sub => exact value.mono sub
    | @cons _ _ _ _ s ss first _ =>
      have idle : s.isNop = true := (Bool.and_eq_true_iff.1 nop).1
      cases first <;> cases idle
  · exact .eseq own stmts value

/-- Values that need no temporary from outside. -/
abbrev Kinded.Closed (ctx : Context) (Γ : Env) (κ : Temp → Option Kind) (e : Ir.Expr) (k : Kind) :
    Prop :=
  ∀ D, Kinded ctx Γ κ (.value D e k)

open Kinded (Closed)

theorem Kinded.shortCircuit (conjunction : Bool) {l r : Ir.Expr} {right done : String}
    (kind : κ t = some (.word .integer)) (hl : Closed ctx Γ κ l (.word .integer))
    (hr : Closed ctx Γ κ r (.word .integer)) :
    Closed ctx Γ κ (Lowering.shortCircuit conjunction l r t right done) (.word .integer) := by
  intro D
  have known (m : String) (h : m ∈ [right, done]) :
      Scope.all [right, done] (insert t D) m = some (insert t D) := Scope.all_of_mem h
  have result : Kinded ctx Γ κ (.value (insert t D) (.temp t) (.word .integer)) :=
    .temp kind (Set.mem_insert t D)
  have behind : Kinded ctx Γ κ (.run (.all [right, done] (insert t D)) (insert t D)
      [.label right, .move (.temp t) r, .label done] (insert t D)) :=
    .cons (.label (known right (by simp)) (subset_refl _))
      (.cons (.assign kind (.inl rfl) (hr _))
        (.single (.label (known done (by simp)) (Set.subset_insert t _))))
  refine .after (Ψ := .all [right, done] (insert t D)) ?_
    (.cons (.assign kind (.inl rfl) (hl D)) (.cons ?_ behind)) result
  · intro m E h
    rcases List.mem_pair.1 (Scope.mem_of_all h) with rfl | rfl <;> simp
  · cases conjunction with
    | true =>
      exact .cjump result (known right (by simp)) subset_rfl (known done (by simp)) subset_rfl
    | false =>
      exact .cjump result (known done (by simp)) subset_rfl (known right (by simp)) subset_rfl

theorem Kinded.ifThen {onTrue onFalse : String} (hc : Closed ctx Γ κ c (.word .integer))
    (hv : Closed ctx Γ κ v k) :
    Closed ctx Γ κ (Lowering.ifThen c v onTrue onFalse) (.word .integer) := by
  intro D
  have known (m : String) (h : m ∈ [onTrue, onFalse]) : Scope.all [onTrue, onFalse] D m = some D :=
    Scope.all_of_mem h
  refine .after (Ψ := .all [onTrue, onFalse] D) ?_ ?_ (.zero (D := D) 0)
  · intro m E h
    simpa using Scope.mem_of_all h
  · exact .cons
      (.cjump (hc D) (known onTrue (by simp)) subset_rfl (known onFalse (by simp)) subset_rfl)
      (.cons (.label (known onTrue (by simp)) (subset_refl D))
        (.cons (.eval (hv D)) (.single (.label (known onFalse (by simp)) subset_rfl))))

theorem Kinded.ifElse {b : Ir.Expr} {k₁ k₂ : Kind} {onTrue onFalse done : String}
    (kind : κ t = some k) (suits₁ : k = k₁ ∨ k = .any) (suits₂ : k = k₂ ∨ k = .any)
    (hc : Closed ctx Γ κ c (.word .integer)) (ha : Closed ctx Γ κ a k₁) (hb : Closed ctx Γ κ b k₂)
    (ne : done ≠ onTrue) (ne' : done ≠ onFalse) :
    Closed ctx Γ κ (Lowering.ifElse c a b t onTrue onFalse done) k := by
  intro D
  -- only behind the branches is the result written
  let Ψ : Scope := Function.update (Scope.all [onTrue, onFalse] D) done (some (insert t D))
  have elsewhere {m : String} (h : m ≠ done) : Ψ m = Scope.all [onTrue, onFalse] D m :=
    Function.update_of_ne h ..
  have atTrue : Ψ onTrue = some D := (elsewhere ne.symm).trans (Scope.all_of_mem (by simp))
  have atFalse : Ψ onFalse = some D := (elsewhere ne'.symm).trans (Scope.all_of_mem (by simp))
  have atDone : Ψ done = some (insert t D) := Function.update_self ..
  refine .after (Ψ := Ψ) ?_ ?_ (.temp kind (Set.mem_insert t D))
  · intro m E h
    by_cases eq : m = done
    · simp [eq]
    · rw [elsewhere eq] at h
      rcases List.mem_pair.1 (Scope.mem_of_all h) with rfl | rfl <;> simp
  · exact .cons (.cjump (hc D) atTrue subset_rfl atFalse subset_rfl)
      (.cons (.label atTrue (subset_refl D))
        (.cons (.assign kind suits₁ (ha D)) (.cons (.jump atDone subset_rfl)
          (.cons (.label atFalse (subset_refl D)) (.cons (.assign kind suits₂ (hb D))
            (.single (.label atDone subset_rfl)))))))

theorem Kinded.whileDo {test enter exit : String} (hc : Closed ctx Γ κ c (.word .integer))
    (hv : Closed ctx Γ κ v k) :
    Closed ctx Γ κ (Lowering.whileDo c v test enter exit) (.word .integer) := by
  intro D
  have known (m : String) (h : m ∈ [test, enter, exit]) :
      Scope.all [test, enter, exit] D m = some D := Scope.all_of_mem h
  refine .after (Ψ := .all [test, enter, exit] D) ?_ ?_ (.zero (D := D) 0)
  · intro m E h
    simpa using Scope.mem_of_all h
  · exact .cons (.label (known test (by simp)) subset_rfl)
      (.cons (.cjump (hc D) (known enter (by simp)) subset_rfl (known exit (by simp)) subset_rfl)
        (.cons (.label (known enter (by simp)) (subset_refl D))
          (.cons (.eval (hv D)) (.cons (.jump (known test (by simp)) subset_rfl)
            (.single (.label (known exit (by simp)) (subset_refl D)))))))

theorem Kinded.forDo {low high step body : Ir.Expr} {n : Nat} {limit increment : Temp}
    {test enter exit : String} (ha : Closed ctx Γ κ a (.cells (.word .integer) n)) (pos : 0 < n)
    (hlo : Closed ctx Γ κ low (.word .integer)) (hhi : Closed ctx Γ κ high (.word .integer))
    (hst : Closed ctx Γ κ step (.word .integer)) (hb : Closed ctx Γ κ body k)
    (kindLimit : κ limit = some (.word .integer))
    (kindIncrement : κ increment = some (.word .integer)) :
    Closed ctx Γ κ (Lowering.forDo (.mem a) low high step body limit increment test enter exit)
      (.word .integer) := by
  intro D
  let E : Set Temp := insert increment (insert limit D)
  have known (m : String) (h : m ∈ [test, enter, exit]) :
      Scope.all [test, enter, exit] E m = some E := Scope.all_of_mem h
  have counter : Kinded ctx Γ κ (.value E (.mem a) (.word .integer)) := .load (ha E) pos
  have bound : Kinded ctx Γ κ (.value E (.temp limit) (.word .integer)) :=
    .temp kindLimit (by simp [E])
  have next : Kinded ctx Γ κ (.value E (.binop .add (.mem a) (.temp increment)) (.word .integer)) :=
    .arithmetic rfl counter (.temp kindIncrement (by simp [E]))
  refine .after (Ψ := .all [test, enter, exit] E) ?_ ?_ (.zero (D := E) 0)
  · intro m F h
    simpa using Scope.mem_of_all h
  · exact .cons (.store (ha D) pos (hlo D))
      (.cons (.assign kindLimit (.inl rfl) (hhi D))
        (.cons (.assign kindIncrement (.inl rfl) (hst _))
          (.cons (.label (known test (by simp)) (subset_refl E))
            (.cons (.cjump (.comparison rfl counter bound) (known enter (by simp)) subset_rfl
                (known exit (by simp)) subset_rfl)
              (.cons (.label (known enter (by simp)) (subset_refl E))
                (.cons (.eval (hb E)) (.cons (.store (ha E) pos next)
                  (.cons (.jump (known test (by simp)) subset_rfl)
                    (.single (.label (known exit (by simp)) (subset_refl E)))))))))))

theorem Kinded.assignment {n : Nat} {k : Value.Kind} (ha : Closed ctx Γ κ a (.cells (.word k) n))
    (pos : 0 < n) (hv : Closed ctx Γ κ v (.word k)) (kind : κ t = some (.word k)) :
    Closed ctx Γ κ (.after (.seq [.move (.temp t) v, .move (.mem a) (.temp t)]) (.temp t))
      (.word k) := by
  intro D
  have read : Kinded ctx Γ κ (.value (insert t D) (.temp t) (.word k)) :=
    .temp kind (Set.mem_insert t D)
  exact .after (Ψ := fun _ => none) (fun h => by cases h)
    (.cons (.assign kind (.inl rfl) (hv D)) (.single (.store (ha _) pos read))) read

/-- Statements that only evaluate leave nothing behind. -/
theorem Kinded.evals {Ψ : Scope} {es : List Ir.Expr} (h : ∀ e ∈ es, ∃ k, Closed ctx Γ κ e k)
    (D : Set Temp) : Kinded ctx Γ κ (.run Ψ D (es.map .eval) D) := by
  induction es with
  | nil => exact .nil subset_rfl
  | cons e es ih =>
    obtain ⟨k, he⟩ := h e (by simp)
    exact .cons (.eval (he D)) (ih fun e he => h e (by simp [he]))

theorem Kinded.block {items : List Ir.Expr} {last : Ir.Expr}
    (h : ∀ e ∈ items, ∃ k, Closed ctx Γ κ e k) (hlast : items.getLast? = some last)
    (hk : Closed ctx Γ κ last k) :
    Closed ctx Γ κ (Lowering.block items) k := by
  intro D
  unfold Lowering.block
  rw [hlast]
  exact .after (Ψ := fun _ => none) (fun h => by cases h)
    (Kinded.evals (fun e he => h e ((List.dropLast_sublist items).subset he)) D) (hk D)

end

/-! ## Pieces -/

section

variable (source : Source) (ctx : Lowering.Context) (Γ : Env) (κ : Temp → Option Kind)

/-- The value of an expression has the kind of its type. -/
def Gives (e : Syntax.Expr) (r : Ir.Expr) : Prop :=
  ∃ τ k, ctx.types.get? e.id = some τ ∧ (τ.isData = true → k = τ.kind) ∧
    Kinded.Closed (contextOf source ctx) Γ κ r k

/-- A location is the word of an atomic variable or element. -/
def Locates (e : Syntax.Expr) (r : Ir.Expr) : Prop :=
  ∃ a τ, r = .mem a ∧ ctx.types.get? e.id = some τ ∧ (τ.isAtomic = true →
    ∃ n, 0 < n ∧ Kinded.Closed (contextOf source ctx) Γ κ a (.cells (.word τ.leaf) n))

/-- Statements that leave these temporaries written. -/
def Leaves (ss : List Stmt) (ts : List Temp) : Prop :=
  ∀ D, Kinded (contextOf source ctx) Γ κ (.run (fun _ => none) D ss ({t | t ∈ ts} ∪ D))

/-- A temporary holds the value of an argument. -/
def Passes (e : Syntax.Expr) (t : Temp) : Prop :=
  ∃ τ, ctx.types.get? e.id = some τ ∧ (τ.isData = true → κ t = some τ.kind)

def Suits : Piece → Code → Prop
  | .expr e, .value r => Gives source ctx Γ κ e r
  | .location e, .value r => Locates source ctx Γ κ e r
  | .exprs es, .values rs => List.Forall₂ (Gives source ctx Γ κ) es rs
  | .arguments es, .moves ss temps => ∃ ts, temps = ts.map .temp ∧
    List.Forall₂ (Passes ctx κ) es ts ∧ Leaves source ctx Γ κ ss ts
  | .decl _, .stmts ss | .decls _, .stmts ss => Leaves source ctx Γ κ ss []
  | _, _ => False

/-- The code of a function, which leaves its result in `Temp.rv`. -/
def ChunkSuits (c : Chunk Stmt) : Prop :=
  ∃ r κ e, (contextOf source ctx).routine c.frame.label r ∧ c.frame = frameOf ctx.layout r.level ∧
    source.Scope r.env ∧ c.body = .move (.temp Temp.rv) e ∧ κ Temp.rv = some (.word r.result) ∧
    κ Temp.fp = none ∧ Kinded.Closed (contextOf source ctx) r.env κ e (.word r.result) ∧
    ∃ d, (r.outer, d) ∈ source.declarations ∧ Lowering.IsCodeOf ctx c d

end

section

variable {ss moves : List Stmt} {x : String} {args : List Syntax.Expr} {conjunction : Bool}
  {temp : Temp}

variable {source : Source} {ctx : Lowering.Context} {t : Tables} {sort : NodeId → NodeSort}
  {Γ : Env}
  {κ κ' : Temp → Option Kind} {e l i : Syntax.Expr} {r a b : Ir.Expr} {ts : List Temp}
  {τ type left right : Ty} {site : Site} {access : Access} {length size : Int} {op : BinaryOp}

theorem Gives.extend (le : Extends κ κ') (h : Gives source ctx Γ κ e r) :
    Gives source ctx Γ κ' e r := by
  obtain ⟨τ, k, type, kind, value⟩ := h
  exact ⟨τ, k, type, kind, fun D => (value D).extend le⟩

theorem Locates.extend (le : Extends κ κ') (h : Locates source ctx Γ κ e r) :
    Locates source ctx Γ κ' e r := by
  obtain ⟨a, τ, eq, type, address⟩ := h
  refine ⟨a, τ, eq, type, fun atomic => ?_⟩
  obtain ⟨n, pos, address⟩ := address atomic
  exact ⟨n, pos, fun D => (address D).extend le⟩

theorem Leaves.extend (le : Extends κ κ') (h : Leaves source ctx Γ κ ss ts) :
    Leaves source ctx Γ κ' ss ts := fun D => (h D).extend le

theorem leaves_nil : Leaves source ctx Γ κ ss [] ↔
    ∀ D, Kinded (contextOf source ctx) Γ κ (.run (fun _ => none) D ss D) := by simp [Leaves]

/-- An expression of some type of values has the kind of that type. -/
theorem Gives.has (h : Gives source ctx Γ κ e r) (has : Has ctx.types e.id τ)
    (data : τ.isData = true) :
    Kinded.Closed (contextOf source ctx) Γ κ r τ.kind := by
  obtain ⟨τ', k, type, kind, value⟩ := h
  obtain ⟨τ'', type', same⟩ := has
  rw [type] at type'
  cases type'
  rw [same.kind, ← kind (same.isData ▸ data)]
  exact value

theorem Gives.integer (h : Gives source ctx Γ κ e r) (has : Has ctx.types e.id .integer) :
    Kinded.Closed (contextOf source ctx) Γ κ r (.word .integer) := h.has has rfl

theorem Gives.logical (h : Gives source ctx Γ κ e r) (has : Has ctx.types e.id .logical) :
    Kinded.Closed (contextOf source ctx) Γ κ r (.word .integer) := h.has has rfl

/-- What the type check found out about an expression. -/
theorem typing (h : e.Everywhere (found source ctx t sort) Γ) :
    ∃ τ, ctx.types.get? e.id = some τ ∧ τ.IsResult ∧ Rule ctx.bindings ctx.types e τ :=
  h.here.2.2.2.1

theorem Analysed.gives_name (h : Analysed source ctx t sort)
    (facts : (found source ctx t sort).expr Γ (.name site x))
    (reached : ctx.layout.accesses.get? site.id = some access)
    (typed : ctx.types.get? site.id = some type) :
    Gives source ctx Γ κ (.name site x)
      (if type.isArray && !Lowering.isParameter ctx site.id then addressExpr access
        else .mem (addressExpr access)) := by
  obtain ⟨d, τ, typed', type', data, parameter, address⟩ := h.name_kinded facts reached
  rw [typed] at typed'
  cases typed'
  rw [parameter]
  refine ⟨type, type.kind, typed, fun _ => rfl, fun D => ?_⟩
  have address := address κ D
  cases hp : isParameter source d with
  | true =>
    rw [contextOf_storage, content_parameter type' hp, count_parameter hp] at address
    rw [if_neg (by simp)]
    exact .load address Nat.one_pos
  | false =>
    rw [contextOf_storage, content_variable type' hp, count_variable type' hp] at address
    cases ha : type.isArray with
    | true => simpa [Ty.kind_of_isArray ha] using address
    | false =>
      rw [Ty.kind_of_isAtomic (Ty.isAtomic_of_isData data ha), if_neg (by simp)]
      exact .load address (Ty.extent_pos data)

theorem Analysed.locates_name (h : Analysed source ctx t sort)
    (facts : (found source ctx t sort).expr Γ (.name site x))
    (reached : ctx.layout.accesses.get? site.id = some access) :
    Locates source ctx Γ κ (.name site x) (.mem (addressExpr access)) := by
  obtain ⟨d, τ, typed, type, -, -, address⟩ := h.name_kinded facts reached
  refine ⟨_, τ, rfl, typed, fun atomic => ⟨1, Nat.one_pos, fun D => ?_⟩⟩
  have address := address κ D
  rw [contextOf_storage, (cells_of_isAtomic type atomic).1,
    (cells_of_isAtomic type atomic).2] at address
  exact address

/-- An indexed array has the cells of its elements, and a word for the bytes of one. -/
theorem element_parts (typeLeft : ctx.types.get? l.id = some left)
    (rule : OperatorRule .index left right τ) (result : left.IsResult)
    (indexed : Indexed ctx l.id length type size) :
    type = τ ∧ τ.isData = true ∧ left.isData = true ∧ Ty.integer.Same right ∧
      (∃ n, left.kind = .cells (.word τ.leaf) n ∧ length.toNat * τ.extent ≤ n) ∧
      size = τ.extent * Word.bytes ∧ Word.Fits size := by
  obtain ⟨⟨n, parts⟩, integer⟩ := rule
  have array := indexed.array
  rw [typeLeft, Option.bind_some, parts] at array
  cases array
  have data : left.isData = true := by
    rcases result with data | rfl
    · exact data
    · cases parts
  obtain ⟨-, data', extent, isArray⟩ := Ty.arrayParts?_eq_some parts data
  have bytes := indexed.bytes
  cases words : τ.sizeInWords with
  | error o => simp [words, Except.bind] at bytes
  | ok w =>
    rw [words] at bytes
    obtain ⟨fits, rfl⟩ := Word.mul_eq_ok.1 bytes
    rw [Ty.sizeInWords_eq data' words] at fits ⊢
    refine ⟨rfl, data', data, integer, ⟨_, ?_, extent.ge⟩, rfl, fits⟩
    rw [Ty.kind_of_isArray isArray, Ty.leaf_of_arrayParts? parts]

/-- An element of an array is the place of as many cells as its type has. -/
theorem element_closed
    (facts : (Syntax.Expr.binary site .index l i).Everywhere (found source ctx t sort) Γ)
    (indexed : Indexed ctx l.id length type size) (base : Gives source ctx Γ κ l a)
    (index : Gives source ctx Γ κ i b) :
    ctx.types.get? (Syntax.Expr.binary site .index l i).id = some type ∧ type.isData = true ∧
      Kinded.Closed (contextOf source ctx) Γ κ (elementExpr a b length size)
        (.cells (.word type.leaf) type.extent) := by
  obtain ⟨τ, typed, -, left, right, typeLeft, typeRight, rule⟩ := typing facts
  obtain ⟨left', typeLeft', result, -⟩ := typing facts.2.1
  rw [typeLeft] at typeLeft'
  cases typeLeft'
  obtain ⟨rfl, data', data, integer, ⟨n, kind, inside⟩, bytes, fits⟩ :=
    element_parts typeLeft rule result indexed
  refine ⟨typed, data', fun D => ?_⟩
  have array := base.has ⟨left, typeLeft, Ty.Same.refl left⟩ data D
  rw [kind] at array
  exact .element array (index.integer ⟨right, typeRight, integer⟩ D) inside bytes fits

theorem gives_element
    (facts : (Syntax.Expr.binary site .index l i).Everywhere (found source ctx t sort) Γ)
    (indexed : Indexed ctx l.id length type size) (base : Gives source ctx Γ κ l a)
    (index : Gives source ctx Γ κ i b) :
    Gives source ctx Γ κ (.binary site .index l i)
      (if type.isArray then elementExpr a b length size else .mem
        (elementExpr a b length size)) := by
  obtain ⟨typed, data, address⟩ := element_closed facts indexed base index
  refine ⟨type, type.kind, typed, fun _ => rfl, fun D => ?_⟩
  cases ha : type.isArray with
  | true => simpa [Ty.kind_of_isArray ha] using address D
  | false =>
    rw [Ty.kind_of_isAtomic (Ty.isAtomic_of_isData data ha), if_neg (by simp)]
    exact .load (address D) (Ty.extent_pos data)

theorem locates_element
    (facts : (Syntax.Expr.binary site .index l i).Everywhere (found source ctx t sort) Γ)
    (indexed : Indexed ctx l.id length type size) (base : Gives source ctx Γ κ l a)
    (index : Gives source ctx Γ κ i b) :
    Locates source ctx Γ κ (.binary site .index l i) (.mem (elementExpr a b length size)) := by
  obtain ⟨typed, data, address⟩ := element_closed facts indexed base index
  exact ⟨_, type, rfl, typed, fun _ => ⟨_, Ty.extent_pos data, address⟩⟩

/-- Temporaries with the arguments of a call have the kinds of its parameters. -/
theorem passes_suit {params : List Ty} {D : Set Temp} (passed : List.Forall₂ (Passes ctx κ) args ts)
    (suit : List.Forall₂ (fun arg p => Has ctx.types (Syntax.Expr.id arg) p) args params)
    (written : ∀ t ∈ ts, t ∈ D) :
    List.Forall₂ (fun t p => (p.isData = true → κ t = some (Ty.kind p)) ∧ t ∈ D) ts params := by
  induction passed generalizing params with
  | nil =>
    cases suit
    exact .nil
  | @cons e t args ts first _ ih =>
    cases suit with
    | cons has suit =>
      obtain ⟨τ, type, kind⟩ := first
      obtain ⟨τ', type', same⟩ := has
      rw [type] at type'
      cases type'
      refine .cons ⟨fun data => ?_, written t (by simp)⟩
        (ih suit fun u hu => written u (by simp [hu]))
      rw [kind (same.isData ▸ data), same.kind]

theorem Analysed.gives_call (h : Analysed source ctx t sort) {f : String}
    (facts : (Syntax.Expr.call site f args).Everywhere (found source ctx t sort) Γ) {label : String}
    {link : Ir.Expr} (callee : Callee ctx Γ.length site.id label link)
    (passed : List.Forall₂ (Passes ctx κ) args ts) (leaves : Leaves source ctx Γ κ moves ts) :
    Gives source ctx Γ κ (.call site f args)
      (.after (.seq moves) (.call label (link :: ts.map .temp))) := by
  obtain ⟨τ, typed, -, params, type, suit⟩ := typing facts
  refine ⟨τ, τ.kind, typed, fun _ => rfl, fun D => ?_⟩
  have given := passes_suit passed suit fun t ht => Set.mem_union_left D ht
  exact .after (Ψ := fun _ => none) (fun h => by cases h) (leaves D)
    (h.call_kinded facts.1 type callee given)

/-- The rules of the operators that are lowered to operators. -/
theorem OperatorRule.direct {op' : BinOp} (rule : OperatorRule op left right τ)
    (hop : form op = .direct op') :
    op'.isComparison = false ∧ Ty.integer.Same left ∧ Ty.integer.Same right ∧ τ = .integer ∨
      op'.isComparison = true ∧ left.isAtomic = true ∧ left.Same right ∧ τ = .logical := by
  cases op <;> cases hop
  case add | sub | mul | div | mod => exact .inl ⟨rfl, rule⟩
  case eq | neq | lt | gt | leq | geq => exact .inr ⟨rfl, rule⟩

theorem OperatorRule.logical (rule : OperatorRule op left right τ)
    (hop : form op = if conjunction then .conjunction else .disjunction) :
    Ty.logical.Same left ∧ Ty.logical.Same right ∧ τ = .logical := by
  cases conjunction <;> cases op <;> cases hop
  case false.or | true.and => exact rule

theorem gives_direct {op' : BinOp}
    (facts : (Syntax.Expr.binary site op l i).Everywhere (found source ctx t sort) Γ)
    (hop : form op = .direct op') (ha : Gives source ctx Γ κ l a) (hb : Gives source ctx Γ κ i b) :
    Gives source ctx Γ κ (.binary site op l i) (.binop op' a b) := by
  obtain ⟨τ, typed, -, left, right, typeLeft, typeRight, rule⟩ := typing facts
  rcases OperatorRule.direct rule hop with
    ⟨arithmetic, sameLeft, sameRight, rfl⟩ | ⟨comparison, atomic, same, rfl⟩
  · exact ⟨_, .word .integer, typed, fun _ => rfl, fun D => .arithmetic arithmetic
      (ha.integer ⟨left, typeLeft, sameLeft⟩ D) (hb.integer ⟨right, typeRight, sameRight⟩ D)⟩
  · have first := ha.has ⟨left, typeLeft, .refl left⟩ (Ty.isData_of_isAtomic atomic)
    have second := hb.has ⟨right, typeRight, same⟩ (Ty.isData_of_isAtomic atomic)
    rw [Ty.kind_of_isAtomic atomic] at first second
    exact ⟨_, .word .integer, typed, fun _ => rfl, fun D =>
      .comparison comparison (first D) (second D)⟩

/-- The branches of a conditional leave their value in one temporary. -/
theorem Gives.branches {c a b : Syntax.Expr} {condition onTrue onFalse : Ir.Expr}
    (facts : (Syntax.Expr.ifElse site c a b).Everywhere (found source ctx t sort) Γ)
    (hc : Gives source ctx Γ κ c condition) (ha : Gives source ctx Γ κ a onTrue)
    (hb : Gives source ctx Γ κ b onFalse) :
    ∃ k, ∀ κ' t, Extends κ κ' → κ' t = some k → ∀ {first second done : String}, done ≠ first →
      done ≠ second → Gives source ctx Γ κ' (.ifElse site c a b)
        (Lowering.ifElse condition onTrue onFalse t first second done) := by
  obtain ⟨τ, typed, -, has, τa, τb, typeTrue, typeFalse, rfl⟩ := typing facts
  obtain ⟨τa', ka, typeTrue', kindTrue, valueTrue⟩ := ha
  obtain ⟨τb', kb, typeFalse', kindFalse, valueFalse⟩ := hb
  rw [typeTrue] at typeTrue'
  rw [typeFalse] at typeFalse'
  cases typeTrue'
  cases typeFalse'
  refine ⟨if ka = kb then ka else .any, fun κ' t le kind first second done ne ne' => ?_⟩
  refine ⟨_, _, typed, fun data => ?_,
    Kinded.ifElse kind ?_ ?_ (fun D => (hc.logical has D).extend le)
    (fun D => (valueTrue D).extend le) (fun D => (valueFalse D).extend le) ne ne'⟩
  · unfold Typing.branchType at data ⊢
    split at data
    · next both =>
      have same := Ty.isCompatible_iff.1 (Bool.and_eq_true_iff.1 both).2
      have eq : ka = kb := by rw [kindTrue data, kindFalse (same.isData ▸ data), same.kind]
      rw [if_pos eq, if_pos both, kindTrue data]
    · cases data
  · split
    · exact .inl rfl
    · exact .inr rfl
  · split
    · next eq => exact .inl eq
    · exact .inr rfl

/-- The variable of a declaration that has an initial value. -/
theorem Analysed.own_reached (h : Analysed source ctx t sort) {d : Decl} (scope : source.Scope Γ)
    (own : IsOwn source Γ d) (reached : ctx.layout.accesses.get? d.id = some access) :
    Reached source ctx Γ d.id (addressExpr access) := by
  rw [← h.describes.access] at reached
  rcases own with mem | mem
  · cases Γ with
    | nil => cases mem
    | cons l Γ =>
      have mem : d.id ∈ l.variables := List.mem_append_right _ mem
      obtain ⟨-, access'⟩ := h.slot_access scope (i := 0) rfl mem
      rw [reached] at access'
      cases access'
      exact .slot (show (l :: Γ)[0]? = some l from rfl) mem
  · rw [h.global_access mem] at reached
    cases reached
    exact .global mem

theorem Analysed.initial_kinded (h : Analysed source ctx t sort) {type : TypeExpr}
    {init : Syntax.Expr}
    (facts : (Decl.var site x type (some init)).Everywhere (found source ctx t sort) Γ)
    (own : IsOwn source Γ (.var site x type (some init)))
    (reached : ctx.layout.accesses.get? site.id = some access)
    (value : Gives source ctx Γ κ init r) :
    Leaves source ctx Γ κ [.move (.mem (addressExpr access)) r] [] := by
  obtain ⟨τ, typed, atomic, has⟩ := facts.1.2.2.2.1
  have value := value.has has (Ty.isData_of_isAtomic atomic)
  rw [Ty.kind_of_isAtomic atomic] at value
  have address : Kinded.Closed (contextOf source ctx) Γ κ (addressExpr access)
      (.cells ((contextOf source ctx).storage.content site.id)
        ((contextOf source ctx).storage.count site.id)) :=
    fun D => (h.own_reached facts.1.2.2.2.2.2.1 own reached).kinded
  rw [contextOf_storage, (cells_of_isAtomic typed atomic).1,
    (cells_of_isAtomic typed atomic).2] at address
  exact leaves_nil.2 fun D => .single (.store (address D) Nat.one_pos (value D))

/-- The kinds of the temporaries of a function before its code uses any. -/
def entryKinds (result : Value.Kind) : Temp → Option Kind := fun t =>
  if t = Temp.rv then some (.word result) else none

theorem entryKinds_free (result : Value.Kind) : Free (entryKinds result) Temp.firstFree :=
  ⟨Nat.le_refl _, fun _ ht => if_neg (Nat.ne_of_gt ht), rfl⟩

theorem chunk_suits {f : String} {params : List Decl} {result : TypeExpr} {body : Syntax.Expr}
    (facts : (Decl.function site f params result body).Everywhere (found source ctx t sort) Γ)
    {frame : Frame} (laid : ctx.layout.frames.get? site.id = some frame) {s s' : State}
    (code : Lowering.expr ctx frame.depth body s = .ok r s')
    (value : ∀ k, ∃ κ n, Extends (entryKinds k) κ ∧ Free κ n ∧
      Gives source ctx (Decl.level site params body :: Γ) κ body r) :
    ChunkSuits source ctx { frame, body := .move (.temp Temp.rv) r } := by
  obtain ⟨-, -, -, ⟨ps, τ, typed, atomic, has, -⟩, -, scope, declared⟩ := facts.1
  obtain ⟨κ, n, le, free, value⟩ := value τ.leaf
  have value := value.has has (Ty.isData_of_isAtomic atomic)
  rw [Ty.kind_of_isAtomic atomic] at value
  refine ⟨⟨Decl.level site params body, Γ, τ.leaf⟩, κ, r, ?_, ?_, .function scope declared, rfl,
    le.get rfl, free.fp, value, _, declared, laid, s, r, s', code, rfl⟩
  · exact ⟨site, f, params, result, body, frame, ps, τ, declared, rfl, laid, rfl, typed, rfl⟩
  · simp [frameOf, Decl.level, laid]

theorem getLast?_of_forall₂ {α β : Type} {R : α → β → Prop} {as : List α} {bs : List β}
    (h : List.Forall₂ R as bs) :
    as.getLast? = none ∧ bs.getLast? = none ∨
      ∃ a b, as.getLast? = some a ∧ bs.getLast? = some b ∧ R a b := by
  induction h with
  | nil => exact .inl ⟨rfl, rfl⟩
  | @cons a b as bs first rest ih =>
    rcases ih with ⟨left, right⟩ | ⟨a', b', left, right, last⟩
    · obtain rfl := List.getLast?_eq_none_iff.1 left
      obtain rfl := List.getLast?_eq_none_iff.1 right
      exact .inr ⟨a, b, rfl, rfl, first⟩
    · exact .inr
        ⟨a', b', by simp [List.getLast?_cons, left], by simp [List.getLast?_cons, right], last⟩

theorem gives_block {es : List Syntax.Expr} {items : List Ir.Expr}
    (facts : (Syntax.Expr.block site es).Everywhere (found source ctx t sort) Γ)
    (parts : List.Forall₂ (Gives source ctx Γ κ) es items) :
    Gives source ctx Γ κ (.block site es) (Lowering.block items) := by
  obtain ⟨τ, typed, -, rule⟩ := typing facts
  simp only [Rule] at rule
  have each : ∀ r ∈ items, ∃ k, Kinded.Closed (contextOf source ctx) Γ κ r k := by
    intro r hr
    obtain ⟨e, -, _, k, -, -, value⟩ := exists_of_mem_left parts.flip hr
    exact ⟨k, value⟩
  rcases getLast?_of_forall₂ parts with
    ⟨left, right⟩ | ⟨e, last, left, right, τ', k, type, kind, value⟩
  · rw [left] at rule
    refine ⟨τ, .word .integer, typed, fun data => ?_, fun D => ?_⟩
    · rw [rule] at data
      cases data
    · rw [Lowering.block, right]
      exact .zero 0
  · rw [left] at rule
    dsimp only at rule
    rw [type] at rule
    cases rule
    exact ⟨τ, k, typed, kind, Kinded.block each right value⟩

theorem gives_literal {v : Literal}
    (facts : (Syntax.Expr.literal site v).Everywhere (found source ctx t sort) Γ) :
    Gives source ctx Γ κ (.literal site v) (.const (Lowering.literal v)) := by
  obtain ⟨τ, typed, -, rfl⟩ := typing facts
  refine ⟨_, _, typed, fun _ => rfl, fun D => ?_⟩
  cases v with
  | integer n => exact .int n
  | logical b => cases b <;> exact .int _
  | string s => exact .str s

theorem gives_unary {op : UnaryOp}
    (facts : (Syntax.Expr.unary site op e).Everywhere (found source ctx t sort) Γ)
    (operand : Gives source ctx Γ κ e r) :
    Gives source ctx Γ κ (.unary site op e) (Lowering.unary op r) := by
  obtain ⟨τ, typed, -, has, rfl⟩ := typing facts
  refine ⟨_, .word .integer, typed, fun _ => by cases op <;> rfl, fun D => ?_⟩
  cases op with
  | plus => exact operand.integer has D
  | minus => exact .arithmetic rfl (.zero 0) (operand.integer has D)
  | not => exact .comparison rfl (operand.logical has D) (.zero 0)

theorem gives_shortCircuit {first done : String}
    (facts : (Syntax.Expr.binary site op l i).Everywhere (found source ctx t sort) Γ)
    (hop : form op = if conjunction then .conjunction else .disjunction)
    (kind : κ temp = some (.word .integer)) (ha : Gives source ctx Γ κ l a)
    (hb : Gives source ctx Γ κ i b) :
    Gives source ctx Γ κ (.binary site op l i)
      (Lowering.shortCircuit conjunction a b temp first done) := by
  obtain ⟨τ, typed, -, left, right, typeLeft, typeRight, rule⟩ := typing facts
  obtain ⟨sameLeft, sameRight, rfl⟩ := OperatorRule.logical rule hop
  exact ⟨_, _, typed, fun _ => rfl, Kinded.shortCircuit conjunction kind
    (ha.logical ⟨left, typeLeft, sameLeft⟩) (hb.logical ⟨right, typeRight, sameRight⟩)⟩

theorem gives_forDo {c lo hi st body : Syntax.Expr} {counter low high step value : Ir.Expr}
    {limit increment : Temp} {test enter exit : String}
    (facts : (Syntax.Expr.forDo site c lo hi st body).Everywhere (found source ctx t sort) Γ)
    (hc : Locates source ctx Γ κ c counter) (hlo : Gives source ctx Γ κ lo low)
    (hhi : Gives source ctx Γ κ hi high) (hst : Gives source ctx Γ κ st step)
    (hb : Gives source ctx Γ κ body value) (kindLimit : κ limit = some (.word .integer))
    (kindIncrement : κ increment = some (.word .integer)) :
    Gives source ctx Γ κ (.forDo site c lo hi st body)
      (Lowering.forDo counter low high step value limit increment test enter exit) := by
  obtain ⟨τ, typed, -, -, hasCounter, hasLow, hasHigh, hasStep, rfl⟩ := typing facts
  obtain ⟨address, τc, rfl, typeCounter, cells⟩ := hc
  obtain ⟨τc', typeCounter', same⟩ := hasCounter
  rw [typeCounter] at typeCounter'
  cases typeCounter'
  obtain ⟨n, pos, cells⟩ := cells (same.isAtomic ▸ rfl)
  rw [← same.leaf] at cells
  obtain ⟨_, k, -, -, hb⟩ := hb
  exact ⟨_, _, typed, (fun data => by cases data), Kinded.forDo cells pos (hlo.integer hasLow)
    (hhi.integer hasHigh) (hst.integer hasStep) hb kindLimit kindIncrement⟩

theorem gives_assign {target v : Syntax.Expr} {place value : Ir.Expr}
    (facts : (Syntax.Expr.assign site target v).Everywhere (found source ctx t sort) Γ)
    (typed : ctx.types.get? site.id = some τ) (kind : κ temp = some (.word τ.leaf))
    (ht : Locates source ctx Γ κ target place) (hv : Gives source ctx Γ κ v value) :
    Gives source ctx Γ κ (.assign site target v)
      (.after (.seq [.move (.temp temp) value, .move place (.temp temp)]) (.temp temp)) := by
  obtain ⟨τ', typed', -, typeTarget, atomic, has⟩ := typing facts
  obtain rfl : τ = τ' := Option.some.inj (typed.symm.trans typed')
  obtain ⟨address, type, rfl, typeTarget', cells⟩ := ht
  rw [typeTarget] at typeTarget'
  cases typeTarget'
  obtain ⟨n, pos, cells⟩ := cells atomic
  have stored := hv.has has (Ty.isData_of_isAtomic atomic)
  rw [Ty.kind_of_isAtomic atomic] at stored
  exact ⟨τ, _, typed, fun _ => (Ty.kind_of_isAtomic atomic).symm,
    Kinded.assignment cells pos stored kind⟩

theorem gives_scoped {ds : List Decl}
    (facts : (Syntax.Expr.scoped site ds e).Everywhere (found source ctx t sort) Γ)
    (leaves : Leaves source ctx Γ κ ss []) (body : Gives source ctx Γ κ e r) :
    Gives source ctx Γ κ (.scoped site ds e) (.after (.seq ss) r) := by
  obtain ⟨τ, typed, -, rule⟩ := typing facts
  obtain ⟨τ', k, type, kind, value⟩ := body
  rw [show ctx.types.get? _ = some τ from rule] at type
  cases type
  exact ⟨τ, k, typed, kind, fun D =>
    .after (Ψ := fun _ => none) (fun h => by cases h) (leaves_nil.1 leaves D) (value D)⟩

/-- One more argument goes into a temporary of its kind. -/
theorem Leaves.argument {k : Kind} (kept : κ temp = some k)
    (value : Kinded.Closed (contextOf source ctx) Γ κ r k) (rest : Leaves source ctx Γ κ moves ts) :
    Leaves source ctx Γ κ (.move (.temp temp) r :: moves) (temp :: ts) := by
  intro D
  have split : {u | u ∈ temp :: ts} ∪ D = {u | u ∈ ts} ∪ insert temp D := by
    ext u
    simp [or_assoc]
  rw [split]
  exact .cons (.assign kept (.inl rfl) (value D)) (rest _)

theorem Analysed.suits_of_lowers (h : Analysed source ctx t sort) {depth : Nat} {piece : Piece}
    {s s' : State} {code : Code} (lowers : Lowers ctx depth piece s code s')
    (stands : Stands source (found source ctx t sort) Γ depth piece) (free : Free κ s.nextTemp) :
    (∃ κ', Extends κ κ' ∧ Free κ' s'.nextTemp ∧ Suits source ctx Γ κ' piece code) ∧
      ((∀ c ∈ s.chunks, ChunkSuits source ctx c) → ∀ c ∈ s'.chunks, ChunkSuits source ctx c) := by
  induction lowers generalizing Γ κ with
  | literal => exact ⟨⟨κ, .refl κ, free, gives_literal stands.2⟩, id⟩
  | name reached typed =>
    exact ⟨⟨κ, .refl κ, free, h.gives_name stands.2 reached typed⟩, id⟩
  | unary _ ih =>
    obtain ⟨⟨κ', le, free', operand⟩, chunks⟩ := ih ⟨stands.1, stands.2.2⟩ free
    exact ⟨⟨κ', le, free', gives_unary stands.2 operand⟩, chunks⟩
  | direct hop _ _ ihl ihr =>
    obtain ⟨⟨κ₁, le₁, free₁, left⟩, c₁⟩ := ihl ⟨stands.1, stands.2.2.1⟩ free
    obtain ⟨⟨κ₂, le₂, free₂, right⟩, c₂⟩ := ihr ⟨stands.1, stands.2.2.2⟩ free₁
    exact ⟨⟨κ₂, le₁.trans le₂, free₂, gives_direct stands.2 hop (left.extend le₂) right⟩, c₂ ∘ c₁⟩
  | shortCircuit _ hop _ _ ihl ihr =>
    obtain ⟨⟨κ₁, le₁, free₁, left⟩, c₁⟩ := ihl ⟨stands.1, stands.2.2.1⟩ free
    obtain ⟨⟨κ₂, le₂, free₂, right⟩, c₂⟩ := ihr ⟨stands.1, stands.2.2.2⟩ free₁
    have le := free₂.extends (.word .integer)
    exact ⟨⟨_, (le₁.trans le₂).trans le, free₂.save (.word .integer),
      gives_shortCircuit stands.2 hop
      (Function.update_self ..) (left.extend (le₂.trans le)) (right.extend le)⟩, c₂ ∘ c₁⟩
  | index indexed _ _ ihl ihr =>
    obtain ⟨⟨κ₁, le₁, free₁, base⟩, c₁⟩ := ihl ⟨stands.1, stands.2.2.1⟩ free
    obtain ⟨⟨κ₂, le₂, free₂, index⟩, c₂⟩ := ihr ⟨stands.1, stands.2.2.2⟩ free₁
    exact ⟨⟨κ₂, le₁.trans le₂, free₂, gives_element stands.2 indexed (base.extend le₂) index⟩,
      c₂ ∘ c₁⟩
  | call callee _ ih =>
    obtain ⟨⟨κ', le, free', ts, rfl, passed, leaves⟩, chunks⟩ := ih ⟨stands.1, stands.2.2⟩ free
    exact ⟨⟨κ', le, free', h.gives_call stands.2 (stands.1 ▸ callee) passed leaves⟩, chunks⟩
  | block _ ih =>
    obtain ⟨⟨κ', le, free', parts⟩, chunks⟩ := ih ⟨stands.1, stands.2.2⟩ free
    exact ⟨⟨κ', le, free', gives_block stands.2 parts⟩, chunks⟩
  | ifThen _ _ ihc iht =>
    obtain ⟨⟨κ₁, le₁, free₁, condition⟩, c₁⟩ := ihc ⟨stands.1, stands.2.2.1⟩ free
    obtain ⟨⟨κ₂, le₂, free₂, _, k, -, -, branch⟩, c₂⟩ := iht ⟨stands.1, stands.2.2.2⟩ free₁
    obtain ⟨τ, typed, -, has, rfl⟩ := typing stands.2
    exact ⟨⟨κ₂, le₁.trans le₂, free₂, _, _, typed, (fun h => by cases h),
      Kinded.ifThen ((condition.extend le₂).logical has) branch⟩, c₂ ∘ c₁⟩
  | @ifElse _ _ _ _ _ _ _ s₂ s₃ _ _ _ _ _ falseLowers ihc iht ihe =>
    obtain ⟨⟨κ₁, le₁, free₁, condition⟩, c₁⟩ := ihc ⟨stands.1, stands.2.2.1⟩ free
    obtain ⟨⟨κ₂, le₂, free₂, onTrue⟩, c₂⟩ := iht ⟨stands.1, stands.2.2.2.1⟩ free₁
    obtain ⟨⟨κ₃, le₃, free₃, onFalse⟩, c₃⟩ := ihe ⟨stands.1, stands.2.2.2.2⟩ free₂
    obtain ⟨k, gives⟩ :=
      Gives.branches stands.2 (condition.extend (le₂.trans le₃)) (onTrue.extend le₃)
      onFalse
    have later : s₂.labels + 2 ≤ s₃.labels :=
      (h.labels_of_lowers falseLowers ⟨stands.1, stands.2.2.2.2⟩).numbered.le
    have other (n : Nat) (hn : n ≤ s₃.labels) : labelName (s₃.labels + 1) ≠ labelName n :=
      fun eq => by
      have := labelName_injective eq
      omega
    exact ⟨⟨_, ((le₁.trans le₂).trans le₃).trans (free₃.extends k), free₃.save k,
      gives _ _ (free₃.extends k) (Function.update_self ..) (other _ (by omega))
      (other _ (by omega))⟩,
      c₃ ∘ c₂ ∘ c₁⟩
  | whileDo _ _ ihc ihb =>
    obtain ⟨⟨κ₁, le₁, free₁, condition⟩, c₁⟩ := ihc ⟨stands.1, stands.2.2.1⟩ free
    obtain ⟨⟨κ₂, le₂, free₂, _, k, -, -, body⟩, c₂⟩ := ihb ⟨stands.1, stands.2.2.2⟩ free₁
    obtain ⟨τ, typed, -, has, rfl⟩ := typing stands.2
    exact ⟨⟨κ₂, le₁.trans le₂, free₂, _, _, typed, (fun h => by cases h),
      Kinded.whileDo ((condition.extend le₂).logical has) body⟩, c₂ ∘ c₁⟩
  | forDo _ _ _ _ _ ihc ihlo ihhi ihst ihb =>
    obtain ⟨⟨κ₁, le₁, free₁, counter⟩, c₁⟩ := ihc ⟨stands.1, stands.2.2.1⟩ free
    obtain ⟨⟨κ₂, le₂, free₂, low⟩, c₂⟩ := ihlo ⟨stands.1, stands.2.2.2.1⟩ free₁
    obtain ⟨⟨κ₃, le₃, free₃, high⟩, c₃⟩ := ihhi ⟨stands.1, stands.2.2.2.2.1⟩ free₂
    obtain ⟨⟨κ₄, le₄, free₄, step⟩, c₄⟩ := ihst ⟨stands.1, stands.2.2.2.2.2.1⟩ free₃
    obtain ⟨⟨κ₅, le₅, free₅, body⟩, c₅⟩ := ihb ⟨stands.1, stands.2.2.2.2.2.2⟩ free₄
    -- the limit and the increment take a temporary each
    have one := free₅.extends (.word .integer)
    have two := (free₅.save (.word .integer)).extends (.word .integer)
    have leHigh := le₄.trans (le₅.trans (one.trans two))
    exact ⟨⟨_, le₁.trans (le₂.trans (le₃.trans leHigh)), (free₅.save _).save _,
      gives_forDo stands.2 (counter.extend (le₂.trans (le₃.trans leHigh)))
      (low.extend (le₃.trans leHigh))
        (high.extend leHigh) (step.extend (le₅.trans (one.trans two))) (body.extend (one.trans two))
        (two.get (Function.update_self ..)) (Function.update_self ..)⟩, c₅ ∘ c₄ ∘ c₃ ∘ c₂ ∘ c₁⟩
  | scope _ _ ihd ihb =>
    obtain ⟨⟨κ₁, le₁, free₁, leaves⟩, c₁⟩ := ihd (stands_decls stands) free
    obtain ⟨⟨κ₂, le₂, free₂, body⟩, c₂⟩ := ihb ⟨stands.1, stands.2.2.2⟩ free₁
    exact ⟨⟨κ₂, le₁.trans le₂, free₂, gives_scoped stands.2 (leaves.extend le₂) body⟩, c₂ ∘ c₁⟩
  | assign _ _ ihv iht =>
    obtain ⟨⟨κ₁, le₁, free₁, value⟩, c₁⟩ := ihv ⟨stands.1, stands.2.2.2⟩ free
    obtain ⟨⟨κ₂, le₂, free₂, target⟩, c₂⟩ := iht ⟨stands.1, stands.2.2.1⟩ free₁
    obtain ⟨τ, typed, -⟩ := typing stands.2
    have le := free₂.extends (.word τ.leaf)
    exact ⟨⟨_, (le₁.trans le₂).trans le, free₂.save _, gives_assign stands.2 typed
      (Function.update_self ..) (target.extend le) (value.extend (le₂.trans le))⟩, c₂ ∘ c₁⟩
  | nil => exact ⟨⟨κ, .refl κ, free, .nil⟩, id⟩
  | cons _ _ ihe ihes =>
    obtain ⟨⟨κ₁, le₁, free₁, first⟩, c₁⟩ := ihe ⟨stands.1, stands.2.1⟩ free
    obtain ⟨⟨κ₂, le₂, free₂, rest⟩, c₂⟩ := ihes ⟨stands.1, stands.2.2⟩ free₁
    exact ⟨⟨κ₂, le₁.trans le₂, free₂, .cons (first.extend le₂) rest⟩, c₂ ∘ c₁⟩
  | noArguments =>
    exact ⟨⟨κ, .refl κ, free, [], rfl, .nil, fun D => .nil (by simp)⟩, id⟩
  | @argument _ e es _ s₁ _ r moves temps _ _ ihe ihes =>
    obtain ⟨⟨κ₁, le₁, free₁, τ, k, typed, kind, value⟩, c₁⟩ := ihe ⟨stands.1, stands.2.1⟩ free
    obtain ⟨⟨κ₂, le₂, free₂, ts, rfl, passed, leaves⟩, c₂⟩ :=
      ihes ⟨stands.1, stands.2.2⟩ (free₁.save k)
    have le := free₁.extends k
    have kept : κ₂ s₁.nextTemp = some k := le₂.get (Function.update_self ..)
    exact ⟨⟨κ₂, (le₁.trans le).trans le₂, free₂, s₁.nextTemp :: ts, rfl,
      .cons ⟨τ, typed, fun data => kind data ▸ kept⟩ passed,
      .argument kept (fun D => (value D).extend (le.trans le₂)) leaves⟩, c₂ ∘ c₁⟩
  | nameLocation reached => exact ⟨⟨κ, .refl κ, free, h.locates_name stands.2 reached⟩, id⟩
  | elementLocation indexed _ _ ihl ihr =>
    obtain ⟨⟨κ₁, le₁, free₁, base⟩, c₁⟩ := ihl ⟨stands.1, stands.2.2.1⟩ free
    obtain ⟨⟨κ₂, le₂, free₂, index⟩, c₂⟩ := ihr ⟨stands.1, stands.2.2.2⟩ free₁
    exact ⟨⟨κ₂, le₁.trans le₂, free₂, locates_element stands.2 indexed (base.extend le₂) index⟩,
      c₂ ∘ c₁⟩
  | initialized reached _ ih =>
    obtain ⟨⟨κ', le, free', value⟩, chunks⟩ := ih ⟨(stands.2 rfl).1, stands.1.2⟩ free
    exact ⟨⟨κ', le, free', h.initial_kinded stands.1 (stands.2 rfl).2 reached value⟩, chunks⟩
  | function laid code _ ih =>
    have body := h.stands_body stands.1 laid
    refine ⟨⟨κ, .refl κ, free, leaves_nil.2 fun D => .nil subset_rfl⟩, fun hs c hc => ?_⟩
    rcases Array.mem_push.1 hc with hc | rfl
    · exact (ih body (entryKinds_free .integer)).2 hs c hc
    · refine chunk_suits stands.1 laid code fun k => ?_
      obtain ⟨⟨κ', le, free', value⟩, -⟩ := ih body (entryKinds_free k)
      exact ⟨κ', _, le, free', value⟩
  | silent | noDecls => exact ⟨⟨κ, .refl κ, free, leaves_nil.2 fun D => .nil subset_rfl⟩, id⟩
  | decls _ _ ihd ihds =>
    obtain ⟨⟨κ₁, le₁, free₁, first⟩, c₁⟩ := ihd ⟨stands.1.1, stands.2 _ (by simp)⟩ free
    obtain ⟨⟨κ₂, le₂, free₂, rest⟩, c₂⟩ :=
      ihds ⟨stands.1.2, fun d hd => stands.2 d (by simp [hd])⟩ free₁
    refine ⟨⟨κ₂, le₁.trans le₂, free₂, leaves_nil.2 fun D => ?_⟩, c₂ ∘ c₁⟩
    exact ((leaves_nil.1 first D).extend le₂).append (leaves_nil.1 rest D)

end

end PinsBackend.Kinds
