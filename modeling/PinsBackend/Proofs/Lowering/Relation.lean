import PinsBackend.Ir.Lowering
import PinsBackend.Proofs.Monad

/-! What lowering gives for each construct, as one relation.

`Lowers` has a rule for each construct, with the temporaries and the labels it takes; `expr_lowers`
and its companions say that lowering follows the rules. Later proofs go by induction on the relation
and do not open the lowering functions again. -/
namespace PinsBackend.Ir.Lowering

open Syntax (Decl)

/-- A piece of syntax, by the function that lowers it. -/
inductive Piece where
  | expr (e : Syntax.Expr)
  | exprs (es : List Syntax.Expr)
  | arguments (es : List Syntax.Expr)
  | location (e : Syntax.Expr)
  | decl (d : Decl)
  | decls (ds : List Decl)

/-- What a piece is lowered to. -/
inductive Code where
  | value (e : Expr)
  | values (es : List Expr)
  /-- Moves into temporaries, and the temporaries. -/
  | moves (ss : List Stmt) (temps : List Expr)
  | stmts (ss : List Stmt)

/-- The name of the label with this number. -/
def labelName (n : Nat) : String := "L" ++ toString n

/-- The state after so many temporaries and labels were given out. -/
def State.take (s : State) (temps labels : Nat) : State :=
  { s with nextTemp := s.nextTemp + temps, labels := s.labels + labels }

/-- The address of a variable. -/
def addressExpr : Access → Expr
  | .here offset => .binop .add (.temp Temp.fp) (.int offset)
  | .outer hops offset => .binop .add (frameAt hops) (.int offset)
  | .global label => .data label

/-- The address of an element. -/
def elementExpr (base index : Expr) (length size : Int) : Expr :=
  .binop .add base (.binop .mul (.checkIndex index length) (.int size))

/-- The label and the static link of a call. -/
inductive Callee (ctx : Context) (depth : Nat) (id : NodeId) : String → Expr → Prop
  | builtin {b : Builtin} (bound : ctx.bindings.get? id = some (.builtin b)) :
    Callee ctx depth id b.name (.int 0)
  | top {decl : NodeId} {frame : Frame} (bound : ctx.bindings.get? id = some (.decl decl))
      (laid : ctx.layout.frames.get? decl = some frame) (one : frame.depth = 1) :
    Callee ctx depth id frame.label (.int 0)
  | nested {decl : NodeId} {frame : Frame} (bound : ctx.bindings.get? id = some (.decl decl))
      (laid : ctx.layout.frames.get? decl = some frame) (inner : frame.depth ≠ 1)
      (near : frame.depth ≤ depth + 1) :
    Callee ctx depth id frame.label (frameAt (depth + 1 - frame.depth))

/-- The length of an indexed array, the type of its elements and the bytes of one. -/
structure Indexed (ctx : Context) (id : NodeId) (length : Int) (type : Ty) (size : Int) : Prop where
  array : (ctx.types.get? id).bind Ty.arrayParts? = some (length, type)
  bytes : (type.sizeInWords.bind fun words => Word.mul words Word.bytes) = .ok size

inductive Lowers (ctx : Context) : Nat → Piece → State → Code → State → Prop
  | literal {depth : Nat} {site : Syntax.Site} {l : Syntax.Literal} {s : State} :
    Lowers ctx depth (.expr (.literal site l)) s (.value (.const (literal l))) s
  | name {depth : Nat} {site : Syntax.Site} {x : String} {s : State} {access : Access} {type : Ty}
      (reached : ctx.layout.accesses.get? site.id = some access)
      (typed : ctx.types.get? site.id = some type) :
    Lowers ctx depth (.expr (.name site x)) s
      (.value (if type.isArray && !isParameter ctx site.id then addressExpr access
        else .mem (addressExpr access))) s
  | unary {depth : Nat} {site : Syntax.Site} {op : Syntax.UnaryOp} {e : Syntax.Expr}
      {s s' : State} {r : Expr} (operand : Lowers ctx depth (.expr e) s (.value r) s') :
    Lowers ctx depth (.expr (.unary site op e)) s (.value (unary op r)) s'
  | direct {depth : Nat} {site : Syntax.Site} {op : Syntax.BinaryOp} {op' : BinOp}
      {l r : Syntax.Expr} {s s₁ s' : State} {a b : Expr} (hop : form op = .direct op')
      (left : Lowers ctx depth (.expr l) s (.value a) s₁)
      (right : Lowers ctx depth (.expr r) s₁ (.value b) s') :
    Lowers ctx depth (.expr (.binary site op l r)) s (.value (.binop op' a b)) s'
  | shortCircuit (conjunction : Bool) {depth : Nat} {site : Syntax.Site} {op : Syntax.BinaryOp}
      {l r : Syntax.Expr} {s s₁ s₂ : State} {a b : Expr}
      (hop : form op = if conjunction then .conjunction else .disjunction)
      (left : Lowers ctx depth (.expr l) s (.value a) s₁)
      (right : Lowers ctx depth (.expr r) s₁ (.value b) s₂) :
    Lowers ctx depth (.expr (.binary site op l r)) s
      (.value (shortCircuit conjunction a b s₂.nextTemp (labelName (s₂.labels + 1))
        (labelName (s₂.labels + 2)))) (s₂.take 1 2)
  | index {depth : Nat} {site : Syntax.Site} {l r : Syntax.Expr} {s s₁ s' : State} {a b : Expr}
      {length size : Int} {type : Ty} (indexed : Indexed ctx l.id length type size)
      (base : Lowers ctx depth (.expr l) s (.value a) s₁)
      (index : Lowers ctx depth (.expr r) s₁ (.value b) s') :
    Lowers ctx depth (.expr (.binary site .index l r)) s
      (.value (if type.isArray then elementExpr a b length size
        else .mem (elementExpr a b length size))) s'
  | call {depth : Nat} {site : Syntax.Site} {f : String} {args : List Syntax.Expr} {s s' : State}
      {label : String} {link : Expr} {moves : List Stmt} {temps : List Expr}
      (callee : Callee ctx depth site.id label link)
      (arguments : Lowers ctx depth (.arguments args) s (.moves moves temps) s') :
    Lowers ctx depth (.expr (.call site f args)) s
      (.value (.after (.seq moves) (.call label (link :: temps)))) s'
  | block {depth : Nat} {site : Syntax.Site} {es : List Syntax.Expr} {s s' : State}
      {items : List Expr} (parts : Lowers ctx depth (.exprs es) s (.values items) s') :
    Lowers ctx depth (.expr (.block site es)) s (.value (block items)) s'
  | ifThen {depth : Nat} {site : Syntax.Site} {c t : Syntax.Expr} {s s₁ s₂ : State} {a b : Expr}
      (condition : Lowers ctx depth (.expr c) s (.value a) s₁)
      (branch : Lowers ctx depth (.expr t) s₁ (.value b) s₂) :
    Lowers ctx depth (.expr (.ifThen site c t)) s
      (.value (ifThen a b (labelName (s₂.labels + 1)) (labelName (s₂.labels + 2)))) (s₂.take 0 2)
  | ifElse {depth : Nat} {site : Syntax.Site} {c t e : Syntax.Expr} {s s₁ s₂ s₃ : State}
      {a b d : Expr} (condition : Lowers ctx depth (.expr c) s (.value a) s₁)
      (onTrue : Lowers ctx depth (.expr t) s₁ (.value b) s₂)
      (onFalse : Lowers ctx depth (.expr e) (s₂.take 0 2) (.value d) s₃) :
    Lowers ctx depth (.expr (.ifElse site c t e)) s
      (.value (ifElse a b d s₃.nextTemp (labelName (s₂.labels + 1)) (labelName (s₂.labels + 2))
        (labelName (s₃.labels + 1)))) (s₃.take 1 1)
  | whileDo {depth : Nat} {site : Syntax.Site} {c b : Syntax.Expr} {s s₁ s' : State} {a d : Expr}
      (condition : Lowers ctx depth (.expr c) (s.take 0 3) (.value a) s₁)
      (body : Lowers ctx depth (.expr b) s₁ (.value d) s') :
    Lowers ctx depth (.expr (.whileDo site c b)) s
      (.value (whileDo a d (labelName (s.labels + 1)) (labelName (s.labels + 2))
        (labelName (s.labels + 3)))) s'
  | forDo {depth : Nat} {site : Syntax.Site} {c lo hi st b : Syntax.Expr}
      {s s₁ s₂ s₃ s₄ s₅ : State} {counter low high step body : Expr}
      (place : Lowers ctx depth (.location c) s (.value counter) s₁)
      (from' : Lowers ctx depth (.expr lo) s₁ (.value low) s₂)
      (to' : Lowers ctx depth (.expr hi) s₂ (.value high) s₃)
      (by' : Lowers ctx depth (.expr st) s₃ (.value step) s₄)
      (work : Lowers ctx depth (.expr b) s₄ (.value body) s₅) :
    Lowers ctx depth (.expr (.forDo site c lo hi st b)) s
      (.value (forDo counter low high step body s₅.nextTemp (s₅.nextTemp + 1)
        (labelName (s₅.labels + 1)) (labelName (s₅.labels + 2)) (labelName (s₅.labels + 3))))
      (s₅.take 2 3)
  | scope {depth : Nat} {site : Syntax.Site} {ds : List Decl} {b : Syntax.Expr} {s s₁ s' : State}
      {inits : List Stmt} {r : Expr} (decls : Lowers ctx depth (.decls ds) s (.stmts inits) s₁)
      (body : Lowers ctx depth (.expr b) s₁ (.value r) s') :
    Lowers ctx depth (.expr (.scoped site ds b)) s (.value (.after (.seq inits) r)) s'
  | assign {depth : Nat} {site : Syntax.Site} {target v : Syntax.Expr} {s s₁ s₂ : State}
      {value dst : Expr} (source : Lowers ctx depth (.expr v) s (.value value) s₁)
      (place : Lowers ctx depth (.location target) s₁ (.value dst) s₂) :
    Lowers ctx depth (.expr (.assign site target v)) s
      (.value (.after (.seq [.move (.temp s₂.nextTemp) value, .move dst (.temp s₂.nextTemp)])
        (.temp s₂.nextTemp))) (s₂.take 1 0)
  | nil {depth : Nat} {s : State} : Lowers ctx depth (.exprs []) s (.values []) s
  | cons {depth : Nat} {e : Syntax.Expr} {es : List Syntax.Expr} {s s₁ s' : State} {r : Expr}
      {rs : List Expr} (first : Lowers ctx depth (.expr e) s (.value r) s₁)
      (rest : Lowers ctx depth (.exprs es) s₁ (.values rs) s') :
    Lowers ctx depth (.exprs (e :: es)) s (.values (r :: rs)) s'
  | noArguments {depth : Nat} {s : State} : Lowers ctx depth (.arguments []) s (.moves [] []) s
  | argument {depth : Nat} {e : Syntax.Expr} {es : List Syntax.Expr} {s s₁ s' : State} {r : Expr}
      {moves : List Stmt} {temps : List Expr}
      (first : Lowers ctx depth (.expr e) s (.value r) s₁)
      (rest : Lowers ctx depth (.arguments es) (s₁.take 1 0) (.moves moves temps) s') :
    Lowers ctx depth (.arguments (e :: es)) s
      (.moves (.move (.temp s₁.nextTemp) r :: moves) (.temp s₁.nextTemp :: temps)) s'
  | nameLocation {depth : Nat} {site : Syntax.Site} {x : String} {s : State} {access : Access}
      (reached : ctx.layout.accesses.get? site.id = some access) :
    Lowers ctx depth (.location (.name site x)) s (.value (.mem (addressExpr access))) s
  | elementLocation {depth : Nat} {site : Syntax.Site} {l r : Syntax.Expr} {s s₁ s' : State}
      {a b : Expr} {length size : Int} {type : Ty} (indexed : Indexed ctx l.id length type size)
      (base : Lowers ctx depth (.expr l) s (.value a) s₁)
      (index : Lowers ctx depth (.expr r) s₁ (.value b) s') :
    Lowers ctx depth (.location (.binary site .index l r)) s
      (.value (.mem (elementExpr a b length size))) s'
  | initialized {depth : Nat} {site : Syntax.Site} {x : String} {type : Syntax.TypeExpr}
      {init : Syntax.Expr} {s s' : State} {access : Access} {r : Expr}
      (reached : ctx.layout.accesses.get? site.id = some access)
      (value : Lowers ctx depth (.expr init) s (.value r) s') :
    Lowers ctx depth (.decl (.var site x type (some init))) s
      (.stmts [.move (.mem (addressExpr access)) r]) s'
  | function {depth : Nat} {site : Syntax.Site} {f : String} {params : List Decl}
      {result : Syntax.TypeExpr} {body : Syntax.Expr} {s s₁ : State} {frame : Frame} {r : Expr}
      (laid : ctx.layout.frames.get? site.id = some frame)
      (code : expr ctx frame.depth body { s with nextTemp := Temp.firstFree } = .ok r s₁)
      (value : Lowers ctx frame.depth (.expr body) { s with nextTemp := Temp.firstFree }
        (.value r) s₁) :
    Lowers ctx depth (.decl (.function site f params result body)) s (.stmts [])
      { s₁ with
        nextTemp := s.nextTemp
        chunks := s₁.chunks.push { frame, body := .move (.temp Temp.rv) r } }
  | silent {depth : Nat} {d : Decl} {s : State} (hf : d.isFunction = false)
      (hv : ∀ site x type init, d ≠ .var site x type (some init)) :
    Lowers ctx depth (.decl d) s (.stmts []) s
  | noDecls {depth : Nat} {s : State} : Lowers ctx depth (.decls []) s (.stmts []) s
  | decls {depth : Nat} {d : Decl} {ds : List Decl} {s s₁ s' : State} {first rest : List Stmt}
      (head : Lowers ctx depth (.decl d) s (.stmts first) s₁)
      (tail : Lowers ctx depth (.decls ds) s₁ (.stmts rest) s') :
    Lowers ctx depth (.decls (d :: ds)) s (.stmts (first ++ rest)) s'

/-- The chunk is the code of this function: it has the frame of the function and leaves the value of
its body in `Temp.rv`. -/
def IsCodeOf (ctx : Context) (c : Chunk Stmt) : Decl → Prop
  | .function site _ _ _ body => ctx.layout.frames.get? site.id = some c.frame ∧
    ∃ s value s', expr ctx c.frame.depth body s = .ok value s' ∧
      c.body = .move (.temp Temp.rv) value
  | _ => False

/-! ## Lowering follows the rules -/

section

variable {e : Expr} {type : Ty}

variable {ctx : Context} {depth : Nat} {id : NodeId} {s s' : State}

theorem addressOf_eq_ok :
    addressOf ctx id s = .ok e s' ↔
      ∃ access, ctx.layout.accesses.get? id = some access ∧ e = addressExpr access ∧ s' = s := by
  unfold addressOf
  cases ctx.layout.accesses.get? id with
  | none => simp [throw_apply]
  | some access => cases access <;> simp [pure_apply, addressExpr, eq_comm]

theorem typeOf_eq_ok : typeOf ctx id s = .ok type s' ↔ ctx.types.get? id = some type ∧ s' = s := by
  unfold typeOf
  cases ctx.types.get? id with
  | none => simp [throw_apply]
  | some t => simp [pure_apply, eq_comm]

theorem nameValue_eq_ok (h : nameValue ctx id s = .ok e s') :
    ∃ access type, ctx.layout.accesses.get? id = some access ∧ ctx.types.get? id = some type ∧
      e = (if type.isArray && !isParameter ctx id then addressExpr access
        else .mem (addressExpr access)) ∧ s' = s := by
  simp only [nameValue, bind_eq_ok, addressOf_eq_ok, typeOf_eq_ok, pure_eq_ok] at h
  obtain ⟨_, _, ⟨access, reached, rfl, rfl⟩, type, _, ⟨typed, rfl⟩, rfl, rfl⟩ := h
  exact ⟨access, type, reached, typed, rfl, rfl⟩

theorem arrayOf_eq_ok {length : Int} (h : arrayOf ctx id s = .ok (length, type) s') :
    (ctx.types.get? id).bind Ty.arrayParts? = some (length, type) ∧ s' = s := by
  simp only [arrayOf, bind_eq_ok, typeOf_eq_ok] at h
  obtain ⟨found, _, ⟨typed, rfl⟩, h⟩ := h
  cases hparts : found.arrayParts? with
  | none => simp [hparts, throw_apply] at h
  | some parts =>
    simp only [hparts, pure_eq_ok] at h
    exact ⟨by simp [typed, hparts, h.1], h.2.symm⟩

theorem element_eq_ok {base index : Expr} {length : Int}
    (h : element base index length type s = .ok e s') :
    ∃ size, (type.sizeInWords.bind fun words => Word.mul words Word.bytes) = .ok size ∧
      e = elementExpr base index length size ∧ s' = s := by
  unfold element at h
  cases hsize : type.sizeInWords.bind fun words => Word.mul words Word.bytes with
  | error o => simp [hsize, throw_apply] at h
  | ok size =>
    simp only [hsize, pure_eq_ok] at h
    exact ⟨size, rfl, h.1.symm, h.2.symm⟩

theorem callee_eq_ok {label : String} {link : Expr}
    (h : callee ctx depth id s = .ok (label, link) s') :
    Callee ctx depth id label link ∧ s' = s := by
  unfold callee at h
  cases bound : ctx.bindings.get? id with
  | none => simp [bound, throw_apply] at h
  | some b =>
    cases b with
    | builtin b =>
      simp only [bound, pure_eq_ok, Prod.mk.injEq] at h
      obtain ⟨⟨rfl, rfl⟩, rfl⟩ := h
      exact ⟨.builtin bound, rfl⟩
    | decl decl =>
      cases laid : ctx.layout.frames.get? decl with
      | none => simp [bound, laid, throw_apply] at h
      | some frame =>
        simp only [bound, laid, bind_eq_ok, pure_eq_ok, Prod.mk.injEq] at h
        obtain ⟨_, _, hlink, ⟨rfl, rfl⟩, rfl⟩ := h
        unfold staticLink at hlink
        by_cases one : frame.depth = 1
        · simp only [one, ↓reduceIte, pure_eq_ok] at hlink
          obtain ⟨rfl, rfl⟩ := hlink
          exact ⟨.top bound laid one, rfl⟩
        · rw [if_neg one] at hlink
          cases hsucc : Word.succ depth with
          | error o => simp [hsucc, throw_apply] at hlink
          | ok inner =>
            obtain ⟨-, rfl⟩ := Word.succ_eq_ok.1 hsucc
            by_cases near : depth + 1 < frame.depth
            · simp [hsucc, near, throw_apply] at hlink
            · simp only [hsucc, near, ↓reduceIte, pure_eq_ok] at hlink
              obtain ⟨rfl, rfl⟩ := hlink
              exact ⟨.nested bound laid one (by omega), rfl⟩

theorem fresh_apply : fresh s = .ok s.nextTemp (s.take 1 0) := rfl

theorem label_apply : label s = .ok (labelName (s.labels + 1)) (s.take 0 1) := rfl

end

mutual

theorem expr_lowers {ctx : Context} {depth : Nat} : (e : Syntax.Expr) → ∀ {s r s'},
    expr ctx depth e s = .ok r s' → Lowers ctx depth (.expr e) s (.value r) s'
  | .absent _, s, r, s', h | .hole _, s, r, s', h => by simp [expr, throw_apply] at h
  | .literal site l, s, r, s', h => by
    simp only [expr, pure_eq_ok] at h
    obtain ⟨rfl, rfl⟩ := h
    exact .literal
  | .name site x, s, r, s', h => by
    simp only [expr] at h
    obtain ⟨access, type, reached, typed, rfl, rfl⟩ := nameValue_eq_ok h
    exact .name reached typed
  | .unary site op e, s, r, s', h => by
    simp only [expr, bind_eq_ok, pure_eq_ok] at h
    obtain ⟨a, _, ha, rfl, rfl⟩ := h
    exact .unary (expr_lowers e ha)
  | .binary site op l r, s, e, s', h => by
    cases hop : form op with
    | direct op' =>
      simp only [expr, hop, bind_eq_ok, pure_eq_ok] at h
      obtain ⟨a, s₁, ha, b, _, hb, rfl, rfl⟩ := h
      exact .direct hop (expr_lowers l ha) (expr_lowers r hb)
    | conjunction =>
      simp only [expr, hop, bind_eq_ok, pure_eq_ok, fresh_apply, label_apply] at h
      obtain ⟨a, s₁, ha, b, s₂, hb, t, s₃, ht, x, s₄, hx, y, s₅, hy, rfl, rfl⟩ := h
      cases ht; cases hx; cases hy
      exact .shortCircuit true hop (expr_lowers l ha) (expr_lowers r hb)
    | disjunction =>
      simp only [expr, hop, bind_eq_ok, pure_eq_ok, fresh_apply, label_apply] at h
      obtain ⟨a, s₁, ha, b, s₂, hb, t, s₃, ht, x, s₄, hx, y, s₅, hy, rfl, rfl⟩ := h
      cases ht; cases hx; cases hy
      exact .shortCircuit false hop (expr_lowers l ha) (expr_lowers r hb)
    | index =>
      obtain rfl : op = .index := by cases op <;> simp_all [form]
      simp only [expr, form, bind_eq_ok, pure_eq_ok] at h
      obtain ⟨⟨length, type⟩, s₁, harr, a, s₂, ha, b, s₃, hb, address, s₄, haddr, rfl, rfl⟩ := h
      obtain ⟨array, rfl⟩ := arrayOf_eq_ok harr
      obtain ⟨size, bytes, rfl, rfl⟩ := element_eq_ok haddr
      exact .index ⟨array, bytes⟩ (expr_lowers l ha) (expr_lowers r hb)
  | .call site f args, s, r, s', h => by
    simp only [expr, bind_eq_ok, pure_eq_ok] at h
    obtain ⟨⟨label, link⟩, s₁, hc, ⟨moves, temps⟩, s₂, hargs, rfl, rfl⟩ := h
    obtain ⟨callee, rfl⟩ := callee_eq_ok hc
    exact .call callee (arguments_lowers args hargs)
  | .block site es, s, r, s', h => by
    simp only [expr, bind_eq_ok, pure_eq_ok] at h
    obtain ⟨items, _, hitems, rfl, rfl⟩ := h
    exact .block (exprs_lowers es hitems)
  | .ifThen site c t, s, r, s', h => by
    simp only [expr, bind_eq_ok, pure_eq_ok, label_apply] at h
    obtain ⟨a, s₁, ha, b, s₂, hb, x, s₃, hx, y, s₄, hy, rfl, rfl⟩ := h
    cases hx; cases hy
    exact .ifThen (expr_lowers c ha) (expr_lowers t hb)
  | .ifElse site c t e, s, r, s', h => by
    simp only [expr, bind_eq_ok, pure_eq_ok, label_apply, fresh_apply] at h
    obtain ⟨a, s₁, ha, b, s₂, hb, x, s₃, hx, y, s₄, hy, d, s₅, hd, z, s₆, hz, t', s₇, ht, rfl,
      rfl⟩ := h
    cases hx; cases hy; cases hz; cases ht
    exact .ifElse (expr_lowers c ha) (expr_lowers t hb) (expr_lowers e hd)
  | .whileDo site c b, s, r, s', h => by
    simp only [expr, bind_eq_ok, pure_eq_ok, label_apply] at h
    obtain ⟨x, s₁, hx, y, s₂, hy, z, s₃, hz, a, s₄, ha, d, s₅, hd, rfl, rfl⟩ := h
    cases hx; cases hy; cases hz
    exact .whileDo (expr_lowers c ha) (expr_lowers b hd)
  | .forDo site c lo hi st b, s, r, s', h => by
    simp only [expr, bind_eq_ok, pure_eq_ok, label_apply, fresh_apply] at h
    obtain ⟨counter, s₁, hc, low, s₂, hlo, high, s₃, hhi, step, s₄, hst, body, s₅, hb, t, s₆, ht,
      u, s₇, hu, x, s₈, hx, y, s₉, hy, z, s₁₀, hz, rfl, rfl⟩ := h
    cases ht; cases hu; cases hx; cases hy; cases hz
    exact .forDo (location_lowers c hc) (expr_lowers lo hlo) (expr_lowers hi hhi)
      (expr_lowers st hst) (expr_lowers b hb)
  | .scoped site ds b, s, r, s', h => by
    simp only [expr, bind_eq_ok, pure_eq_ok] at h
    obtain ⟨inits, s₁, hds, a, _, hb, rfl, rfl⟩ := h
    exact .scope (decls_lowers ds hds) (expr_lowers b hb)
  | .assign site target v, s, r, s', h => by
    simp only [expr, bind_eq_ok, pure_eq_ok, fresh_apply] at h
    obtain ⟨value, s₁, hv, dst, s₂, hdst, t, s₃, ht, rfl, rfl⟩ := h
    cases ht
    exact .assign (expr_lowers v hv) (location_lowers target hdst)

theorem exprs_lowers {ctx : Context} {depth : Nat} : (es : List Syntax.Expr) → ∀ {s rs s'},
    exprs ctx depth es s = .ok rs s' → Lowers ctx depth (.exprs es) s (.values rs) s'
  | [], s, rs, s', h => by
    simp only [exprs, pure_eq_ok] at h
    obtain ⟨rfl, rfl⟩ := h
    exact .nil
  | e :: es, s, rs, s', h => by
    simp only [exprs, bind_eq_ok, pure_eq_ok] at h
    obtain ⟨r, s₁, hr, rs', _, hrs, rfl, rfl⟩ := h
    exact .cons (expr_lowers e hr) (exprs_lowers es hrs)

theorem arguments_lowers {ctx : Context} {depth : Nat} : (es : List Syntax.Expr) →
    ∀ {s moves temps s'}, arguments ctx depth es s = .ok (moves, temps) s' →
      Lowers ctx depth (.arguments es) s (.moves moves temps) s'
  | [], s, moves, temps, s', h => by
    simp only [arguments, pure_eq_ok, Prod.mk.injEq] at h
    obtain ⟨⟨rfl, rfl⟩, rfl⟩ := h
    exact .noArguments
  | e :: es, s, moves, temps, s', h => by
    simp only [arguments, bind_eq_ok, pure_eq_ok, Prod.mk.injEq, fresh_apply] at h
    obtain ⟨r, s₁, hr, t, s₂, ht, ⟨moves', temps'⟩, _, hrest, ⟨rfl, rfl⟩, rfl⟩ := h
    cases ht
    exact .argument (expr_lowers e hr) (arguments_lowers es hrest)

theorem location_lowers {ctx : Context} {depth : Nat} : (e : Syntax.Expr) → ∀ {s r s'},
    location ctx depth e s = .ok r s' → Lowers ctx depth (.location e) s (.value r) s'
  | .name site x, s, r, s', h => by
    simp only [location, bind_eq_ok, pure_eq_ok, addressOf_eq_ok] at h
    obtain ⟨_, _, ⟨access, reached, rfl, rfl⟩, rfl, rfl⟩ := h
    exact .nameLocation reached
  | .binary site op l r, s, e, s', h => by
    by_cases hop : op = .index
    · subst hop
      simp only [location, bind_eq_ok, pure_eq_ok] at h
      obtain ⟨⟨length, type⟩, s₁, harr, a, s₂, ha, b, s₃, hb, address, s₄, haddr, rfl, rfl⟩ := h
      obtain ⟨array, rfl⟩ := arrayOf_eq_ok harr
      obtain ⟨size, bytes, rfl, rfl⟩ := element_eq_ok haddr
      exact .elementLocation ⟨array, bytes⟩ (expr_lowers l ha) (expr_lowers r hb)
    · cases op <;> simp_all [location, throw_apply]
  | .absent _, s, r, s', h | .hole _, s, r, s', h | .literal _ _, s, r, s', h
  | .unary _ _ _, s, r, s', h | .call _ _ _, s, r, s', h | .block _ _, s, r, s', h
  | .ifThen _ _ _, s, r, s', h | .ifElse _ _ _ _, s, r, s', h | .whileDo _ _ _, s, r, s', h
  | .forDo _ _ _ _ _ _, s, r, s', h | .scoped _ _ _, s, r, s', h | .assign _ _ _, s, r, s', h => by
    simp [location, throw_apply] at h

theorem decl_lowers {ctx : Context} {depth : Nat} : (d : Decl) → ∀ {s ss s'},
    decl ctx depth d s = .ok ss s' → Lowers ctx depth (.decl d) s (.stmts ss) s'
  | .var site x type (some init), s, ss, s', h => by
    simp only [decl, bind_eq_ok, pure_eq_ok, addressOf_eq_ok] at h
    obtain ⟨_, _, ⟨access, reached, rfl, rfl⟩, r, _, hr, rfl, rfl⟩ := h
    exact .initialized reached (expr_lowers init hr)
  | .function site f params result body, s, ss, s', h => by
    cases laid : ctx.layout.frames.get? site.id with
    | none => simp [decl, laid, throw_apply] at h
    | some frame =>
      simp only [decl, laid, bind_eq_ok, pure_eq_ok, get_apply, modify_apply] at h
      obtain ⟨_, _, hget, _, _, hset, r, s₁, hr, _, _, hpush, rfl, rfl⟩ := h
      cases hget; cases hset; cases hpush
      exact .function laid hr (expr_lowers body hr)
  | .var site x type none, s, ss, s', h | .absent site, s, ss, s', h
  | .alias site x type, s, ss, s', h | .param site x type, s, ss, s', h => by
    simp only [decl, pure_eq_ok] at h
    obtain ⟨rfl, rfl⟩ := h
    exact .silent rfl (by simp)

theorem decls_lowers {ctx : Context} {depth : Nat} : (ds : List Decl) → ∀ {s ss s'},
    decls ctx depth ds s = .ok ss s' → Lowers ctx depth (.decls ds) s (.stmts ss) s'
  | [], s, ss, s', h => by
    simp only [decls, pure_eq_ok] at h
    obtain ⟨rfl, rfl⟩ := h
    exact .noDecls
  | d :: ds, s, ss, s', h => by
    simp only [decls, bind_eq_ok, pure_eq_ok] at h
    obtain ⟨first, s₁, hd, rest, _, hds, rfl, rfl⟩ := h
    exact .decls (decl_lowers d hd) (decls_lowers ds hds)

end

/-- The code of a program comes from its declarations, the variables first. -/
theorem lower_eq_ok {source : Syntax.Source} {bindings : NodeTable Binding} {types : NodeTable Ty}
    {layout : Layout} {entry : String} {P : TreeProgram}
    (h : source.lower bindings types layout entry = .ok P) :
    ∃ inits rest s₁ s₂,
      Lowers ⟨source.signatures, bindings, types, layout⟩ layout.init.depth
        (.decls (source.definitions.filter Decl.isVar)) {} (.stmts inits) s₁ ∧
      Lowers ⟨source.signatures, bindings, types, layout⟩ layout.init.depth
        (.decls (source.definitions.filter Decl.isFunction)) s₁ (.stmts rest) s₂ ∧
      P = { chunks := s₂.chunks.toList, globals := layout.globals,
            init := { frame := layout.init, body := .seq inits }, entry } := by
  unfold Syntax.Source.lower at h
  dsimp only at h
  split at h
  · next P' s' hp =>
    obtain rfl : P' = P := by simpa using h
    simp only [program, bind_eq_ok, pure_eq_ok, get_apply] at hp
    obtain ⟨inits, s₁, hv, rest, s₂, hf, _, _, hget, rfl, rfl⟩ := hp
    cases hget
    exact ⟨inits, rest, s₁, s₂, decls_lowers _ hv, decls_lowers _ hf, rfl⟩
  · simp at h

end PinsBackend.Ir.Lowering
