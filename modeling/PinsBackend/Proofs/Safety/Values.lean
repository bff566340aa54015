import PinsBackend.Proofs.Safety.Records

/-! What typed expressions evaluate to.

A datum has a kind: an integer, a string, or a place with enough cells behind it. The value of a
typed expression has the kind of the expression, and it is found without looking at addresses, so
that the same datum comes out wherever the records lie. -/
namespace PinsBackend.Safety

open Ir Kinds
open Lowering (frameAt elementExpr)
open Meaning (Place Datum Activation Store)
open Syntax (Env Level)

variable {more : List Activation} {hops : Nat}

/-! ## Kinds of data -/

/-- A datum of a kind, which refers to nothing but these activations. A word of a string that was
never set is zero; `loose` says that there may be such words. -/
def HasKind (S : Storage) (loose : Prop) (stack : List Activation) : Kind → Datum → Prop
  | .any, d => Bounded stack.length d
  | .word k, .word v => v.kind = k ∨ v = .zero ∧ loose
  | .cells c n, .place p => Block S stack p ∧ S.content p.decl = c ∧ p.offset + n ≤ S.count p.decl
  | _, _ => False

/-- What can stop typed code. -/
inductive Possible (loose : Prop) : Fault → Prop
  | divisionByZero : Possible loose .divisionByZero
  | indexOutOfBounds (index length : Int) : Possible loose (.indexOutOfBounds index length)
  | stackOverflow (sp : Int) : Possible loose (.stackOverflow sp)
  | timeout (steps : Nat) : Possible loose (.timeout steps)
  | output (reason : String) : Possible loose (.output reason)
  /-- A string that was never set. -/
  | unset {m : Malformation} (h : loose) (mem : m ∈ [Malformation.stringExpected .integer,
      .incomparable .integer .string, .incomparable .string .integer]) : Possible loose
      (.malformed m)

section

variable {S : Storage} {loose : Prop} {stack more : List Activation} {k : Kind} {d : Datum}

theorem HasKind.bounded (h : HasKind S loose stack k d) : Bounded stack.length d := by
  cases d with
  | word v => exact Bounded.word _ v
  | place p =>
    cases k with
    | any => exact h
    | word k => cases h
    | cells c n =>
      intro q hq
      cases hq
      exact h.1.lt

theorem HasKind.append (h : HasKind S loose stack k d) : HasKind S loose (stack ++ more) k d := by
  cases k with
  | any => exact Bounded.mono h (by simp)
  | word k =>
    cases d with
    | word v => exact h
    | place p => cases h
  | cells c n =>
    cases d with
    | word v => cases h
    | place p => exact ⟨h.1.append, h.2⟩

theorem HasKind.of_take {n : Nat} (h : HasKind S loose (stack.take n) k d) :
    HasKind S loose stack k d := by
  have longer : HasKind S loose (stack.take n ++ stack.drop n) k d := h.append
  rwa [List.take_append_drop] at longer

theorem HasKind.any (h : HasKind S loose stack k d) : HasKind S loose stack .any d := h.bounded

theorem HasKind.integer (h : HasKind S loose stack (.word .integer) d) :
    ∃ n, d = .word (.int n) := by
  cases d with
  | place p => cases h
  | word v =>
    cases v with
    | int n => exact ⟨n, rfl⟩
    | str s =>
      rcases h with h | ⟨h, -⟩
      · cases h
      · cases h

theorem HasKind.word {kind : Value.Kind} (h : HasKind S loose stack (.word kind) d) :
    ∃ v, d = .word v ∧ (v.kind = kind ∨ v = .zero ∧ loose) := by
  cases d with
  | place p => cases h
  | word v => exact ⟨v, rfl, h⟩

theorem HasKind.place {c : Content} {n : Nat} (h : HasKind S loose stack (.cells c n) d) :
    ∃ p, d = .place p ∧ Block S stack p ∧ S.content p.decl = c ∧ p.offset + n ≤ S.count p.decl := by
  cases d with
  | word v => cases h
  | place p => exact ⟨p, rfl, h⟩

theorem HasKind.logical (b : Bool) :
    HasKind S loose stack (.word .integer) (.word (.logical b)) := by
  cases b <;> exact .inl rfl

end

/-- A store whose cells have the kinds of their variables. -/
structure Typed (S : Storage) (loose : Prop) (σ : Store) : Prop where
  laid : Laid S σ.stack
  links : ∀ {k : Nat} {a : Activation}, σ.stack[k]? = some a → ∀ j ∈ a.link, j < k
  -- the cells of an activation refer to older ones only
  cells : ∀ {p : Place}, Cell S σ.stack p →
    HasKind S loose (σ.stack.take (p.owner.getD 0)) (S.content p.decl).kind (σ.cells p)

theorem Typed.older {S : Storage} {loose : Prop} {σ : Store} (h : Typed S loose σ) : Scoped S σ :=
  ⟨h.links, fun cell => (h.cells cell).bounded.mono (by simp)⟩

/-! ## Static links -/

/-- The links of an activation lead through the functions of an environment. -/
def Linked (stack : List Activation) : Option Nat → Env → Prop
  | none, [] => True
  | some k, l :: Γ => ∃ a, stack[k]? = some a ∧ a.level = l ∧ Linked stack a.link Γ
  | none, _ :: _ | some _, [] => False

/-- The activation that so many links lead to. -/
def follow (stack : List Activation) : Nat → Option Nat → Option Nat
  | 0, k => k
  | hops + 1, k => (follow stack hops k).bind fun j => (stack[j]?).bind Activation.link

variable {stack : List Activation} {k : Option Nat} {Γ : Env}

theorem Linked.append (h : Linked stack k Γ) : Linked (stack ++ more) k Γ := by
  induction Γ generalizing k with
  | nil =>
    cases k with
    | none => trivial
    | some k => cases h
  | cons l Γ ih =>
    cases k with
    | none => cases h
    | some k =>
      obtain ⟨a, ha, level, rest⟩ := h
      exact ⟨a, by rw [List.getElem?_append_left (List.getElem?_eq_some_iff.1 ha).1,
        ha], level, ih rest⟩

/-- Links lead outward. -/
theorem Linked.follow (h : Linked stack k Γ) (le : hops ≤ Γ.length) :
    Linked stack (follow stack hops k) (Γ.drop hops) := by
  induction hops with
  | zero => exact h
  | succ hops ih =>
    have inner := ih (Nat.le_of_succ_le le)
    obtain ⟨l, Δ, hΔ⟩ : ∃ l Δ, Γ.drop hops = l :: Δ :=
      List.exists_cons_of_ne_nil fun h => Nat.not_lt.2 (List.drop_eq_nil_iff.1 h) le
    rw [hΔ] at inner
    have rest : Γ.drop (hops + 1) = Δ := by rw [← List.drop_drop, hΔ, List.drop_one, List.tail_cons]
    cases hj : Safety.follow stack hops k with
    | none =>
      rw [hj] at inner
      cases inner
    | some j =>
      rw [hj] at inner
      obtain ⟨a, ha, -, chain⟩ := inner
      simpa [Safety.follow, hj, ha, rest] using chain

theorem Linked.level (h : Linked stack k Γ) {l : Level} (hl : Γ[hops]? = some l) :
    ∃ j a, Safety.follow stack hops k = some j ∧ stack[j]? = some a ∧ a.level = l := by
  obtain ⟨lt, eq⟩ := List.getElem?_eq_some_iff.1 hl
  have chain := h.follow (Nat.le_of_lt lt)
  rw [List.drop_eq_getElem_cons lt, eq] at chain
  cases hj : Safety.follow stack hops k with
  | none =>
    rw [hj] at chain
    cases chain
  | some j =>
    rw [hj] at chain
    obtain ⟨a, ha, level, -⟩ := chain
    exact ⟨j, a, rfl, ha, level⟩

theorem follow_none (stack : List Activation) (hops : Nat) : follow stack hops none = none := by
  induction hops with
  | zero => rfl
  | succ hops ih => rw [follow, ih, Option.bind_none]

theorem follow_add (stack : List Activation) (m n : Nat) (k : Option Nat) :
    follow stack (m + n) k = follow stack m (follow stack n k) := by
  induction m with
  | zero => rw [Nat.zero_add, follow]
  | succ m ih => rw [Nat.add_right_comm, follow, follow, ih]

/-- Where links lead, a function of the environment runs. -/
theorem Linked.level_of_follow (h : Linked stack k Γ) {j : Nat}
    (hj : Safety.follow stack hops k = some j) :
    ∃ a, stack[j]? = some a ∧ Γ[hops]? = some a.level := by
  induction hops generalizing k Γ with
  | zero =>
    obtain rfl : k = some j := hj
    cases Γ with
    | nil => cases h
    | cons l Γ =>
      obtain ⟨a, ha, rfl, -⟩ := h
      exact ⟨a, ha, rfl⟩
  | succ hops ih =>
    rw [follow_add] at hj
    cases k with
    | none =>
      rw [follow_none, follow_none] at hj
      cases hj
    | some i =>
      cases Γ with
      | nil => cases h
      | cons l Γ =>
        obtain ⟨a, ha, -, rest⟩ := h
        have link : Safety.follow stack 1 (some i) = a.link := by simp [Safety.follow, ha]
        rw [link] at hj
        obtain ⟨b, hb, level⟩ := ih rest hj
        exact ⟨b, hb, by simpa using level⟩

/-- Links of older activations do not see younger ones. -/
theorem follow_append (more : List Activation)
    (links : ∀ {k : Nat} {a : Activation}, stack[k]? = some a → ∀ j ∈ a.link, j < k)
    (hk : ∀ i ∈ k, i < stack.length) (hops : Nat) :
    follow (stack ++ more) hops k = follow stack hops k ∧
      ∀ i ∈ follow stack hops k, i < stack.length := by
  induction hops with
  | zero => exact ⟨rfl, hk⟩
  | succ hops ih =>
    obtain ⟨same, lt⟩ := ih
    rw [follow, follow, same]
    cases hj : follow stack hops k with
    | none => exact ⟨rfl, fun _ h => by cases h⟩
    | some j =>
      have hlt := lt j hj
      simp only [Option.bind_some, List.getElem?_append_left hlt]
      refine ⟨trivial, fun i hi => ?_⟩
      obtain ⟨a, ha, link⟩ := Option.bind_eq_some_iff.1 hi
      exact Nat.lt_trans (links ha i link) hlt

/-- Links lead to the youngest activation of a function among the older ones. -/
structure Recent (stack : List Activation) : Prop where
  youngest : ∀ {k hops j : Nat}, k < stack.length → 0 < hops → follow stack hops (some k) = some j →
    ∀ {i : Nat} {b c : Activation}, j < i → i < k → stack[i]? = some b → stack[j]? = some c →
      b.level.function ≠ c.level.function

theorem Recent.of_append
    (links : ∀ {k : Nat} {a : Activation}, stack[k]? = some a → ∀ j ∈ a.link, j < k)
    (h : Recent (stack ++ more)) : Recent stack := by
  refine ⟨fun {k hops j} hk pos hj {i b c} hji hik hb hc => ?_⟩
  obtain ⟨same, -⟩ := follow_append more links (k := some k) (by simpa using hk) hops
  have append {x : Nat} {y : Activation} (hy : stack[x]? = some y) :
      (stack ++ more)[x]? = some y := by
    rw [List.getElem?_append_left (List.getElem?_eq_some_iff.1 hy).1, hy]
  exact h.youngest (by simp; omega) pos (same.trans hj) hji hik (append hb) (append hc)

/-- A call keeps links recent: between the callee and the activation that it is linked to there are
only the running function and what is inside it. -/
theorem Recent.push (h : Recent stack)
    (links : ∀ {k : Nat} {a : Activation}, stack[k]? = some a → ∀ j ∈ a.link, j < k) {n : Nat}
    (running : stack.length = n + 1) (linked : Linked stack (some n) Γ)
    (distinct : (Γ.map Level.function).Nodup) {level : Level} {target : Option Nat}
    (ht : target = none ∨ ∃ hops, target = follow stack hops (some n)) :
    Recent (stack ++ [⟨level, target⟩]) := by
  refine ⟨fun {k hops j} hk pos hj {i b c} hji hik hb hc => ?_⟩
  have hlen : (stack ++ [(⟨level, target⟩ : Activation)]).length = n + 2 := by simp [running]
  rw [hlen] at hk
  rcases Nat.lt_or_ge k (n + 1) with lt | ge
  · obtain ⟨same, -⟩ := follow_append [⟨level, target⟩] links (k := some k)
      (by simpa [running] using lt) hops
    rw [List.getElem?_append_left (by omega)] at hb hc
    exact h.youngest (by omega) pos (same.symm.trans hj) hji hik hb hc
  · obtain rfl : k = n + 1 := by omega
    obtain ⟨hops, rfl⟩ : ∃ m, hops = m + 1 := ⟨hops - 1, by omega⟩
    have first : follow (stack ++ [(⟨level, target⟩ : Activation)]) 1 (some (n + 1)) = target := by
      simp [follow, ← running]
    rw [follow_add, first] at hj
    rcases ht with rfl | ⟨out, rfl⟩
    · rw [follow_none] at hj
      cases hj
    · obtain ⟨-, bound⟩ := follow_append [] links (k := some n) (by simp [running]) out
      rw [(follow_append _ links bound hops).1, ← follow_add] at hj
      have hi : i < n + 1 := hik
      rw [List.getElem?_append_left (by omega)] at hb hc
      rcases Nat.eq_zero_or_pos (hops + out) with zero | more
      · rw [zero] at hj
        cases hj
        omega
      · rcases Nat.lt_or_ge i n with lt | ge
        · exact h.youngest (by omega) more hj hji lt hb hc
        · -- the running activation itself
          obtain rfl : i = n := by omega
          obtain ⟨b', hb', inner⟩ :=
            linked.level_of_follow (show Safety.follow stack 0 (some i) = some i from rfl)
          obtain ⟨c', hc', outer⟩ := linked.level_of_follow hj
          rw [hb] at hb'
          rw [hc] at hc'
          cases hb'
          cases hc'
          intro same
          have places := (List.nodup_iff_getElem?_ne_getElem?.1 distinct) 0 (hops + out) more
            (by simpa using (List.getElem?_eq_some_iff.1 outer).1)
          apply places
          rw [List.getElem?_map, List.getElem?_map, inner, outer, Option.map_some,
            Option.map_some, same]

/-! ## Expressions -/

/-- Temporaries hold the words of their data. -/
structure ShowsTemps (S : Storage) (top : Int) (stack : List Activation) (θ : Temp → Option Datum)
    (ts : Temps) : Prop where
  get : ∀ {t d}, θ t = some d → t ≠ Temp.fp ∧ ts.values.getD t .zero = shown S top stack d

/-- The memory and the temporaries of the running activation. -/
structure Views (S : Storage) (top : Int) (σ : Store) (θ : Temp → Option Datum) (m : Memory)
    (ts : Temps) : Prop where
  memory : Represents S top σ m
  temps : ShowsTemps S top σ.stack θ ts

/-- Temporaries that were written have data of their kinds. -/
def Holds (S : Storage) (loose : Prop) (stack : List Activation) (κ : Temp → Option Kind)
    (D : Set Temp) (θ : Temp → Option Datum) : Prop :=
  ∀ t ∈ D, ∀ k, κ t = some k → ∃ d, θ t = some d ∧ HasKind S loose stack k d

/-- An expression has one datum as its value, or one fault, wherever the store lies. -/
def Evaluates (S : Storage) (loose : Prop) (σ : Store) (θ : Temp → Option Datum) (e : Expr)
    (k : Kind) :
    Prop :=
  (∃ d, HasKind S loose σ.stack k d ∧ ∀ {top m ts}, Views S top σ θ m ts →
    Linear.eval m ts e = .ok (shown S top σ.stack d)) ∨
  ∃ f, Possible loose f ∧ ∀ {top m ts}, Views S top σ θ m ts → Linear.eval m ts e = .error f

section

variable {m : Memory} {ts : Temps} {e : Expr}

variable {S : Storage} {loose : Prop} {σ : Store} {θ : Temp → Option Datum} {k : Value.Kind}

theorem eval_mem_of {n : Int} (fits : Word.Fits n) (h : Linear.eval m ts e = .ok (.ofInt n)) :
    Linear.eval m ts (.mem e) = m.load n := by
  simp [Linear.eval, h, bind, Except.bind, Value.ofInt, Value.asInt, toInt_ofInt fits]

theorem ofInt_add (a b : Int) : BinOp.add.apply (.ofInt a) (.ofInt b) = .ok (.ofInt (a + b)) := by
  simp [BinOp.apply, BinOp.isComparison, Value.ofInt, Value.asInt, BinOp.compute, bind, Except.bind,
    pure, Except.pure, Int64.ofInt_add]

/-- The frame pointer, and then the words of the static links, are the records along the links. -/
theorem eval_frameAt {top : Int} (h : Represents S top σ m) (laid : Laid S σ.stack) {n hops j : Nat}
    (running : σ.stack.length = n + 1) (hj : follow σ.stack hops (some n) = some j) :
    Linear.eval m ts (frameAt hops) = .ok (.ofInt (edge S top σ.stack (j + 1))) := by
  induction hops generalizing j with
  | zero =>
    cases hj
    simp [frameAt, Linear.eval, Temps.get, h.fp, running]
  | succ hops ih =>
    simp only [follow, Option.bind_eq_some_iff] at hj
    obtain ⟨i, hi, a, ha, link⟩ := hj
    have lt := (List.getElem?_eq_some_iff.1 ha).1
    rw [frameAt, eval_mem_of (h.fits_edge laid (Nat.succ_le_of_lt lt)) (ih hi), h.links ha,
      link]
    rfl

theorem evaluates_word {v : Value} (kind : v.kind = k) (h : ∀ {m ts}, Linear.eval m ts e = .ok v) :
    Evaluates S loose σ θ e (.word k) :=
  .inl ⟨.word v, .inl kind, fun _ => h⟩

/-- The place of a variable of a function around. -/
theorem evaluates_slot (laid : Laid S σ.stack) {n : Nat} (running : σ.stack.length = n + 1)
    {Γ : Env} (linked : Linked σ.stack (some n) Γ) {hops : Nat} {l : Level} {d : NodeId}
    (level : Γ[hops]? = some l) (mem : d ∈ l.variables) :
    Evaluates S loose σ θ (.binop .add (frameAt hops) (.int (S.offset d)))
      (.cells (S.content d) (S.count d)) := by
  obtain ⟨j, a, hj, ha, rfl⟩ := linked.level level
  refine .inl ⟨.place ⟨some j, d, 0⟩, ⟨⟨a, ha, mem⟩, rfl, by simp⟩, fun {_ _ ts} views => ?_⟩
  have base : Linear.eval _ ts _ = _ := eval_frameAt views.memory laid running hj
  simp only [Linear.eval, base, bind, Except.bind, Expr.int]
  rw [ofInt_add]
  simp [shown, address]

theorem evaluates_global {d : NodeId} (mem : d ∈ S.globals) :
    Evaluates S loose σ θ (.data (S.label d)) (.cells (S.content d) (S.count d)) := by
  refine .inl ⟨.place ⟨none, d, 0⟩, ⟨mem, rfl, by simp⟩, fun views => ?_⟩
  simp [Linear.eval, Memory.dataAddress, views.memory.labels d mem, shown, address]

theorem evaluates_load (typed : Typed S loose σ) {a : Expr} {c : Content} {n : Nat} (pos : 0 < n)
    (h : Evaluates S loose σ θ a (.cells c n)) : Evaluates S loose σ θ (.mem a) c.kind := by
  rcases h with ⟨d, kind, eval⟩ | ⟨f, possible, eval⟩
  · obtain ⟨p, rfl, block, content, inside⟩ := kind.place
    have cell : Cell S σ.stack p := ⟨block, by omega⟩
    refine .inl ⟨σ.cells p, content ▸ (typed.cells cell).of_take, fun views => ?_⟩
    rw [eval_mem_of (views.memory.fits_address typed.laid cell) (eval views),
      views.memory.cells cell]
  · exact .inr ⟨f, possible, fun views => by simp [Linear.eval, eval views, bind, Except.bind]⟩

theorem ofInt_mul (a : Int64) (b : Int) :
    BinOp.mul.apply (.int a) (.ofInt b) = .ok (.ofInt (a.toInt * b)) := by
  simp [BinOp.apply, BinOp.isComparison, Value.ofInt, Value.asInt, BinOp.compute, bind, Except.bind,
    pure, Except.pure, Int64.ofInt_mul]

/-- An element lies so many cells behind the first one. -/
theorem address_element (top : Int) (stack : List Activation) (p : Place) {i : Int} (low : 0 ≤ i)
    (c : Nat) :
    address S top stack { p with offset := p.offset + i.toNat * c } =
      address S top stack p + i * (c * Word.bytes) := by
  have nat : ((i.toNat : Nat) : Int) = i := Int.toNat_of_nonneg low
  simp only [address]
  push_cast
  rw [nat, Int.add_mul, Int.mul_assoc, Int.add_assoc]

theorem eval_element {top : Int} {base i : Expr} {p : Place} {n : Int64} {c : Nat}
    {length size : Int} (bytes : size = c * Word.bytes)
    (hb : Linear.eval m ts base = .ok (shown S top σ.stack (.place p)))
    (hi : Linear.eval m ts i = .ok (.int n)) (low : 0 ≤ n.toInt) (high : n.toInt < length) :
    Linear.eval m ts (elementExpr base i length size) =
      .ok (shown S top σ.stack (.place { p with offset := p.offset + n.toInt.toNat * c })) := by
  have inside : ¬ (n.toInt < 0 ∨ length ≤ n.toInt) := by omega
  simp only [elementExpr, Linear.eval, hb, hi, bind, Except.bind, Value.checkIndex,
    Value.asInt, inside, if_false, Expr.int, ofInt_mul, shown, ofInt_add,
    address_element top σ.stack p low, bytes]

theorem evaluates_element {base i : Expr} {n c : Nat} {length size : Int}
    (inside : length.toNat * c ≤ n) (bytes : size = c * Word.bytes)
    (array : Evaluates S loose σ θ base (.cells (.word k) n))
    (index : Evaluates S loose σ θ i (.word .integer)) :
    Evaluates S loose σ θ (elementExpr base i length size) (.cells (.word k) c) := by
  rcases array with ⟨d, kind, hb⟩ | ⟨f, possible, hb⟩
  case inr =>
    exact .inr
      ⟨f, possible, fun views => by simp [elementExpr, Linear.eval, hb views, bind, Except.bind]⟩
  obtain ⟨p, rfl, block, content, room⟩ := kind.place
  rcases index with ⟨d, kind, hi⟩ | ⟨f, possible, hi⟩
  case inr =>
    exact .inr ⟨f, possible, fun views => by
      simp [elementExpr, Linear.eval, hb views, hi views, bind, Except.bind]⟩
  obtain ⟨j, rfl⟩ := kind.integer
  by_cases out : j.toInt < 0 ∨ length ≤ j.toInt
  · exact .inr ⟨_, .indexOutOfBounds j.toInt length, fun views => by
      simp only [elementExpr, Linear.eval, hb views, hi views, bind, Except.bind, shown,
        Value.checkIndex, Value.asInt, out, if_true]⟩
  · refine .inl ⟨.place { p with offset := p.offset + j.toInt.toNat * c }, ⟨block, content, ?_⟩,
      fun views => eval_element bytes (hb views) (hi views) (by omega) (by omega)⟩
    have lt : j.toInt.toNat + 1 ≤ length.toNat := by omega
    have scaled : (j.toInt.toNat + 1) * c ≤ length.toNat * c := Nat.mul_le_mul_right c lt
    rw [Nat.add_mul, Nat.one_mul] at scaled
    show p.offset + j.toInt.toNat * c + c ≤ S.count p.decl
    omega

theorem evaluates_arithmetic {op : BinOp} {l r : Expr} (hop : op.isComparison = false)
    (left : Evaluates S loose σ θ l (.word .integer))
    (right : Evaluates S loose σ θ r (.word .integer)) :
    Evaluates S loose σ θ (.binop op l r) (.word .integer) := by
  rcases left with ⟨d, kind, hl⟩ | ⟨f, possible, hl⟩
  case inr =>
    exact .inr ⟨f, possible, fun views => by simp [Linear.eval, hl views, bind, Except.bind]⟩
  obtain ⟨a, rfl⟩ := kind.integer
  rcases right with ⟨d, kind, hr⟩ | ⟨f, possible, hr⟩
  case inr =>
    exact .inr
      ⟨f, possible, fun views => by simp [Linear.eval, hl views, hr views, bind, Except.bind]⟩
  obtain ⟨b, rfl⟩ := kind.integer
  cases h : op.compute a b with
  | ok c =>
    refine .inl ⟨.word (.int c), .inl rfl, fun views => ?_⟩
    simp [Linear.eval, hl views, hr views, bind, Except.bind, shown, BinOp.apply, hop,
      Value.asInt, h, pure, Except.pure]
  | error f =>
    have zero : f = .divisionByZero := by
      unfold BinOp.compute at h
      split at h
      all_goals try split at h
      all_goals cases h
      all_goals rfl
    refine .inr ⟨f, zero ▸ .divisionByZero, fun views => ?_⟩
    simp [Linear.eval, hl views, hr views, bind, Except.bind, shown, BinOp.apply, hop,
      Value.asInt, h]

/-- Words of one kind can be compared, if no string among them was never set. -/
theorem order_cases {a b : Value} (ha : a.kind = k ∨ a = .zero ∧ loose)
    (hb : b.kind = k ∨ b = .zero ∧ loose) :
    (∃ o, a.order b = .ok o) ∨ ∃ f, a.order b = .error f ∧ Possible loose f := by
  cases a with
  | int m =>
    cases b with
    | int n => exact .inl ⟨_, rfl⟩
    | str t =>
      have : loose := by
        rcases hb with rfl | ⟨h, -⟩
        · rcases ha with h | ⟨-, h⟩
          · cases h
          · exact h
        · cases h
      exact .inr ⟨_, rfl, .unset this (by simp [Value.kind])⟩
  | str s =>
    cases b with
    | str t => exact .inl ⟨_, rfl⟩
    | int n =>
      have : loose := by
        rcases ha with rfl | ⟨h, -⟩
        · rcases hb with h | ⟨-, h⟩
          · cases h
          · exact h
        · cases h
      exact .inr ⟨_, rfl, .unset this (by simp [Value.kind])⟩

theorem evaluates_comparison {op : BinOp} {l r : Expr} (hop : op.isComparison = true)
    (left : Evaluates S loose σ θ l (.word k)) (right : Evaluates S loose σ θ r (.word k)) :
    Evaluates S loose σ θ (.binop op l r) (.word .integer) := by
  rcases left with ⟨d, kind, hl⟩ | ⟨f, possible, hl⟩
  case inr =>
    exact .inr ⟨f, possible, fun views => by simp [Linear.eval, hl views, bind, Except.bind]⟩
  obtain ⟨a, rfl, ha⟩ := kind.word
  rcases right with ⟨d, kind, hr⟩ | ⟨f, possible, hr⟩
  case inr =>
    exact .inr
      ⟨f, possible, fun views => by simp [Linear.eval, hl views, hr views, bind, Except.bind]⟩
  obtain ⟨b, rfl, hb⟩ := kind.word
  rcases order_cases ha hb with ⟨o, ho⟩ | ⟨f, hf, possible⟩
  · refine .inl ⟨.word (.logical (op.holds o)), .logical _, fun views => ?_⟩
    simp [Linear.eval, hl views, hr views, bind, Except.bind, shown, BinOp.apply, hop, ho, pure,
      Except.pure]
  · refine .inr ⟨f, possible, fun views => ?_⟩
    simp [Linear.eval, hl views, hr views, bind, Except.bind, shown, BinOp.apply, hop, hf]

/-- Typed expressions without calls have a value of their kind. -/
theorem evaluates {K : Context} (hS : K.storage = S) (typed : Typed S loose σ) {n : Nat}
    (running : σ.stack.length = n + 1) {Γ : Env} (linked : Linked σ.stack (some n) Γ)
    {κ : Temp → Option Kind} {D : Set Temp} (holds : Holds S loose σ.stack κ D θ) {k : Kind}
    (h : Kinded K Γ κ (.value D e k)) (flat : e.isFlat = true) : Evaluates S loose σ θ e k := by
  subst hS
  generalize hT : Task.value D e k = task at h
  induction h generalizing e k with
  | int n =>
    cases hT
    exact evaluates_word rfl rfl
  | str s =>
    cases hT
    exact evaluates_word rfl rfl
  | @temp _ t _ kind written =>
    cases hT
    obtain ⟨d, hd, kind⟩ := holds t written _ kind
    refine .inl ⟨d, kind, fun views => ?_⟩
    obtain ⟨ne, get⟩ := views.temps.get hd
    simp [Linear.eval, Temps.get, ne, get]
  | slot level mem =>
    cases hT
    exact evaluates_slot typed.laid running linked level mem
  | global mem =>
    cases hT
    exact evaluates_global mem
  | load _ pos ih =>
    cases hT
    exact evaluates_load typed pos (ih flat rfl)
  | element _ _ inside bytes _ ihb ihi =>
    cases hT
    simp only [elementExpr, Expr.isFlat_binop, Expr.isFlat_checkIndex, Bool.and_eq_true] at flat
    exact evaluates_element inside bytes (ihb flat.1 rfl) (ihi flat.2.1 rfl)
  | arithmetic hop _ _ ihl ihr =>
    cases hT
    simp only [Expr.isFlat_binop, Bool.and_eq_true] at flat
    exact evaluates_arithmetic hop (ihl flat.1 rfl) (ihr flat.2 rfl)
  | comparison hop _ _ ihl ihr =>
    cases hT
    simp only [Expr.isFlat_binop, Bool.and_eq_true] at flat
    exact evaluates_comparison hop (ihl flat.1 rfl) (ihr flat.2 rfl)
  | builtin | call =>
    cases hT
    simp [Expr.isFlat_call] at flat
  | eseq =>
    cases hT
    simp [Expr.isFlat_eseq] at flat
  | assign | store | eval | jump | cjump | label | nil | cons => cases hT

end

end PinsBackend.Safety
