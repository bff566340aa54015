import PinsBackend.Proofs.Meaning.Places

/-! What the code of each construct does.

Each construct is treated once, as code with given parts that do what parts of the source do. -/
namespace PinsBackend.Meaning

open Ir Kinds Safety
open Lowering (elementExpr)
open Nested (State)
open Syntax (Env)

/-! ## Temporaries -/

/-- The content of a temporary. -/
def held (s : State) (t : Temp) : Value := s.temps.values.getD t .zero

@[simp] theorem held_ticked (s : State) (t : Temp) : held (ticked s) t = held s t := rfl

@[simp] theorem held_written (s : State) (t : Temp) (v : Value) : held (written s t v) t = v := by
  simp [held, written]

theorem held_written_of_ne {t u : Temp} (ne : t ≠ u) (s : State) (v : Value) :
    held (written s t v) u = held s u := by
  simp [held, written, Std.TreeMap.getD_insert, ne]

theorem ends_temp {setting : Nested.Setting} {t : Temp} (ne : t ≠ Temp.fp) (s : State) :
    Ends (fun n => Nested.eval setting n (.temp t)) s (.ok (held s t) s) :=
  ends_flat_ok rfl (by simp [Linear.eval, Temps.get, ne, held])

/-! ## What code leaves -/

/-- From one state to a later one the activations are the same, and so are the temporaries outside
of a range. -/
structure Stays (W : World) (lo hi : Nat) (σ : Store) (s : State) (σ' : Store) (s' : State) :
    Prop where
  related : W.Relates σ' s'
  typed : Typed W.storage True σ'
  stack : σ'.stack = σ.stack
  temps : ∀ t : Nat, t < lo ∨ hi ≤ t → held s' t = held s t

section

variable {W : World} {Γ : Env} {lo hi : Nat} {σ σ' σ'' : Store} {s s' s'' : State}

theorem Ready.refl (h : Ready W Γ σ s) : Stays W lo hi σ s σ s :=
  ⟨h.related, h.typed, rfl, fun _ _ => rfl⟩

theorem Ready.runs (h : Ready W Γ σ s) : W.Runs σ s := by
  obtain ⟨n, running, -⟩ := h.linked
  exact ⟨h.related, fun empty => by simp [empty] at running⟩

theorem Ready.ticked (h : Ready W Γ σ s) : Ready W Γ σ (ticked s) :=
  ⟨h.related.ticked, h.typed, h.linked⟩

theorem Stays.ready (h : Stays W lo hi σ s σ' s') (ready : Ready W Γ σ s) : Ready W Γ σ' s' :=
  ⟨h.related, h.typed, by rw [h.stack]; exact ready.linked⟩

theorem Stays.trans (h : Stays W lo hi σ s σ' s') (h' : Stays W lo hi σ' s' σ'' s'') :
    Stays W lo hi σ s σ'' s'' :=
  ⟨h'.related, h'.typed, h'.stack.trans h.stack, fun t ht => (h'.temps t ht).trans (h.temps t ht)⟩

theorem Stays.widen (h : Stays W lo hi σ s σ' s') {lo' hi' : Nat} (le : lo' ≤ lo) (le' : hi ≤ hi') :
    Stays W lo' hi' σ s σ' s' :=
  ⟨h.related, h.typed, h.stack, fun t ht => h.temps t (by omega)⟩

theorem Stays.runs (h : Stays W lo hi σ s σ' s') (ready : Ready W Γ σ s) : W.Runs σ' s' :=
  (h.ready ready).runs

theorem Stays.of_ticked (h : Stays W lo hi σ (Meaning.ticked s) σ' s') : Stays W lo hi σ s σ' s' :=
  ⟨h.related, h.typed, h.stack, h.temps⟩

theorem Stays.ticked (h : Stays W lo hi σ s σ' s') : Stays W lo hi σ s σ' (Meaning.ticked s') :=
  ⟨h.related.ticked, h.typed, h.stack, h.temps⟩

theorem Stays.written (h : Stays W lo hi σ s σ' s') {t : Nat} (le : lo ≤ t) (lt : t < hi)
    (v : Value) :
    Stays W lo hi σ s σ' (written s' t v) := by
  refine ⟨h.related.written t v, h.typed, h.stack, fun u hu => ?_⟩
  have ne : t ≠ u := by omega
  rw [held_written_of_ne ne, h.temps u hu]

/-- A cell gets a word of the kind of its variable. -/
theorem Stays.stored (h : Stays W lo hi σ s σ' s') {p : Place} {v : Value} {k : Value.Kind}
    {m : Memory} (content : W.storage.content p.decl = .word k)
    (kind : HasKind W.storage True σ'.stack (.word k) (.word v))
    (related : W.Relates (σ'.set p (.word v)) (remembering s' m)) :
    Stays W lo hi σ s (σ'.set p (.word v)) (remembering s' m) :=
  ⟨related, h.typed.set content kind, h.stack, h.temps⟩

end

/-! ## Parts -/

section

variable (W : World) (bound : Nat) (Γ : Env) (lo hi : Nat)

/-- In every state of a function, code does what a part of the source does. -/
def Matches {α : Type} (x : RunM α) (r : Expr) (results : List Activation → α → Value → Prop) :
    Prop :=
  ∀ ⦃σ s⦄, Ready W Γ σ s → Simulates W bound x (fun n => Nested.eval W.setting n r)
    (fun a σ' v s' => Stays W lo hi σ s σ' s' ∧ results σ.stack a v) σ s

/-- Code gives the datum of the source, which has this kind. -/
def Means (k : Kind) (x : RunM Datum) (r : Expr) : Prop :=
  Matches W bound Γ lo hi x r fun stack d v =>
    v = shown W.storage W.top stack d ∧ HasKind W.storage True stack k d

/-- Code gives the word of the source. -/
def Words (k : Value.Kind) (x : RunM Value) (r : Expr) : Prop :=
  Matches W bound Γ lo hi x r fun stack a v =>
    v = a ∧ HasKind W.storage True stack (.word k) (.word a)

/-- Code gives the address of a place with so many cells behind it. -/
def Points (c : Content) (n : Nat) (x : RunM Place) (r : Expr) : Prop :=
  Matches W bound Γ lo hi x r fun stack p v =>
    v = shown W.storage W.top stack (.place p) ∧
      HasKind W.storage True stack (.cells c n) (.place p)

end

section

variable {W : World} {bound : Nat} {Γ : Env} {lo hi lo' hi' n t : Nat} {α : Type} {r a b : Expr}
  {σ : Store} {s : State} {ss : List Stmt} {z : RunM Datum}

variable {results : List Activation → α → Value → Prop}

theorem Matches.mono {x : RunM α} {results' : List Activation → α → Value → Prop}
    (h : Matches W bound Γ lo hi x r results) (le : lo' ≤ lo) (le' : hi ≤ hi')
    (weaker : ∀ stack a v, results stack a v → results' stack a v) :
    Matches W bound Γ lo' hi' x r results' := fun _ _ ready =>
  (h ready).imp fun _ _ _ _ holds => ⟨holds.1.widen le le', weaker _ _ _ holds.2⟩

theorem Means.widen {k : Kind} {x : RunM Datum} (h : Means W bound Γ lo hi k x r) (le : lo' ≤ lo)
    (le' : hi ≤ hi') : Means W bound Γ lo' hi' k x r :=
  Matches.mono h le le' fun _ _ _ holds => holds

theorem Points.widen {c : Content} {x : RunM Place} (h : Points W bound Γ lo hi c n x r)
    (le : lo' ≤ lo) (le' : hi ≤ hi') : Points W bound Γ lo' hi' c n x r :=
  Matches.mono h le le' fun _ _ _ holds => holds

/-- What the source does with a result by itself. -/
theorem Matches.map {β : Type} {x : RunM α} {f : α → RunM β}
    {results' : List Activation → β → Value → Prop} (h : Matches W bound Γ lo hi x r results)
    (next : ∀ stack a v, results stack a v → ∃ b, (∀ σ, f a σ = .ok b σ) ∧ results' stack b v) :
    Matches W bound Γ lo hi (x >>= f) r results' := fun _ _ ready =>
  (h ready).map fun _ _ _ _ ⟨stays, holds⟩ =>
    (next _ _ _ holds).imp fun _ ⟨hf, holds'⟩ => ⟨hf _, stays, holds'⟩

theorem Means.word {k : Value.Kind} {x : RunM Datum} (h : Means W bound Γ lo hi (.word k) x r) :
    Words W bound Γ lo hi k (x >>= Datum.toWord) r :=
  Matches.map h fun _ _ _ ⟨hv, kind⟩ => by
    obtain ⟨w, rfl, kind⟩ := kind.word
    exact ⟨w, fun _ => rfl, hv, kind⟩

theorem Means.place {c : Content} {x : RunM Datum} (h : Means W bound Γ lo hi (.cells c n) x r) :
    Points W bound Γ lo hi c n (x >>= Datum.toPlace) r :=
  Matches.map h fun _ _ _ ⟨hv, kind⟩ => by
    obtain ⟨p, rfl, inside⟩ := kind.place
    exact ⟨p, fun _ => rfl, hv, inside⟩

theorem Words.datum {k : Value.Kind} {x : RunM Value} (h : Words W bound Γ lo hi k x r) :
    Means W bound Γ lo hi (.word k) (x >>= fun v => pure (.word v)) r :=
  Matches.map h fun _ w _ ⟨hv, kind⟩ => ⟨.word w, fun _ => rfl, hv, kind⟩

theorem Points.datum {c : Content} {x : RunM Place} (h : Points W bound Γ lo hi c n x r) :
    Means W bound Γ lo hi (.cells c n) (x >>= fun p => pure (.place p)) r :=
  Matches.map h fun _ p _ ⟨hv, kind⟩ => ⟨.place p, fun _ => rfl, hv, kind⟩

/-- Any datum will do where no kind is asked for. -/
theorem Means.any {k : Kind} {x : RunM Datum} (h : Means W bound Γ lo hi k x r) :
    Means W bound Γ lo hi .any x r :=
  Matches.mono h (Nat.le_refl _) (Nat.le_refl _) fun _ _ _ holds => ⟨holds.1, holds.2.any⟩

/-! ## Expressions -/

theorem means_const (v : Value) :
    Means W bound Γ lo hi (.word v.kind) (pure (.word v)) (.const v) :=
  fun _ _ ready => .ok rfl (ends_flat_ok rfl rfl) ⟨ready.refl, rfl, .inl rfl⟩

/-- A place that stays where it is. -/
theorem points_of_found {c : Content} {x : RunM Place}
    (h : ∀ ⦃σ s⦄, Ready W Γ σ s → ∃ p, Found W σ.stack x r p ∧
      HasKind W.storage True σ.stack (.cells c n) (.place p)) : Points W bound Γ lo hi c n x r := by
  intro σ s ready
  obtain ⟨p, found, kind⟩ := h ready
  exact .ok (found.located rfl) (ends_flat_ok found.flat (found.address rfl ready.related.memory))
    ⟨ready.refl, rfl, kind⟩

/-- What is in the first of some cells. -/
theorem Points.load {c : Content} (pos : 0 < n) {x : RunM Place}
    (h : Points W bound Γ lo hi c n x r) :
    Means W bound Γ lo hi c.kind (x >>= Meaning.load) (.mem r) := by
  intro σ s ready
  refine .step ((h ready).bind ?_) ⟨s, rfl⟩ fun _ => rfl
  rintro p σ' _ s' ⟨stays, rfl, block, content, inside⟩
  rw [← stays.stack] at block ⊢
  have cell : Cell W.storage σ'.stack p := ⟨block, by omega⟩
  have loaded := stays.related.memory.cells cell
  have fits := stays.related.memory.fits_address stays.typed.laid cell
  have reads : Nested.load (shown W.storage W.top σ'.stack (.place p)) s' =
      .ok (shown W.storage W.top σ'.stack (σ'.cells p)) s' := by
    simp only [Nested.load, bind_apply, shown, Value.ofInt, Value.asInt, Nested.lift, get_apply,
      toInt_ofInt fits, loaded]
  refine .ok rfl (reads ▸ .const _ s') ⟨stays, rfl, ?_⟩
  exact content ▸ (stays.typed.cells cell).of_take

theorem Words.binop {k l : Value.Kind} {x y : RunM Value} {op : BinOp}
    (hx : Words W bound Γ lo hi k x a) (hy : Words W bound Γ lo hi l y b) :
    Matches W bound Γ lo hi (x >>= fun u => y >>= fun v => Meaning.lift (op.apply u v))
      (.binop op a b)
      fun stack w v => v = w ∧ ∃ i j, op.apply i j = .ok w ∧
        HasKind W.storage True stack (.word k) (.word i) ∧
        HasKind W.storage True stack (.word l) (.word j) := by
  intro σ s ready
  refine .step ((hx ready).bind ?_) ⟨s, rfl⟩ fun _ => rfl
  rintro _ σ₁ i s₁ ⟨first, rfl, kind⟩
  refine (hy (first.ready ready)).bind ?_
  rintro _ σ₂ j s₂ ⟨second, rfl, kind'⟩
  exact .lift (second.runs (first.ready ready)) _ fun w hw =>
    ⟨first.trans second, rfl, i, j, hw, kind, first.stack ▸ kind'⟩

theorem Words.arithmetic {x y : RunM Value} {op : BinOp} (hop : op.isComparison = false)
    (hx : Words W bound Γ lo hi .integer x a) (hy : Words W bound Γ lo hi .integer y b) :
    Words W bound Γ lo hi .integer (x >>= fun u => y >>= fun v => Meaning.lift (op.apply u v))
      (.binop op a b) := by
  refine Matches.mono (hx.binop hy) (Nat.le_refl _) (Nat.le_refl _) ?_
  rintro stack w _ ⟨rfl, i, j, applied, ki, kj⟩
  refine ⟨rfl, ?_⟩
  obtain ⟨m, hm⟩ := ki.integer
  obtain ⟨n, hn⟩ := kj.integer
  cases hm
  cases hn
  simp only [BinOp.apply, hop, Value.asInt] at applied
  cases hc : op.compute m n with
  | ok c =>
    simp [hc, bind, Except.bind, pure, Except.pure] at applied
    subst applied
    exact .inl rfl
  | error e => simp [hc, bind, Except.bind] at applied

theorem Words.comparison {k : Value.Kind} {x y : RunM Value} {op : BinOp}
    (hop : op.isComparison = true) (hx : Words W bound Γ lo hi k x a)
    (hy : Words W bound Γ lo hi k y b) :
    Words W bound Γ lo hi .integer (x >>= fun u => y >>= fun v => Meaning.lift (op.apply u v))
      (.binop op a b) := by
  refine Matches.mono (hx.binop hy) (Nat.le_refl _) (Nat.le_refl _) ?_
  rintro stack w _ ⟨rfl, i, j, applied, -, -⟩
  refine ⟨rfl, ?_⟩
  simp only [BinOp.apply, hop] at applied
  cases ho : i.order j with
  | ok o =>
    simp [ho, bind, Except.bind, pure, Except.pure] at applied
    subst applied
    exact HasKind.logical _
  | error e => simp [ho, bind, Except.bind] at applied

theorem Words.minus {x : RunM Value} (hx : Words W bound Γ lo hi .integer x a) :
    Words W bound Γ lo hi .integer (x >>= fun v => Meaning.lift (Meaning.unary .minus v))
      (.binop .sub (.int 0) a) := by
  intro σ s ready
  have zero : Reaches W (fun n => Nested.eval W.setting n (.int 0)) s _ s :=
    .inl (ends_flat_ok rfl rfl)
  refine .step (.target zero ((hx ready).bind ?_)) ⟨s, rfl⟩ fun _ => rfl
  rintro _ σ' v s' ⟨stays, rfl, kind⟩
  obtain ⟨n, hn⟩ := kind.integer
  cases hn
  have negated : BinOp.sub.apply (.ofInt 0) (.int n) = .ok (.int (-n)) := by
    simp [BinOp.apply, BinOp.isComparison, Value.ofInt, Value.asInt, BinOp.compute, bind,
      Except.bind, pure, Except.pure]
  rw [negated]
  exact .lift (stays.runs ready) _ fun w hw => by
    cases hw
    exact ⟨stays, rfl, .inl rfl⟩

theorem Words.unary {x : RunM Value} (op : Syntax.UnaryOp)
    (hx : Words W bound Γ lo hi .integer x a) :
    Words W bound Γ lo hi .integer (x >>= fun v => Meaning.lift (Meaning.unary op v))
      (Lowering.unary op a) := by
  cases op with
  | plus => exact Matches.map hx fun _ w _ holds => ⟨w, fun _ => rfl, holds⟩
  | minus => exact hx.minus
  | not =>
    have zero : Words W bound Γ lo hi .integer (pure .zero) (.int 0) :=
      fun _ _ ready => .ok rfl (ends_flat_ok rfl rfl) ⟨ready.refl, rfl, .inl rfl⟩
    exact Words.comparison rfl hx zero

/-- The cell of an element of an array. -/
theorem Points.element {ctx : Context} {id : NodeId} {k : Value.Kind} {length size : Int}
    {type : Ty} (array : (ctx.types.get? id).bind Ty.arrayParts? = some (length, type))
    (inside : length.toNat * type.extent ≤ n) (bytes : size = type.extent * Word.bytes)
    {x : RunM Place} {y : RunM Value} (hx : Points W bound Γ lo hi (.word k) n x a)
    (hy : Words W bound Γ lo hi .integer y b) :
    Points W bound Γ lo hi (.word k) type.extent
      (x >>= fun base => y >>= fun index => Meaning.element ctx id base index)
      (elementExpr a b length size) := by
  intro σ s ready
  refine .step ((hx ready).bind ?_) ⟨s, rfl⟩ fun _ => rfl
  rintro p σ₁ _ s₁ ⟨first, rfl, block, content, room⟩
  -- the index, if it is inside the array
  have checked : Simulates W bound
      (y >>= fun index => Meaning.lift (index.checkIndex length >>= fun v => v.asInt))
      (fun n => Nested.eval W.setting n (.checkIndex b length))
        (fun i σ' v s' => Stays W lo hi σ₁ s₁ σ' s' ∧
        v = .int i ∧ 0 ≤ i.toInt ∧ i.toInt < length) σ₁ s₁ := by
    refine .step ((hy (first.ready ready)).bind ?_) ⟨s₁, rfl⟩ fun _ => rfl
    rintro _ σ₂ v s₂ ⟨second, rfl, kind⟩
    obtain ⟨i, hi⟩ := kind.integer
    cases hi
    by_cases out : i.toInt < 0 ∨ length ≤ i.toInt
    · have fails : (Value.int i).checkIndex length = .error (.indexOutOfBounds i.toInt length) := by
        simp [Value.checkIndex, Value.asInt, bind, Except.bind, out]
      rw [fails]
      exact .fault rfl (.const _ s₂) (second.runs (first.ready ready))
    · have holds : (Value.int i).checkIndex length = .ok (.int i) := by
        simp [Value.checkIndex, Value.asInt, bind, Except.bind, out]
      rw [holds]
      exact .ok rfl (.const _ s₂) ⟨second, rfl, by omega, by omega⟩
  have scaled : Simulates W bound
      (y >>= fun index => Meaning.lift (index.checkIndex length >>= fun v => v.asInt))
      (fun n => Nested.eval W.setting n (.binop .mul (.checkIndex b length) (.int size)))
      (fun i σ' v s' => Stays W lo hi σ₁ s₁ σ' s' ∧ v = .ofInt (i.toInt * size) ∧ 0 ≤ i.toInt ∧
        i.toInt < length) σ₁ s₁ := by
    refine .step (checked.andThen ?_) ⟨s₁, rfl⟩ fun _ => rfl
    rintro i σ₂ _ s₂ ⟨second, rfl, low, high⟩
    have bytes : Ends (fun n => Nested.eval W.setting n (.int size)) s₂ (.ok (.ofInt size) s₂) :=
      ends_flat_ok rfl rfl
    have times := ends_lift (ofInt_mul i size) s₂
    exact ⟨_, s₂, bytes.bind times, second, rfl, low, high⟩
  have located : (fun index => Meaning.element ctx id p index) = fun index =>
      Meaning.lift (index.checkIndex length >>= fun v => v.asInt) >>= fun i =>
        pure { p with offset := p.offset + i.toInt.toNat * type.extent } := by
    funext index
    simp only [Meaning.element, array]
  rw [located, ← bind_assoc]
  refine scaled.bind ?_
  rintro i σ₂ _ s₂ ⟨second, rfl, low, high⟩
  have sum : BinOp.add.apply (shown W.storage W.top σ.stack (.place p)) (.ofInt (i.toInt * size)) =
      .ok (shown W.storage W.top σ.stack
        (.place { p with offset := p.offset + i.toInt.toNat * type.extent })) := by
    rw [shown, ofInt_add, shown, address_element W.top σ.stack p low, bytes]
  refine .ok rfl (ends_lift sum s₂) ⟨first.trans second, rfl, block, content, ?_⟩
  have lt : i.toInt.toNat + 1 ≤ length.toNat := by omega
  have below : (i.toInt.toNat + 1) * type.extent ≤ length.toNat * type.extent :=
    Nat.mul_le_mul_right _ lt
  rw [Nat.add_mul, Nat.one_mul] at below
  show p.offset + i.toInt.toNat * type.extent + type.extent ≤ W.storage.count p.decl
  omega

/-! ## Control flow -/

theorem Simulates.finish {a : α} {all : List Stmt} {post : α → Store → Nested.Flow → State → Prop}
    (holds : post a σ .next s) :
    Simulates W bound (pure a) (fun n => Nested.execFrom W.setting n all []) post σ s :=
  .ok rfl (ends_nil _ _ s) holds

/-- Statements leave a datum of this kind in a temporary. -/
def LeavesIn (W : World) (lo hi : Nat) (k : Kind) (t : Temp) (σ : Store) (s : State) (d : Datum)
    (σ' : Store) (s' : State) : Prop :=
  Stays W lo hi σ s σ' s' ∧ held s' t = shown W.storage W.top σ.stack d ∧
    HasKind W.storage True σ.stack k d

theorem Stays.leaves {k : Kind} {σ' : Store} {s' : State} {d : Datum}
    (h : Stays W lo (t + 1) σ s σ' s') (low : lo ≤ t) (kind : HasKind W.storage True σ.stack k d) :
    LeavesIn W lo (t + 1) k t σ s d σ' (Meaning.written s' t (shown W.storage W.top σ.stack d)) :=
  ⟨h.written low (Nat.lt_succ_self t) _, held_written .., kind⟩

/-- Statements that leave a datum in a temporary, and then the temporary. -/
theorem Simulates.leaving {x : RunM Datum} (flat : Stmt.flattenList ss = ss) {k : Kind} {t : Temp}
    (ne : t ≠ Temp.fp) (h : Simulates W bound x (fun n => Nested.execFrom W.setting n ss ss)
      (fun d σ' flow s' => flow = .next ∧ LeavesIn W lo hi k t σ s d σ' s') σ s) :
    Simulates W bound x (fun n => Nested.eval W.setting n (.after (.seq ss) (.temp t)))
      (fun d σ' v s' => Stays W lo hi σ s σ' s' ∧ v = shown W.storage W.top σ.stack d ∧
        HasKind W.storage True σ.stack k d) σ s :=
  .congr (congrFun (bind_pure x) σ).symm (.after flat h fun _ _ s' ⟨stays, value, kind⟩ =>
    .ok rfl (ends_temp ne s') ⟨stays, value, kind⟩)

/-- Statements for their effect, and then zero. -/
theorem Simulates.idle {x : RunM Unit} (flat : Stmt.flattenList ss = ss)
    (h : Simulates W bound x (fun n => Nested.execFrom W.setting n ss ss)
      (fun _ σ' flow s' => flow = .next ∧ Stays W lo hi σ s σ' s') σ s) :
    Simulates W bound (x >>= fun _ => pure (.word .zero))
      (fun n => Nested.eval W.setting n (.after (.seq ss) (.int 0)))
      (fun d σ' v s' => Stays W lo hi σ s σ' s' ∧ v = shown W.storage W.top σ.stack d ∧
        HasKind W.storage True σ.stack (.word .integer) d) σ s :=
  .after flat h fun _ _ _ stays => .ok rfl (ends_flat_ok rfl rfl) ⟨stays, rfl, .inl rfl⟩

theorem Means.shortCircuit (conjunction : Bool) {k : Value.Kind} {x : RunM Value} {y : RunM Datum}
    (low : lo ≤ t) (ne : t ≠ Temp.fp) {right done : String} (labels : right ≠ done)
    (hx : Words W bound Γ lo t k x a) (hy : Means W bound Γ lo t (.word k) y b) :
    Means W bound Γ lo (t + 1) (.word k)
      (x >>= fun v => Meaning.lift v.isTruthy >>= fun flag =>
        if flag = conjunction then y else pure (.word v))
      (Lowering.shortCircuit conjunction a b t right done) := by
  intro σ s ready
  refine .leaving (by cases conjunction <;> rfl) ne (.assign ne (hx ready.ticked) ?_)
  rintro _ σ₁ v s₁ ⟨stays, rfl, kind⟩
  have left : LeavesIn W lo (t + 1) (.word k) t σ s (.word v) σ₁ (written s₁ t v) :=
    (stays.of_ticked.widen (Nat.le_refl _) (Nat.le_succ t)).leaves low kind
  -- the two ways to go on, with the left operand in the temporary
  have decided (all : List Stmt) {σ' : Store} {s' : State}
      (left : LeavesIn W lo (t + 1) (.word k) t σ s (.word v) σ' s') :
      Simulates W bound (pure (.word v)) (fun n => Nested.execFrom W.setting n all [.label done])
        (fun d σ' flow s' => flow = .next ∧ LeavesIn W lo (t + 1) (.word k) t σ s d σ' s') σ' s' :=
    .label (.finish ⟨rfl, left⟩)
  have needed (all : List Stmt) {σ' : Store} {s' : State}
      (left : LeavesIn W lo (t + 1) (.word k) t σ s (.word v) σ' s') :
      Simulates W bound y
        (fun n => Nested.execFrom W.setting n all [.label right, .move (.temp t) b, .label done])
        (fun d σ' flow s' => flow = .next ∧ LeavesIn W lo (t + 1) (.word k) t σ s d σ' s')
          σ' s' := by
    refine .label
      (.congr (congrFun (bind_pure y) σ').symm (.assign ne (hy (left.1.ready ready).ticked) ?_))
    rintro d σ₂ _ s₂ ⟨stays, rfl, kind⟩
    rw [left.1.stack] at kind ⊢
    exact .label (.finish ⟨rfl,
      (left.1.trans (stays.of_ticked.widen (Nat.le_refl _) (Nat.le_succ t))).leaves low kind⟩)
  have test : Simulates W bound (pure v) (fun n => Nested.eval W.setting n (.temp t))
      (fun a σ' u s' => a = u ∧ W.Runs σ' s' ∧
        LeavesIn W lo (t + 1) (.word k) t σ s (.word v) σ' s') σ₁
      (ticked (written s₁ t v)) :=
    .ok rfl (ends_temp ne _) ⟨by simp, left.1.ticked.runs ready, left.1.ticked, left.2⟩
  cases conjunction with
  | true =>
    refine .branch (x := pure v)
      (show Nested.seek right _ = some [.label right, .move (.temp t) b, .label done] by
      simp [Nested.seek, Stmt.isLabel]) (show Nested.seek done _ = some [.label done] by
      simp [Nested.seek, Stmt.isLabel, labels]) test ?_
    rintro (_ | _) σ' s' - left
    · exact decided _ left
    · exact needed _ left
  | false =>
    refine .branch (x := pure v) (show Nested.seek done _ = some [.label done] by
      simp [Nested.seek, Stmt.isLabel, labels])
        (show Nested.seek right _ = some [.label right, .move (.temp t) b, .label done] by
          simp [Nested.seek, Stmt.isLabel]) test ?_
    rintro (_ | _) σ' s' - left
    · exact needed _ left
    · exact decided _ left

/-- A condition that is tested. -/
theorem Words.tested {k : Value.Kind} {x : RunM Value} {c : Expr} (h : Words W bound Γ lo hi k x c)
    {σ₀ : Store} {s₀ : State} (ready : Ready W Γ σ₀ s₀) (stays : Stays W lo hi σ₀ s₀ σ s) :
    Simulates W bound x (fun n => Nested.eval W.setting n c)
      (fun a σ' v s' => a = v ∧ W.Runs σ' s' ∧ Stays W lo hi σ₀ s₀ σ' s') σ (ticked s) :=
  (h (stays.ready ready).ticked).imp fun _ _ _ _ ⟨later, value, _⟩ =>
    ⟨value.symm, (stays.trans later.of_ticked).runs ready, stays.trans later.of_ticked⟩

theorem Means.ifThen {k : Value.Kind} {l : Kind} {x : RunM Value} {y : RunM Datum} {c : Expr}
    {onTrue onFalse : String} (labels : onTrue ≠ onFalse) (hx : Words W bound Γ lo hi k x c)
    (hy : Means W bound Γ lo hi l y b) :
    Means W bound Γ lo hi (.word .integer)
      ((x >>= fun v => Meaning.lift v.isTruthy >>= fun flag =>
        if flag then y >>= fun _ => pure () else pure ()) >>=
        fun _ => pure (.word .zero))
      (Lowering.ifThen c b onTrue onFalse) := by
  intro σ s ready
  refine .idle rfl
    (.branch (show Nested.seek onTrue _ = some [.label onTrue, .eval b, .label onFalse] by
    simp [Nested.seek, Stmt.isLabel]) (show Nested.seek onFalse _ = some [.label onFalse] by
    simp [Nested.seek, Stmt.isLabel, labels]) (hx.tested ready ready.refl) ?_)
  rintro (_ | _) σ₁ s₁ - stays
  · exact .label (.finish ⟨rfl, stays⟩)
  · refine .label (.eval (hy (stays.ready ready).ticked) ?_)
    rintro d σ₂ v s₂ ⟨later, -⟩
    exact .label (.finish ⟨rfl, stays.trans later.of_ticked⟩)

theorem Means.ifElse {k : Value.Kind} {l : Kind} {x : RunM Value} {y : RunM Datum} {c e : Expr}
    (low : lo ≤ t) (ne : t ≠ Temp.fp) {onTrue onFalse done : String} (labels : onTrue ≠ onFalse)
    (labels' : done ≠ onTrue) (labels'' : done ≠ onFalse) (hx : Words W bound Γ lo t k x c)
    (hy : Means W bound Γ lo t l y b) (hz : Means W bound Γ lo t l z e) :
    Means W bound Γ lo (t + 1) l
      (x >>= fun v => Meaning.lift v.isTruthy >>= fun flag => if flag then y else z)
      (Lowering.ifElse c b e t onTrue onFalse done) := by
  intro σ s ready
  have written {y : RunM Datum} {b : Expr} (hy : Means W bound Γ lo t l y b)
      {all rest : List Stmt} {σ' : Store} {s' : State}
      (stays : Stays W lo t σ s σ' s')
      (next : ∀ d σ' s', LeavesIn W lo (t + 1) l t σ s d σ' s' →
        Simulates W bound (pure d) (fun n => Nested.execFrom W.setting n all rest)
          (fun d σ' flow s' => flow = .next ∧ LeavesIn W lo (t + 1) l t σ s d σ' s') σ' s') :
      Simulates W bound y (fun n => Nested.execFrom W.setting n all (.move (.temp t) b :: rest))
        (fun d σ' flow s' => flow = .next ∧ LeavesIn W lo (t + 1) l t σ s d σ' s') σ' s' := by
    refine .congr (congrFun (bind_pure y) σ').symm (.assign ne (hy (stays.ready ready).ticked) ?_)
    rintro d σ₂ _ s₂ ⟨later, rfl, kind⟩
    rw [stays.stack] at kind ⊢
    exact next d σ₂ _
      (((stays.trans later.of_ticked).widen (Nat.le_refl _) (Nat.le_succ t)).leaves low kind)
  refine .leaving rfl ne
    (.branch (show Nested.seek onTrue _ = some [.label onTrue, .move (.temp t) b,
      .jump done, .label onFalse, .move (.temp t) e, .label done] by
      simp [Nested.seek, Stmt.isLabel])
    (show Nested.seek onFalse _ = some [.label onFalse, .move (.temp t) e, .label done] by
      simp [Nested.seek, Stmt.isLabel, labels]) (hx.tested ready ready.refl) ?_)
  rintro (_ | _) σ₁ s₁ - stays
  · exact .label (written hz stays fun d σ' s' left => .label (.finish ⟨rfl, left⟩))
  · refine .label
      (written hy stays fun d σ' s' left => .jump (show Nested.seek done _ = some [.label done] by
      simp [Nested.seek, Stmt.isLabel, labels'.symm, labels''.symm])
        (.label (.finish ⟨rfl, left.1.ticked, left.2⟩)))

theorem Means.whileDo {k : Value.Kind} {l : Kind} {x : RunM Value} {y : RunM Datum} {c : Expr}
    {limit : Nat} (le : bound ≤ limit) {test enter exit : String} (labels : test ≠ enter)
    (labels' : test ≠ exit) (labels'' : enter ≠ exit) (hx : Words W bound Γ lo hi k x c)
    (hy : Means W bound Γ lo hi l y b) :
    Means W bound Γ lo hi (.word .integer)
      (repeatWhile (x >>= fun v => Meaning.lift v.isTruthy) (y >>= fun _ => pure ()) limit >>=
        fun _ => pure (.word .zero))
      (Lowering.whileDo c b test enter exit) := by
  intro σ s ready
  -- after so many turns, with the fuel that is left
  have turns (m : Nat) : ∀ j ≤ m, j ≤ bound → ∀ {σ' s'}, Stays W lo hi σ s σ' s' →
      Simulates W j
        (repeatWhile (x >>= fun v => Meaning.lift v.isTruthy) (y >>= fun _ => pure ()) m)
        (fun n => Nested.execFrom W.setting n
          [.label test, .cjump c enter exit, .label enter, .eval b, .jump test, .label exit]
          [.label test, .cjump c enter exit, .label enter, .eval b, .jump test, .label exit])
        (fun _ σ' flow s' => flow = .next ∧ Stays W lo hi σ s σ' s') σ' s' := by
    induction m with
    | zero =>
      intro j hj _ σ' s' _
      refine .unfinished rfl fun n hn => ?_
      obtain rfl : n = 0 := by omega
      exact ⟨s', rfl⟩
    | succ m ih =>
      intro j hj le σ' s' stays
      rw [repeatWhile, bind_assoc]
      refine .label_of_pred
        (.branch
        (show Nested.seek enter _ = some [.label enter, .eval b, .jump test, .label exit] by
        simp [Nested.seek, Stmt.isLabel, labels]) (show Nested.seek exit _ = some [.label exit] by
        simp [Nested.seek, Stmt.isLabel, labels', labels''])
          ((hx.tested ready stays).less (by omega)) ?_)
      rintro (_ | _) σ₁ s₁ - stays
      · exact .label (.finish ⟨rfl, stays⟩)
      · rw [if_pos rfl, bind_assoc]
        refine .label (.eval ((hy (stays.ready ready).ticked).less (by omega)) ?_)
        rintro d σ₂ v s₂ ⟨later, -⟩
        have stays := stays.trans later.of_ticked
        exact .jump (by simp [Nested.seek, Stmt.isLabel])
          (ih (j - 1) (by omega) (by omega) stays.ticked)
  exact .idle rfl (turns limit bound le (Nat.le_refl _) ready.refl)

/-! ## Stores -/

/-- An address leads to the cell of an integer, which stays where it is. -/
def Counts (W : World) (Γ : Env) (x : RunM Place) (a : Expr) : Prop :=
  ∀ ⦃σ s⦄, Ready W Γ σ s → ∃ p, Found W σ.stack x a p ∧ Cell W.storage σ.stack p ∧
    W.storage.content p.decl = .word .integer

section

variable {x : RunM Place} {a : Expr} {p : Place} {σ : Store} {s : State}

theorem Typed.integer {S : Storage} (typed : Typed S True σ) (cell : Cell S σ.stack p)
    (content : S.content p.decl = .word .integer) : ∃ n, σ.cells p = .word (.int n) := by
  have kind := (typed.cells cell).of_take
  rw [content] at kind
  exact kind.integer

/-- A word in memory and one in a temporary. -/
theorem Found.operate (found : Found W σ.stack x a p) (cell : Cell W.storage σ.stack p)
    (runs : W.Runs σ s) (typed : Typed W.storage True σ) {u v : Value} (word : σ.cells p = .word u)
    {t : Temp} (ne : t ≠ Temp.fp) (temp : held s t = v) (op : BinOp) :
    Simulates W bound ((Meaning.load p >>= Datum.toWord) >>= fun u => Meaning.lift (op.apply u v))
      (fun n => Nested.eval W.setting n (.binop op (.mem a) (.temp t)))
      (fun w σ' w' s' => w = w' ∧ op.apply u v = .ok w ∧ σ' = σ ∧ s' = s) σ s := by
  have read : Linear.eval s.machine.memory s.temps (.mem a) = .ok u := by
    have fits := runs.memory.fits_address typed.laid cell
    rw [eval_mem_of fits (found.address rfl runs.memory), runs.memory.cells cell, word]
    rfl
  have value : Linear.eval s.machine.memory s.temps (.binop op (.mem a) (.temp t)) =
      op.apply u v := by
    rw [Linear.eval, read, ← temp]
    simp [Linear.eval, Temps.get, ne, held, bind, Except.bind]
  have flat : (Expr.binop op (.mem a) (.temp t)).isFlat = true := by
    rw [Expr.isFlat_binop, Expr.isFlat_mem, found.flat]
    rfl
  have loaded : ((Meaning.load p >>= Datum.toWord) >>= fun u => Meaning.lift (op.apply u v)) σ =
      Meaning.lift (op.apply u v) σ := by
    simp only [Meaning.load, bind_apply, get_apply, pure_apply, word, Datum.toWord]
  refine .congr loaded ?_
  have ends : Ends (fun n => Nested.eval W.setting n (.binop op (.mem a) (.temp t))) s _ :=
    ends_flat flat s
  rw [value] at ends
  cases applied : op.apply u v with
  | ok w =>
    rw [applied] at ends
    exact .ok rfl ends ⟨rfl, rfl, rfl, rfl⟩
  | error f =>
    rw [applied] at ends
    exact .fault rfl ends runs

end

/-- A word of the right kind is stored in a cell that stays where it is. -/
theorem Found.store {γ : Type} {x : RunM Place} {p : Place} {k : Value.Kind} {g : Datum → RunM γ}
    {e : Expr} {all rest : List Stmt} {last : γ → Store → Nested.Flow → State → Prop}
    (found : Found W σ.stack x a p) (cell : Cell W.storage σ.stack p)
    (content : W.storage.content p.decl = .word k) (ready : Ready W Γ σ s)
    (value : Simulates W bound z (fun n => Nested.eval W.setting n e)
      (fun d σ' v s' => Stays W lo hi σ (ticked s) σ' s' ∧ v = shown W.storage W.top σ.stack d ∧
        HasKind W.storage True σ.stack (.word k) d) σ (ticked s))
    (next : ∀ d σ' s', σ'.stack = σ.stack → Stays W lo hi σ s (σ'.set p d) s' →
      Simulates W bound (g d) (fun n => Nested.execFrom W.setting n all rest) last σ' s') :
    Simulates W bound (z >>= g)
      (fun n => Nested.execFrom W.setting n all (.move (.mem a) e :: rest)) last σ s := by
  have place : Simulates W bound (pure p) (fun n => Nested.eval W.setting n a)
      (fun q σ₁ v s₁ => v = shown W.storage W.top σ₁.stack (.place q) ∧ q = p ∧ σ₁ = σ ∧
        s₁ = ticked s) σ
      (ticked s) :=
    .ok rfl (ends_flat_ok found.flat (found.address rfl ready.related.ticked.memory))
      ⟨rfl, rfl, rfl, rfl⟩
  let stored (q : Place) (d : Datum) (σ' : Store) (s' : State) : Prop :=
    q = p ∧ Stays W lo hi σ s σ' s' ∧ HasKind W.storage True σ.stack (.word k) d
  refine .store (x := pure p) (z := fun _ => z) (g := fun _ => g) (Q := stored) place ?_ ?_
  · rintro _ _ _ ⟨rfl, rfl, rfl⟩
    refine value.imp fun d σ' v s' ⟨stays, shows, kind⟩ => ?_
    rw [stays.stack]
    exact ⟨rfl, shows, stays.related, ready.typed.laid, cell, rfl, stays.of_ticked, kind⟩
  · rintro _ d σ' s' m ⟨rfl, stays, kind⟩ related
    obtain ⟨v, rfl, kind⟩ := kind.word
    exact next _ σ' _ stays.stack (stays.stored content kind related)

/-- A counter against its limit. -/
def below (p : Place) (limit : Value) : RunM Value :=
  (Meaning.load p >>= Datum.toWord) >>= fun v => Meaning.lift (BinOp.lt.apply v limit)

/-- A counter after one more step. -/
def advance (p : Place) (step : Value) : RunM Unit :=
  ((Meaning.load p >>= Datum.toWord) >>= fun v => Meaning.lift (BinOp.add.apply v step)) >>=
    fun v =>
    Meaning.store p (.word v)

/-- In a counting loop, the limit and the step are in two temporaries behind those of the parts. -/
structure Counting (W : World) (lo t : Nat) (limit step : Int64) (σ : Store) (s : State)
    (σ' : Store) (s' : State) :
    Prop where
  stays : Stays W lo (t + 2) σ s σ' s'
  limit : held s' t = .int limit
  step : held s' (t + 1) = .int step

theorem Counting.trans {limit step : Int64} {σ' σ'' : Store} {s' s'' : State}
    (h : Counting W lo t limit step σ s σ' s') (later : Stays W lo t σ' s' σ'' s'') :
    Counting W lo t limit step σ s σ'' s'' :=
  ⟨h.stays.trans (later.widen (Nat.le_refl _) (by omega)), (later.temps t (by omega)).trans h.limit,
    (later.temps (t + 1) (by omega)).trans h.step⟩

section

variable {l : Kind} {x : RunM Place} {y : RunM Datum} {a b : Expr} {p : Place} {t : Nat} {σ : Store}
  {s : State}
  {test enter exit : String} {all rest : List Stmt}

theorem Found.advance (ready : Ready W Γ σ s) (found : Found W σ.stack x a p)
    (cell : Cell W.storage σ.stack p) (content : W.storage.content p.decl = .word .integer)
    {limit step : Int64} {σ' : Store} {s' : State} (counting : Counting W lo t limit step σ s σ' s')
    {f : Unit → RunM Unit} {last : Unit → Store → Nested.Flow → State → Prop}
    (next : ∀ σ' s', Counting W lo t limit step σ s σ' s' →
      Simulates W bound (f ()) (fun n => Nested.execFrom W.setting n all rest) last σ' s') :
    Simulates W bound (Meaning.advance p (.int step) >>= f)
      (fun n => Nested.execFrom W.setting n all
      (.move (.mem a) (.binop .add (.mem a) (.temp (t + 1))) :: rest)) last σ' s' := by
  have stays := counting.stays
  have ready := stays.ready ready
  rw [← stays.stack] at found cell
  obtain ⟨c, counter⟩ := Typed.integer stays.typed cell content
  have sum : Simulates W bound (((Meaning.load p >>= Datum.toWord) >>= fun v =>
        Meaning.lift (BinOp.add.apply v (.int step))) >>= fun v => pure (.word v))
      (fun n => Nested.eval W.setting n (.binop .add (.mem a) (.temp (t + 1))))
      (fun d σ₁ v s₁ => Stays W lo t σ' (ticked s') σ₁ s₁ ∧ v = shown W.storage W.top σ'.stack d ∧
        HasKind W.storage True σ'.stack (.word .integer) d) σ' (ticked s') := by
    refine (found.operate cell ready.ticked.runs stays.typed counter (Nat.succ_ne_zero t)
      counting.step .add).map ?_
    rintro w _ _ _ ⟨rfl, applied, rfl, rfl⟩
    refine ⟨.word w, rfl, ready.ticked.refl, rfl, .inl ?_⟩
    rw [← Except.ok.inj applied]
    rfl
  have parts : (Meaning.advance p (.int step) >>= f) =
      (((Meaning.load p >>= Datum.toWord) >>= fun v =>
        Meaning.lift (BinOp.add.apply v (.int step))) >>=
        fun v => pure (.word v)) >>= fun d => Meaning.store p d >>= f := by
    simp only [Meaning.advance, bind_assoc, pure_bind]
  rw [parts]
  refine found.store cell content ready sum fun d σ₁ s₁ _ later => ?_
  exact .source rfl (next _ s₁ (counting.trans later))

/-- The turns of a counting loop. -/
theorem Simulates.turns (ready : Ready W Γ σ s) (found : Found W σ.stack x a p)
    (cell : Cell W.storage σ.stack p) (content : W.storage.content p.decl = .word .integer)
    (hy : Means W bound Γ lo t l y b) (ne : t ≠ Temp.fp)
    (atTest : Nested.seek test all =
      some (.label test :: .cjump (.binop .lt (.mem a) (.temp t)) enter exit :: rest))
    (atEnter : Nested.seek enter all =
      some [.label enter, .eval b, .move (.mem a) (.binop .add (.mem a) (.temp (t + 1))),
      .jump test, .label exit]) (atExit : Nested.seek exit all = some [.label exit])
    {limit step : Int64} (m : Nat) :
    ∀ j ≤ m, j ≤ bound → ∀ {σ' s'}, Counting W lo t limit step σ s σ' s' →
      Simulates W j (repeatWhile (below p (.int limit) >>= fun v => Meaning.lift v.isTruthy)
          (y >>= fun _ => Meaning.advance p (.int step)) m)
        (fun n => Nested.execFrom W.setting n all
          (.label test :: .cjump (.binop .lt (.mem a) (.temp t)) enter exit :: rest))
        (fun _ σ' flow s' => flow = .next ∧ Stays W lo (t + 2) σ s σ' s') σ' s' := by
  induction m with
  | zero =>
    intro j hj _ σ' s' _
    refine .unfinished rfl fun n hn => ?_
    obtain rfl : n = 0 := by omega
    exact ⟨s', rfl⟩
  | succ m ih =>
    intro j hj le σ' s' counting
    have stays := counting.stays
    obtain ⟨c, counter⟩ := Typed.integer stays.typed (stays.stack ▸ cell) content
    have tested : Simulates W (j - 1) (below p (.int limit))
        (fun n => Nested.eval W.setting n (.binop .lt (.mem a) (.temp t)))
        (fun v σ₁ v' s₁ => v = v' ∧ W.Runs σ₁ s₁ ∧ Counting W lo t limit step σ s σ₁ s₁) σ'
          (ticked s') := by
      refine (Found.operate (stays.stack.symm ▸ found) (stays.stack.symm ▸ cell)
        (stays.ticked.runs ready) stays.typed counter ne
        counting.limit .lt).imp ?_
      rintro v _ _ _ ⟨rfl, -, rfl, rfl⟩
      exact ⟨rfl, stays.ticked.runs ready, stays.ticked, counting.limit, counting.step⟩
    rw [repeatWhile, bind_assoc]
    refine .label_of_pred (.branch atEnter atExit tested ?_)
    rintro (_ | _) σ₁ s₁ - counting
    · exact .label (.finish ⟨rfl, counting.stays⟩)
    · rw [if_pos rfl, bind_assoc]
      refine .label (.eval ((hy (counting.stays.ready ready).ticked).less (by omega)) ?_)
      rintro d σ₂ v s₂ ⟨later, -⟩
      refine found.advance ready cell content (counting.trans later.of_ticked) fun σ₃ s₃
        counting => ?_
      exact .jump atTest (ih (j - 1) (by omega) (by omega)
        ⟨counting.stays.ticked, counting.limit, counting.step⟩)

theorem Means.forDo {lower : RunM Datum} {upper step : RunM Value} {low high by' : Expr}
    {limit : Nat} (le : bound ≤ limit) (start : lo ≤ t) (ne : t ≠ Temp.fp) (labels : test ≠ enter)
    (labels' : test ≠ exit) (labels'' : enter ≠ exit) (counter : Counts W Γ x a)
    (hlow : Means W bound Γ lo t (.word .integer) lower low)
    (hhigh : Words W bound Γ lo t .integer upper high)
    (hstep : Words W bound Γ lo t .integer step by') (hy : Means W bound Γ lo t l y b) :
    Means W bound Γ lo (t + 2) (.word .integer)
      ((x >>= fun p => lower >>= fun d => Meaning.store p d >>= fun _ =>
        upper >>= fun limit' => step >>= fun i =>
          repeatWhile (below p limit' >>= fun v => Meaning.lift v.isTruthy)
            (y >>= fun _ => Meaning.advance p i)
            limit) >>= fun _ => pure (.word .zero))
      (Lowering.forDo (.mem a) low high by' b t (t + 1) test enter exit) := by
  intro σ s ready
  obtain ⟨p, found, cell, content⟩ := counter ready
  refine .idle rfl
    (.source (found.located rfl) (found.store cell content ready (hlow ready.ticked) ?_))
  intro d σ₁ s₁ _ first
  refine .source rfl (.assign ne (hhigh (first.ready ready).ticked) ?_)
  rintro _ σ₂ v s₂ ⟨second, rfl, kind⟩
  obtain ⟨n, hn⟩ := kind.integer
  cases hn
  have second : Stays W lo (t + 2) σ s σ₂ (written s₂ t (.int n)) :=
    ((first.trans second.of_ticked).widen (Nat.le_refl _) (by omega)).written start (by omega) _
  refine .assign (Nat.succ_ne_zero t) (hstep (second.ready ready).ticked) ?_
  rintro _ σ₃ v s₃ ⟨third, rfl, kind⟩
  obtain ⟨i, hi⟩ := kind.integer
  cases hi
  have counting : Counting W lo t n i σ s σ₃ (written s₃ (t + 1) (.int i)) := by
    refine ⟨?_, ?_, held_written ..⟩
    · exact (second.trans (third.of_ticked.widen (Nat.le_refl _) (by omega))).written (by omega)
        (by omega) _
    · rw [held_written_of_ne (Nat.succ_ne_self t), third.temps t (by omega), held_ticked,
        held_written]
  exact .turns ready found cell content hy ne (by simp [Nested.seek, Stmt.isLabel])
    (by simp [Nested.seek, Stmt.isLabel, labels])
    (by simp [Nested.seek, Stmt.isLabel, labels', labels''])
    limit bound le (Nat.le_refl _) counting

/-- The value is kept in a temporary while the place is found. -/
theorem Means.assignment {k : Value.Kind} {n : Nat} (pos : 0 < n) (low : lo ≤ t) (ne : t ≠ Temp.fp)
    {v : Expr} (hy : Means W bound Γ lo t (.word k) y v)
    (hx : Points W bound Γ lo t (.word k) n x a) :
    Means W bound Γ lo (t + 1) (.word k)
      (y >>= fun d => x >>= fun p => Meaning.store p d >>= fun _ => pure d)
      (.after (.seq [.move (.temp t) v, .move (.mem a) (.temp t)]) (.temp t)) := by
  intro σ s ready
  refine .leaving rfl ne (.assign ne (hy ready.ticked) ?_)
  rintro d σ₁ _ s₁ ⟨stays, rfl, kind⟩
  have left := (stays.of_ticked.widen (Nat.le_refl _) (Nat.le_succ t)).leaves low kind
  have place : Simulates W bound x (fun n => Nested.eval W.setting n a)
      (fun p σ' v s' => v = shown W.storage W.top σ'.stack (.place p) ∧
        LeavesIn W lo (t + 1) (.word k) t σ s d σ' s' ∧
        HasKind W.storage True σ.stack (.cells (.word k) n) (.place p)) σ₁
      (ticked (written s₁ t (shown W.storage W.top σ.stack d))) := by
    refine (hx (left.1.ready ready).ticked).imp ?_
    rintro p σ₂ _ s₂ ⟨later, rfl, inside⟩
    rw [left.1.stack] at inside
    rw [later.stack]
    refine ⟨rfl, ⟨left.1.trans (later.of_ticked.widen (Nat.le_refl _) (Nat.le_succ t)), ?_, kind⟩,
      inside⟩
    rw [later.temps t (by omega), held_ticked, left.2.1]
  let stored (p : Place) (d' : Datum) (σ' : Store) (s' : State) : Prop :=
    d' = d ∧ LeavesIn W lo (t + 1) (.word k) t σ s d σ' s' ∧ W.storage.content p.decl = .word k
  have whole : (x >>= fun p => Meaning.store p d >>= fun _ => pure d) =
      x >>= fun p => pure d >>= fun d' => Meaning.store p d' >>= fun _ => pure d := by
      simp only [pure_bind]
  rw [whole]
  refine .store (Q := stored) place ?_ ?_
  · rintro p σ₂ s₂ ⟨left, block, content, room⟩
    refine .ok rfl (ends_temp ne s₂) ⟨rfl, ?_, left.1.related, left.1.typed.laid, ?_, rfl,
      left, content⟩
    · rw [left.2.1, left.1.stack]
    · rw [left.1.stack]
      exact ⟨block, by omega⟩
  · rintro p _ σ₂ s₂ m ⟨rfl, ⟨stays, value, kind⟩, content⟩ related
    obtain ⟨w, rfl, word⟩ := kind.word
    exact .source rfl (.finish ⟨rfl, stays.stored content word related, value, kind⟩)

end

/-! ## Sequences -/

/-- Statements do what a part of the source does, before whatever comes next. -/
structure Executes (W : World) (bound : Nat) (Γ : Env) (lo hi : Nat) (x : RunM Unit)
    (ss : List Stmt) : Prop where
  flat : ∀ st ∈ ss, st.flatten = [st]
  runs : ∀ ⦃σ s⦄, Ready W Γ σ s → ∀ {γ : Type} {f : RunM γ} {all rest : List Stmt}
    {last : γ → Store → Nested.Flow → State → Prop},
    (∀ σ' s', Stays W lo hi σ s σ' s' →
      Simulates W bound f (fun n => Nested.execFrom W.setting n all rest) last σ' s') →
    Simulates W bound (x >>= fun _ => f) (fun n => Nested.execFrom W.setting n all (ss ++ rest))
      last σ s

theorem flattenList_eq_self (h : ∀ st ∈ ss, st.flatten = [st]) : Stmt.flattenList ss = ss := by
  induction ss with
  | nil => rfl
  | cons st ss ih =>
    simp [Stmt.flattenList, h st, ih fun st hst => h st (List.mem_cons_of_mem _ hst)]

theorem executes_nil : Executes W bound Γ lo hi (pure ()) [] :=
  ⟨by simp, fun _ _ ready _ _ _ _ _ next => next _ _ ready.refl⟩

theorem Executes.widen {x : RunM Unit} (h : Executes W bound Γ lo hi x ss) (le : lo' ≤ lo)
    (le' : hi ≤ hi') : Executes W bound Γ lo' hi' x ss :=
  ⟨h.flat, fun _ _ ready _ _ _ _ _ next => h.runs ready fun _ _ stays =>
    next _ _ (stays.widen le le')⟩

theorem Executes.append {x y : RunM Unit} {ts : List Stmt} (hx : Executes W bound Γ lo hi x ss)
    (hy : Executes W bound Γ lo hi y ts) :
    Executes W bound Γ lo hi (x >>= fun _ => y) (ss ++ ts) := by
  refine ⟨fun st hst => (List.mem_append.1 hst).elim (hx.flat st) (hy.flat st), ?_⟩
  intro σ s ready γ f all rest last next
  rw [bind_assoc, List.append_assoc]
  refine hx.runs ready fun σ₁ s₁ stays => hy.runs (stays.ready ready) fun σ₂ s₂ later => ?_
  exact next σ₂ s₂ (stays.trans later)

theorem executes_eval {k : Kind} {x : RunM Datum} (h : Means W bound Γ lo hi k x r) :
    Executes W bound Γ lo hi (x >>= fun _ => pure ()) [.eval r] := by
  refine ⟨by simp [Stmt.flatten], fun σ s ready γ f all rest last next => ?_⟩
  rw [bind_assoc]
  exact .eval (h ready.ticked) fun d σ' v s' ⟨stays, _⟩ => next σ' s' stays.of_ticked

theorem executes_store {k : Value.Kind} {x : RunM Place} {e : Expr}
    (place : ∀ ⦃σ s⦄, Ready W Γ σ s → ∃ p, Found W σ.stack x a p ∧ Cell W.storage σ.stack p ∧
      W.storage.content p.decl = .word k) (value : Means W bound Γ lo hi (.word k) z e) :
    Executes W bound Γ lo hi (z >>= fun d => x >>= fun p => Meaning.store p d)
      [.move (.mem a) e] := by
  refine ⟨by simp [Stmt.flatten], fun σ s ready γ f all rest last next => ?_⟩
  obtain ⟨p, found, cell, content⟩ := place ready
  rw [bind_assoc]
  refine found.store cell content ready (value ready.ticked) fun d σ' s' stack stays => ?_
  refine .congr ?_ (next _ s' stays)
  rw [bind_assoc, bind_apply, found.located stack]
  rfl

theorem Executes.simulates {x : RunM Unit} (hx : Executes W bound Γ lo hi x ss)
    (ready : Ready W Γ σ s) :
    Simulates W bound x (fun n => Nested.execFrom W.setting n ss ss)
      (fun _ σ' flow s' => flow = .next ∧ Stays W lo hi σ s σ' s') σ s := by
  have whole : Simulates W bound (x >>= fun _ => pure ())
    (fun n => Nested.execFrom W.setting n ss (ss ++ []))
      (fun _ σ' flow s' => flow = .next ∧ Stays W lo hi σ s σ' s') σ s :=
    hx.runs ready fun σ' s' stays => .finish ⟨rfl, stays⟩
  rw [List.append_nil] at whole
  exact .congr (congrFun (bind_pure x) σ).symm whole

theorem Executes.after {k : Kind} {x : RunM Unit} {y : RunM Datum}
    (hx : Executes W bound Γ lo hi x ss) (hy : Means W bound Γ lo hi k y r) :
    Means W bound Γ lo hi k (x >>= fun _ => y) (.after (.seq ss) r) := by
  intro σ s ready
  refine .after (flattenList_eq_self hx.flat) (hx.simulates ready) fun _ σ' s' stays => ?_
  refine (hy (stays.ready ready)).imp fun d σ'' v s'' ⟨later, value, kind⟩ => ?_
  exact ⟨stays.trans later, stays.stack ▸ value, stays.stack ▸ kind⟩

/-- Items before the last one are evaluated for their effect. -/
theorem Means.block {ι : Type} {f : ι → RunM Datum} {es : List ι} {rs : List Expr}
    (items : List.Forall₂ (fun e r => ∃ k, Means W bound Γ lo hi k (f e) r) es rs) {e : ι}
    {k : Kind} (value : Means W bound Γ lo hi k (f e) r) :
    Means W bound Γ lo hi k ((es ++ [e]).mapM f >>= fun ds => pure (ds.getLastD (.word .zero)))
      (Lowering.block (rs ++ [r])) := by
  have runs : Executes W bound Γ lo hi (es.mapM f >>= fun _ => pure ()) (rs.map .eval) := by
    induction items with
    | nil => exact executes_nil
    | @cons e r es rs first _ ih =>
      obtain ⟨k, first⟩ := first
      have split : ((e :: es).mapM f >>= fun _ => pure ()) =
          (f e >>= fun _ => pure ()) >>= fun _ => es.mapM f >>= fun _ => pure () := by
        simp [List.mapM_cons]
      rw [split]
      exact (executes_eval first).append ih
  have whole : ((es ++ [e]).mapM f >>= fun ds => pure (ds.getLastD (.word .zero))) =
      (es.mapM f >>= fun _ => pure ()) >>= fun _ => f e := by
    simp [List.mapM_append]
  rw [whole, Lowering.block, List.getLast?_concat]
  simpa using runs.after value

end

end PinsBackend.Meaning
