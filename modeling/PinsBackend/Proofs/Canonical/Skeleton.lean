import PinsBackend.Proofs.Canonical.FixedPoint

/-! When code can be split, and what splitting keeps.

The only defect of tree code is a move whose destination is no location; apart from that splitting
fails only if it runs out of temporaries, of which it takes a bounded number. The calls, labels and
jumps of the code come out in the order in which they are evaluated. -/
namespace PinsBackend.Ir

/-- A temporary or a word of memory, after the statements that come before it. -/
def Expr.isLocation : Expr → Bool
  | .temp _ | .mem _ => true
  | .eseq _ e => e.isLocation
  | _ => false

mutual

/-- The destinations of the moves inside an expression. -/
def Expr.destinations : Expr → List Expr
  | .const _ | .data _ | .temp _ => []
  | .mem a => a.destinations
  | .binop _ l r => l.destinations ++ r.destinations
  | .call _ args => Expr.destinationsList args
  | .eseq s e => s.destinations ++ e.destinations
  | .checkIndex i _ => i.destinations

def Expr.destinationsList : List Expr → List Expr
  | [] => []
  | e :: es => e.destinations ++ Expr.destinationsList es

/-- The destinations of all moves in a statement, those inside expressions included. -/
def Stmt.destinations : Stmt → List Expr
  | .move dst src => dst :: dst.destinations ++ src.destinations
  | .eval e => e.destinations
  | .jump _ | .label _ => []
  | .cjump c _ _ => c.destinations
  | .seq ss => Stmt.destinationsList ss

def Stmt.destinationsList : List Stmt → List Expr
  | [] => []
  | s :: ss => s.destinations ++ Stmt.destinationsList ss

end

mutual

/-- The most temporaries that splitting an expression takes: one for each operand that may have to
be saved, and one for each call. -/
def Expr.slots : Expr → Nat
  | .const _ | .data _ | .temp _ => 0
  | .mem a => a.slots + 1
  | .binop _ l r => l.slots + r.slots + 2
  | .call _ args => Expr.slotsList args + args.length + 1
  | .eseq s e => s.slots + e.slots
  | .checkIndex i _ => i.slots + 1

def Expr.slotsList : List Expr → Nat
  | [] => 0
  | e :: es => e.slots + Expr.slotsList es

/-- The most temporaries that splitting a statement takes. -/
def Stmt.slots : Stmt → Nat
  | .move dst src => dst.slots + src.slots + 1
  | .eval e => e.slots
  | .jump _ | .label _ => 0
  | .cjump c _ _ => c.slots
  | .seq ss => Stmt.slotsList ss

def Stmt.slotsList : List Stmt → Nat
  | [] => 0
  | s :: ss => s.slots + Stmt.slotsList ss

end

namespace Canonical

/-! ## How splitting ends -/

/-- Splitting from `n` on takes `cost` temporaries at most. It fails if there are not so many, or
because a move in it is not `good`. -/
structure Ends {α : Type} (x : SplitM α) (n cost : Nat) (good : Prop) : Prop where
  ok : ∀ {a} {n' : Nat}, x n = .ok a n' → good ∧ n' ≤ n + cost
  error : ∀ {e n'}, x n = .error e n' →
    e = .overflow .add ∧ Temp.last < n + cost ∨ (∃ dst, e = .notLocation dst) ∧ ¬ good

variable {α β : Type} {n : Nat} {body : Stmt}

theorem Ends.pure (a : α) (n : Nat) : Ends (pure a) n 0 True :=
  ⟨fun h => by cases h; exact ⟨trivial, Nat.le_refl _⟩, fun h => by cases h⟩

theorem Ends.fresh (n : Nat) : Ends fresh n 1 True := by
  refine ⟨fun h => ?_, fun h => ?_⟩
  · obtain ⟨-, -, rfl⟩ := fresh_eq_ok.1 h
    exact ⟨trivial, Nat.le_refl _⟩
  · unfold Canonical.fresh at h
    split at h
    · cases h
    · next full =>
      cases h
      exact .inl ⟨rfl, Nat.lt_succ_of_le (Nat.not_lt.1 full)⟩

variable {x : SplitM α} {f : α → SplitM β}

theorem Ends.bind {c c' : Nat} {g g' : Prop} (hx : Ends x n c g)
    (hf : ∀ {a n'}, x n = .ok a n' → Ends (f a) n' c' g') : Ends (x >>= f) n (c + c') (g ∧ g') := by
  refine ⟨fun h => ?_, fun h => ?_⟩
  · obtain ⟨a, m, ha, h⟩ := bind_eq_ok.1 h
    obtain ⟨hg, le⟩ := hx.ok ha
    obtain ⟨hg', le'⟩ := (hf ha).ok h
    exact ⟨⟨hg, hg'⟩, by omega⟩
  · rcases bind_eq_error.1 h with h | ⟨a, m, ha, h⟩
    · rcases hx.error h with ⟨rfl, full⟩ | ⟨bad, hg⟩
      · exact .inl ⟨rfl, Nat.lt_of_lt_of_le full (by omega)⟩
      · exact .inr ⟨bad, fun h => hg h.1⟩
    · have le := (hx.ok ha).2
      rcases (hf ha).error h with ⟨rfl, full⟩ | ⟨bad, hg'⟩
      · exact .inl ⟨rfl, Nat.lt_of_lt_of_le full (by omega)⟩
      · exact .inr ⟨bad, fun h => hg' h.2⟩

/-- A step after which nothing can fail any more. -/
theorem Ends.map {c : Nat} {g : Prop} (hx : Ends x n c g) (hf : ∀ a n', Ends (f a) n' 0 True) :
    Ends (x >>= f) n c g := by
  simpa using hx.bind fun _ => hf _ _

theorem Ends.congr {c c' : Nat} {g g' : Prop} (h : Ends x n c g) (le : c ≤ c') (iff : g ↔ g') :
    Ends x n c' g' := by
  refine ⟨fun hx => ?_, fun hx => ?_⟩
  · obtain ⟨hg, hn⟩ := h.ok hx
    exact ⟨iff.1 hg, by omega⟩
  · rcases h.error hx with ⟨rfl, full⟩ | ⟨bad, hg⟩
    · exact .inl ⟨rfl, Nat.lt_of_lt_of_le full (by omega)⟩
    · exact .inr ⟨bad, fun h => hg (iff.2 h)⟩

theorem keep_ends (part : Stmt × Expr) (after : Stmt) (n : Nat) :
    Ends (keep part after) n 1 True := by
  unfold keep
  split
  · exact (Ends.pure _ n).congr (Nat.zero_le _) Iff.rfl
  · exact (Ends.fresh n).map fun _ _ => .pure _ _

theorem keepAll_ends (parts : List (Stmt × Expr)) (n : Nat) :
    Ends (keepAll parts) n parts.length True := by
  induction parts with
  | nil => exact .pure _ n
  | cons part parts ih =>
    refine (ih.bind fun _ => (keep_ends part _ _).map fun _ _ => .pure _ _).congr ?_ (by simp)
    simp

theorem keepBoth_ends (left right : Stmt × Expr) (n : Nat) : Ends (keepBoth left right) n 2 True :=
  ((keep_ends right _ n).bind fun _ => (keep_ends left _ _).map fun _ _ => .pure _ _).congr
    (Nat.le_refl 2) (by simp)

theorem length_exprs (es : List Expr) : ∀ {n parts n'}, exprs es n = .ok parts n' →
    parts.length = es.length := by
  induction es with
  | nil =>
    intro n parts n' h
    cases h
    rfl
  | cons e es ih =>
    intro n parts n' h
    simp only [exprs, bind_eq_ok, pure_eq_ok] at h
    obtain ⟨_, _, -, rest, _, hes, rfl, rfl⟩ := h
    rw [List.length_cons, ih hes, List.length_cons]

/-- All destinations are locations. -/
def Located (dsts : List Expr) : Prop := ∀ dst ∈ dsts, dst.isLocation = true

@[simp] theorem located_nil : Located [] := by simp [Located]

@[simp] theorem located_cons {dst : Expr} {dsts : List Expr} :
    Located (dst :: dsts) ↔ dst.isLocation = true ∧ Located dsts := List.forall_mem_cons

@[simp] theorem located_append {dsts dsts' : List Expr} :
    Located (dsts ++ dsts') ↔ Located dsts ∧ Located dsts' := List.forall_mem_append

mutual

theorem expr_ends : (e : Expr) → ∀ whole n, Ends (expr whole e) n e.slots (Located e.destinations)
  | .const _, _, n | .data _, _, n | .temp _, _, n =>
    (Ends.pure _ n).congr (Nat.le_refl _) (by simp [Expr.destinations])
  | .mem a, _, n | .checkIndex a _, _, n =>
    ((expr_ends a false n).bind fun _ => (keep_ends _ _ _).map fun _ _ => .pure _ _).congr
      (Nat.le_refl _) (by simp [Expr.destinations])
  | .binop _ l r, _, n =>
    ((expr_ends l false n).bind fun _ => (expr_ends r false _).bind fun _ =>
      (keepBoth_ends _ _ _).map fun _ _ => .pure _ _).congr (by rw [Expr.slots]; omega)
      (by simp [Expr.destinations])
  | .call label args, whole, n => by
    have operands {parts : List (Stmt × Expr)} {m : Nat} (h : exprs args n = .ok parts m) :
        Ends (keepAll parts) m args.length True :=
      (keepAll_ends parts m).congr (Nat.le_of_eq (length_exprs args h)) Iff.rfl
    cases whole with
    | true =>
      exact ((exprs_ends args n).bind fun h => (operands h).map fun _ _ => .pure _ _).congr
        (Nat.le_succ _) (by simp [Expr.destinations])
    | false =>
      exact ((exprs_ends args n).bind fun h => (operands h).bind fun _ =>
        (Ends.fresh _).map fun _ _ => .pure _ _).congr (Nat.le_refl _) (by simp [Expr.destinations])
  | .eseq st e, whole, n =>
    ((stmt_ends st n).bind fun _ => (expr_ends e whole _).map fun _ _ => .pure _ _).congr
      (Nat.le_refl _) located_append.symm

theorem exprs_ends : (es : List Expr) → ∀ n,
    Ends (exprs es) n (Expr.slotsList es) (Located (Expr.destinationsList es))
  | [], n => (Ends.pure _ n).congr (Nat.le_refl _) (by simp [Expr.destinationsList])
  | e :: es, n =>
    ((expr_ends e false n).bind fun _ => (exprs_ends es _).map fun _ _ => .pure _ _).congr
      (Nat.le_refl _) located_append.symm

theorem stmt_ends : (s : Stmt) → ∀ n, Ends (stmt s) n s.slots (Located s.destinations)
  | .seq ss, n => (stmts_ends ss n).map fun _ _ => .pure _ _
  | .jump _, n | .label _, n => (Ends.pure _ n).congr (Nat.le_refl _) (by simp [Stmt.destinations])
  | .cjump c _ _, n => (expr_ends c false n).map fun _ _ => .pure _ _
  | .eval e, n => (expr_ends e true n).map fun _ _ => .pure _ _
  | .move dst src, n =>
    (move_ends dst (fun m => expr_ends src true m) (fun m => expr_ends src false m) n).congr
      (Nat.le_refl _) (by simp [Stmt.destinations])

theorem stmts_ends : (ss : List Stmt) → ∀ n,
    Ends (stmts ss) n (Stmt.slotsList ss) (Located (Stmt.destinationsList ss))
  | [], n => (Ends.pure _ n).congr (Nat.le_refl _) (by simp [Stmt.destinationsList])
  | s :: ss, n =>
    ((stmt_ends s n).bind fun _ => (stmts_ends ss _).map fun _ _ => .pure _ _).congr
      (Nat.le_refl _) located_append.symm

theorem move_ends : (dst : Expr) → ∀ {call value c g}, (∀ m, Ends call m c g) →
    (∀ m, Ends value m c g) → ∀ n, Ends (move call value dst) n (dst.slots + c + 1)
      (dst.isLocation = true ∧ Located dst.destinations ∧ g)
  | .temp t, _, _, c, g, hc, _, n =>
    ((hc n).map fun _ _ => .pure _ _).congr (by omega)
      (by simp [Expr.isLocation, Expr.destinations])
  | .mem a, _, _, c, g, _, hv, n =>
    ((expr_ends a false n).bind fun _ => (hv _).bind fun _ =>
      (keepBoth_ends _ _ _).map fun _ _ => .pure _ _).congr (by rw [Expr.slots]; omega)
      (by simp [Expr.isLocation, Expr.destinations])
  | .eseq st e, _, _, c, g, hc, hv, n =>
    ((stmt_ends st n).bind fun _ => (move_ends e hc hv _).map fun _ _ => .pure _ _).congr
      (by rw [Expr.slots]; omega)
      (by simp [Expr.isLocation, Expr.destinations, and_left_comm, and_assoc])
  | .const _, _, _, _, _, _, _, _ | .data _, _, _, _, _, _, _, _ | .binop _ _ _, _, _, _, _, _, _, _
  | .call _ _, _, _, _, _, _, _, _ | .checkIndex _ _, _, _, _, _, _, _, _ =>
    ⟨fun h => (nomatch h), fun h => .inr ⟨⟨_, by cases h; rfl⟩, fun h => (nomatch h.1)⟩⟩

end

theorem firstFree_le {m : Nat} (h : firstFree body = .ok m) (two : Temp.firstFree ≤ n)
    (below : body.effects.Below n) : m ≤ n := by
  unfold firstFree Stmt.maxTemp? at h
  split at h
  · cases h
    exact two
  · next t greatest =>
    have mem := (List.max?_eq_some_iff.1 greatest).1
    have lt : t < n := (List.mem_append.1 mem).elim (below.1 t) (below.2 t)
    split at h
    · cases h
      exact Nat.max_le.2 ⟨lt, two⟩
    · cases h

theorem linearize_ok {ss : List Stmt} (h : linearize body = .ok ss) :
    Located body.destinations ∧ Stmt.eventsList ss = body.events := by
  simp only [linearize, except_bind_eq_ok] at h
  obtain ⟨n, hn, h⟩ := h
  split at h
  · next s n' split =>
    cases h
    refine ⟨((stmt_ends body n).ok split).1, ?_⟩
    rw [Stmt.eventsList_eq]
    exact (Stmt.events_code s).trans (stmt_splits body split (firstFree_below hn).2).events
  · cases h

/-- Splitting fails with an overflow, or because of a destination. -/
theorem linearize_error {e : IrError} (h : linearize body = .error e) :
    (∃ o, e = .overflow o) ∨ ¬ Located body.destinations := by
  simp only [linearize, except_bind_eq_error] at h
  rcases h with h | ⟨n, -, h⟩
  · unfold firstFree at h
    split at h
    · cases h
    · split at h
      · cases h
      · cases h
        exact .inl ⟨_, rfl⟩
  · split at h
    · cases h
    · next split =>
      cases h
      rcases (stmt_ends body n).error split with ⟨rfl, -⟩ | ⟨-, bad⟩
      · exact .inl ⟨_, rfl⟩
      · exact .inr bad

/-- There is no overflow if the temporaries that splitting may take are there. -/
theorem linearize_no_overflow (two : Temp.firstFree ≤ n) (below : body.effects.Below n)
    (room : n + body.slots ≤ Temp.last) (o : Overflow) : linearize body ≠ .error (.overflow o) := by
  intro h
  obtain ⟨m, hm⟩ := firstFree_of_below (below.mono (Nat.le_trans (Nat.le_add_right _ _) room))
  have le := firstFree_le hm two below
  simp only [linearize, hm, bind, Except.bind] at h
  split at h
  · cases h
  · next split =>
    cases h
    rcases (stmt_ends body m).error split with ⟨-, full⟩ | ⟨⟨_, bad⟩, -⟩
    · exact absurd (Nat.lt_of_lt_of_le full (Nat.add_le_add_right le _)) (Nat.not_lt.2 room)
    · cases bad

end Canonical

theorem Chunk.canonical_eq_error {c : Chunk Stmt} {e : IrError} :
    c.canonical = .error e ↔ Canonical.linearize c.body = .error e := by
  simp only [Chunk.canonical, except_bind_eq_error, pure, Except.pure, reduceCtorEq, and_false,
    exists_false, or_false]

/-- **The skeleton of code survives splitting.** Unless temporaries run out, a chunk can be split
exactly if every move in it, however deep, goes to a location; they do not run out while there are
as many as the chunk has operands and calls. The linear chunk has the same frame, is canonical, and
passes the same calls, labels, jumps and branches in the order in which the tree code evaluates
them. -/
theorem canonical_skeleton (c : Chunk Stmt) :
    ((∀ o, c.canonical ≠ .error (.overflow o)) →
      ((∃ l, c.canonical = .ok l) ↔ ∀ dst ∈ c.body.destinations, dst.isLocation = true)) ∧
    (∀ n, Temp.firstFree ≤ n → c.body.effects.Below n → n + c.body.slots ≤ Temp.last →
      ∀ o, c.canonical ≠ .error (.overflow o)) ∧
    ∀ l, c.canonical = .ok l →
      l.frame = c.frame ∧ l.isCanonical = true ∧ Stmt.eventsList l.body = c.body.events := by
  refine ⟨fun noOverflow => ⟨?_, fun located => ?_⟩, fun n two below room o => ?_, fun l h => ?_⟩
  · rintro ⟨l, h⟩
    exact (Canonical.linearize_ok (Chunk.canonical_eq_ok.1 h).2).1
  · cases h : c.canonical with
    | ok l => exact ⟨l, rfl⟩
    | error e =>
      rcases Canonical.linearize_error (Chunk.canonical_eq_error.1 h) with ⟨o, rfl⟩ | bad
      · exact absurd h (noOverflow o)
      · exact absurd located bad
  · rw [ne_eq, Chunk.canonical_eq_error]
    exact Canonical.linearize_no_overflow two below room o
  · obtain ⟨frame, body⟩ := Chunk.canonical_eq_ok.1 h
    refine ⟨frame, List.all_eq_true.2 fun s hs => ?_, (Canonical.linearize_ok body).2⟩
    exact (Canonical.linearize_canonical body s hs).1

/-- A store through an address with a loop in it, of a call whose argument is a call. -/
def storeInLoop : Chunk Stmt where
  frame := { label := "f", depth := 1, parameterCount := 0, parametersSize := 8 }
  body := .move
    (.eseq (.seq [.label "again", .cjump (.call "odd" [.temp 2]) "again" "done", .label "done"])
      (.mem (.binop .add (.temp Temp.fp) (.temp 2))))
    (.eseq (.jump "last") (.eseq (.label "last") (.call "g" [.call "h" []])))

theorem canonical_skeleton_storeInLoop :
    Temp.firstFree ≤ 3 ∧ storeInLoop.body.effects.Below 3 ∧ 3 + storeInLoop.body.slots ≤ Temp.last ∧
    (∀ dst ∈ storeInLoop.body.destinations, dst.isLocation = true) ∧
    ∃ l, storeInLoop.canonical = .ok l ∧ l.isCanonical = true ∧ Stmt.eventsList l.body =
      [.label "again", .call "odd", .branch "again" "done", .label "done", .jump "last",
        .label "last",
        .call "h", .call "g"] := by
  obtain ⟨exact, room, kept⟩ := canonical_skeleton storeInLoop
  have two : Temp.firstFree ≤ 3 := by decide
  have below : storeInLoop.body.effects.Below 3 := ⟨by decide, by decide⟩
  have slots : 3 + storeInLoop.body.slots ≤ Temp.last := by decide
  have located : ∀ dst ∈ storeInLoop.body.destinations, dst.isLocation = true := by decide
  obtain ⟨l, split⟩ := (exact (room 3 two below slots)).2 located
  obtain ⟨-, canonical, events⟩ := kept l split
  exact ⟨two, below, slots, located, l, split, canonical, events⟩

end PinsBackend.Ir
