import PinsBackend.Proofs.Ir.Events
import PinsBackend.Proofs.Kinds.Program
import Std.Data.String.ToNat

/-! The labels and the chunks of lowered code.

Every construct takes its labels from one counter, so code has distinct labels, those that were
given out while it was made. Every function that stands in a piece of a program gets a chunk. -/
namespace PinsBackend.Kinds

open Syntax Ir Layout
open Lowering hiding expr exprs decl decls literal block isParameter

variable {params : List Decl} {piece : Piece}

variable {source : Source} {ctx : Lowering.Context} {t : Tables} {sort : NodeId → NodeSort}
  {Γ : Env}
  {depth : Nat} {site : Site}

/-- A variable of a block of the innermost function, or of the top level. -/
def IsOwn (source : Source) (Γ : Env) (d : Decl) : Prop :=
  d.id ∈ Env.locals Γ ∨ d.id ∈ source.globals

/-- A piece of a program in its environment. -/
def Stands (source : Source) (F : Facts) (Γ : Env) (depth : Nat) : Piece → Prop
  | .expr e | .location e => depth = Γ.length ∧ e.Everywhere F Γ
  | .exprs es | .arguments es => depth = Γ.length ∧ Expr.EverywhereList F Γ es
  | .decl d => d.Everywhere F Γ ∧ (d.isVar = true → depth = Γ.length ∧ IsOwn source Γ d)
  | .decls ds => Decl.EverywhereList F Γ ds ∧
    ∀ d ∈ ds, d.isVar = true → depth = Γ.length ∧ IsOwn source Γ d

/-- The declarations of a block stand where the block does. -/
theorem stands_decls {ds : List Decl} {b : Syntax.Expr}
    (h : Stands source (found source ctx t sort) Γ depth (.expr (.scoped site ds b))) :
    Stands source (found source ctx t sort) Γ depth (.decls ds) := by
  refine ⟨h.2.2.1, fun d hd isVar => ⟨h.1, .inl ?_⟩⟩
  have own : (Syntax.Expr.scoped site ds b).locals ⊆ Env.locals Γ := h.2.1.2.2.2.2.2.2
  apply own
  simp only [Expr.locals, List.mem_append, List.mem_map, List.mem_filter]
  exact .inl (.inl ⟨d, ⟨hd, isVar⟩, rfl⟩)

/-- The body of a function stands in the level of the function. -/
theorem Analysed.stands_body (h : Analysed source ctx t sort) {f : String} {result : TypeExpr}
    {body : Syntax.Expr}
    (facts : (Decl.function site f params result body).Everywhere (found source ctx t sort) Γ)
    {frame : Frame} (laid : ctx.layout.frames.get? site.id = some frame) :
    Stands source (found source ctx t sort) (Decl.level site params body :: Γ) frame.depth
      (.expr body) := by
  obtain ⟨frame', laid', of⟩ := facts.1.2.2.2.2.1
  rw [h.describes.frame, laid] at laid'
  cases laid'
  exact ⟨of.deep, facts.2.2⟩

/-! ## Labels -/

/-- Labels with distinct numbers above one bound and up to another. -/
structure Numbered (lo hi : Nat) (labels : List String) : Prop where
  le : lo ≤ hi
  nodup : labels.Nodup
  number : ∀ l ∈ labels, ∃ n, lo < n ∧ n ≤ hi ∧ l = labelName n

theorem labelName_injective {n m : Nat} (h : labelName n = labelName m) : n = m := by
  exact Nat.repr_inj.1 (by simpa [labelName] using h)

namespace Numbered

variable {lo mid hi : Nat} {ls ms : List String}

theorem nil (n : Nat) : Numbered n n [] := ⟨Nat.le_refl n, List.nodup_nil, by simp⟩

theorem append (h : Numbered lo mid ls) (h' : Numbered mid hi ms) : Numbered lo hi (ls ++ ms) := by
  refine ⟨h.le.trans h'.le, List.nodup_append.2 ⟨h.nodup, h'.nodup, ?_⟩, ?_⟩
  · rintro a ha b hb rfl
    obtain ⟨n, -, below, rfl⟩ := h.number _ ha
    obtain ⟨m, above, -, same⟩ := h'.number _ hb
    have := labelName_injective same
    omega
  · intro l hl
    rcases List.mem_append.1 hl with hl | hl
    · obtain ⟨n, above, below, rfl⟩ := h.number l hl
      exact ⟨n, above, below.trans h'.le, rfl⟩
    · obtain ⟨n, above, below, rfl⟩ := h'.number l hl
      exact ⟨n, Nat.lt_of_le_of_lt h.le above, below, rfl⟩

theorem perm (h : Numbered lo hi ls) (p : ls.Perm ms) : Numbered lo hi ms :=
  ⟨h.le, p.nodup_iff.1 h.nodup, fun l hl => h.number l (p.mem_iff.2 hl)⟩

theorem next (n k : Nat) :
    Numbered n (n + k) ((List.range k).map fun i => labelName (n + 1 + i)) := by
  refine ⟨by omega, ?_, ?_⟩
  · refine List.Nodup.map_on ?_ List.nodup_range
    intro i _ j _ same
    have := labelName_injective same
    omega
  · intro l hl
    obtain ⟨i, hi, rfl⟩ := List.mem_map.1 hl
    have := List.mem_range.1 hi
    exact ⟨n + 1 + i, by omega, by omega, rfl⟩

theorem one (n : Nat) : Numbered n (n + 1) [labelName (n + 1)] := next n 1

theorem two (n : Nat) : Numbered n (n + 2) [labelName (n + 1), labelName (n + 2)] := next n 2

theorem three (n : Nat) :
    Numbered n (n + 3) [labelName (n + 1), labelName (n + 2), labelName (n + 3)] := next n 3

end Numbered

/-- Between two states chunks are added, and the labels that are given out are these and those of
the new chunks. -/
def Issues (s s' : State) (labels : List String) : Prop :=
  ∃ new : List (Chunk Stmt), s'.chunks.toList = s.chunks.toList ++ new ∧
    Numbered s.labels s'.labels (labels ++ new.flatMap fun c => c.body.labels)

namespace Issues

variable {s s₁ s' : State} {ls ms : List String}

theorem taken {temps k : Nat} (numbered : Numbered s.labels (s.labels + k) ls) :
    Issues s (s.take temps k) ls :=
  ⟨[], (List.append_nil _).symm, by simpa [State.take] using numbered⟩

theorem nil (s : State) : Issues s s [] := ⟨[], (List.append_nil _).symm, .nil _⟩

theorem append (h : Issues s s₁ ls) (h' : Issues s₁ s' ms) : Issues s s' (ls ++ ms) := by
  obtain ⟨new, chunks, numbered⟩ := h
  obtain ⟨new', chunks', numbered'⟩ := h'
  refine ⟨new ++ new', by rw [chunks', chunks, List.append_assoc], ?_⟩
  apply (numbered.append numbered').perm
  apply List.perm_iff_count.2
  intro x
  simp only [List.flatMap_append, List.count_append]
  omega

theorem perm (h : Issues s s' ls) (p : ls.Perm ms) : Issues s s' ms := by
  obtain ⟨new, chunks, numbered⟩ := h
  exact ⟨new, chunks, numbered.perm (p.append_right _)⟩

/-- The labels of a new chunk are counted among those of the chunks. -/
theorem push (h : Issues s s₁ ls) {c : Chunk Stmt} (body : c.body.labels = ls)
    (chunks : s'.chunks = s₁.chunks.push c) (count : s'.labels = s₁.labels) : Issues s s' [] := by
  obtain ⟨new, chunks', numbered⟩ := h
  refine ⟨new ++ [c], by rw [chunks, Array.toList_push, chunks', List.append_assoc], ?_⟩
  rw [count]
  apply numbered.perm
  apply List.perm_iff_count.2
  intro x
  simp only [List.flatMap_append, List.flatMap_cons, List.flatMap_nil, body, List.count_append,
    List.nil_append, List.append_nil]
  omega

theorem numbered (h : Issues s s' ls) : Numbered s.labels s'.labels ls := by
  obtain ⟨new, -, le, nodup, number⟩ := h
  exact ⟨le, nodup.of_append_left, fun l hl => number l (List.mem_append_left _ hl)⟩

end Issues

theorem labels_after (ss : List Stmt) (e : Ir.Expr) :
    (Expr.after (.seq ss) e).labels = (Stmt.seq ss).labels ++ e.labels := by
  unfold Expr.after
  split
  · next nop => simp [Stmt.labels, Stmt.events_of_isNop nop]
  · exact Expr.labels_eseq _ _

theorem labels_frameAt (hops : Nat) : (frameAt hops).labels = [] := by
  induction hops with
  | zero => rfl
  | succ hops ih => exact ih

theorem labels_addressExpr (access : Access) : (addressExpr access).labels = [] := by
  cases access with
  | here offset => rfl
  | outer hops offset => simp [addressExpr, labels_frameAt]
  | global label => rfl

theorem labels_link {id : NodeId} {label : String} {link : Ir.Expr}
    (h : Callee ctx depth id label link) :
    link.labels = [] := by
  cases h with
  | builtin | top => rfl
  | nested => exact labels_frameAt _

/-- The labels of code. -/
def codeLabels : Code → List String
  | .value e => e.labels
  | .values es => es.flatMap Expr.labels
  | .moves ss temps => (Stmt.seq ss).labels ++ temps.flatMap Expr.labels
  | .stmts ss => (Stmt.seq ss).labels

theorem labels_call (label : String) (link : Ir.Expr) (args : List Ir.Expr) :
    (Expr.call label (link :: args)).labels = link.labels ++ args.flatMap Expr.labels := by
  have rest : (Expr.eventsList args).filterMap Event.label? = args.flatMap Expr.labels := by
    rw [Expr.eventsList_eq, List.filterMap_flatMap]
    rfl
  simp [Expr.labels, Expr.events, Expr.eventsList, Event.label?, rest]

theorem labels_evals (es : List Ir.Expr) :
    (Stmt.seq (es.map .eval)).labels = es.flatMap Expr.labels := by
  induction es with
  | nil => rfl
  | cons e es ih =>
    rw [List.map_cons, Stmt.labels_seq_cons, ih]
    rfl

theorem labels_block (items : List Ir.Expr) :
    (Lowering.block items).labels = items.flatMap Expr.labels := by
  unfold Lowering.block
  cases hlast : items.getLast? with
  | none =>
    obtain rfl := List.getLast?_eq_none_iff.1 hlast
    rfl
  | some last =>
    dsimp only
    rw [labels_after, labels_evals]
    obtain ⟨front, rfl⟩ := List.getLast?_eq_some_iff.1 hlast
    simp

/-- The counter of a loop is a name. -/
theorem Analysed.counter_name (h : Analysed source ctx t sort) {c lo hi st b : Syntax.Expr}
    (facts : (Syntax.Expr.forDo site c lo hi st b).Everywhere (found source ctx t sort) Γ)
    {s s' : State} {r : Ir.Expr} (place : Lowers ctx depth (.location c) s (.value r) s') :
    ∃ site' x access, c = .name site' x ∧ ctx.layout.accesses.get? site'.id = some access ∧
      r = .mem (addressExpr access) ∧ s' = s := by
  obtain ⟨-, -, -, ⟨-, -, -, ⟨d, bound⟩, -⟩, -⟩ := facts.1
  have sorted : sort c.id = c.sort := facts.2.1.here.2.1
  have reference := h.references bound
  cases place with
  | nameLocation reached => exact ⟨_, _, _, rfl, reached, rfl, rfl⟩
  | elementLocation => simp [sorted, Expr.sort] at reference

/-- The labels of lowered code and of the chunks made on the way are those that were given out, each
at one place. -/
theorem Analysed.labels_of_lowers (h : Analysed source ctx t sort) {s s' : State} {code : Code}
    (lowers : Lowers ctx depth piece s code s')
    (stands : Stands source (found source ctx t sort) Γ depth piece) :
    Issues s s' (codeLabels code) := by
  induction lowers generalizing Γ with
  | literal | nil | noArguments | silent | noDecls => exact .nil _
  | name reached typed =>
    simp only [codeLabels]
    split
    · rw [labels_addressExpr]
      exact .nil _
    · exact (labels_addressExpr _).symm ▸ .nil _
  | @unary _ _ op _ _ _ r _ ih =>
    have operand := ih ⟨stands.1, stands.2.2⟩
    cases op <;> simpa [codeLabels, Lowering.unary] using operand
  | direct _ _ _ ihl ihr =>
    have left := ihl ⟨stands.1, stands.2.2.1⟩
    have right := ihr ⟨stands.1, stands.2.2.2⟩
    simpa [codeLabels] using left.append right
  | @shortCircuit conjunction _ _ _ _ _ _ _ s₂ a b _ _ _ ihl ihr =>
    have left := ihl ⟨stands.1, stands.2.2.1⟩
    have right := ihr ⟨stands.1, stands.2.2.2⟩
    apply ((left.append right).append (.taken (.two s₂.labels))).perm
    apply List.perm_iff_count.2
    intro x
    cases conjunction <;>
      simp [codeLabels, Lowering.shortCircuit, labels_after, List.count_cons] <;> omega
  | @index _ _ _ _ _ _ _ a b length size type _ _ _ ihl ihr =>
    have base := ihl ⟨stands.1, stands.2.2.1⟩
    have index := ihr ⟨stands.1, stands.2.2.2⟩
    cases array : type.isArray <;>
      simpa [codeLabels, array, Lowering.elementExpr] using base.append index
  | call callee _ ih =>
    have arguments := ih ⟨stands.1, stands.2.2⟩
    simpa [codeLabels, labels_after, labels_call, labels_link callee] using arguments
  | block _ ih =>
    have items := ih ⟨stands.1, stands.2.2⟩
    simpa [codeLabels, labels_block] using items
  | @ifThen _ _ _ _ _ _ s₂ a b _ _ ihc iht =>
    have condition := ihc ⟨stands.1, stands.2.2.1⟩
    have branch := iht ⟨stands.1, stands.2.2.2⟩
    apply ((condition.append branch).append (.taken (.two s₂.labels))).perm
    apply List.perm_iff_count.2
    intro x
    simp [codeLabels, Lowering.ifThen, labels_after, List.count_cons]
    omega
  | @ifElse _ _ _ _ _ _ _ s₂ s₃ a b d _ _ _ ihc iht ihe =>
    have condition := ihc ⟨stands.1, stands.2.2.1⟩
    have onTrue := iht ⟨stands.1, stands.2.2.2.1⟩
    have onFalse := ihe ⟨stands.1, stands.2.2.2.2⟩
    apply ((((condition.append onTrue).append (.taken (.two s₂.labels))).append onFalse).append
      (.taken (.one s₃.labels))).perm
    apply List.perm_iff_count.2
    intro x
    simp [codeLabels, Lowering.ifElse, labels_after, List.count_cons]
    omega
  | @whileDo _ _ _ _ s _ _ a d _ _ ihc ihb =>
    have condition := ihc ⟨stands.1, stands.2.2.1⟩
    have body := ihb ⟨stands.1, stands.2.2.2⟩
    have own : Issues s (s.take 0 3) _ := .taken (.three s.labels)
    apply (own.append (condition.append body)).perm
    apply List.perm_iff_count.2
    intro x
    simp [codeLabels, Lowering.whileDo, labels_after, List.count_cons]
    omega
  | @forDo _ _ _ _ _ _ _ _ _ _ _ _ s₅ counter low high step body place _ _ _ _ _ ihlo
      ihhi ihst ihb =>
    -- the code of the counter stands at three places, but it has no labels
    obtain ⟨-, -, access, -, -, rfl, rfl⟩ := h.counter_name stands.2 place
    have none : (Expr.mem (addressExpr access)).labels = [] := labels_addressExpr access
    have low := ihlo ⟨stands.1, stands.2.2.2.1⟩
    have high := ihhi ⟨stands.1, stands.2.2.2.2.1⟩
    have step := ihst ⟨stands.1, stands.2.2.2.2.2.1⟩
    have body := ihb ⟨stands.1, stands.2.2.2.2.2.2⟩
    apply ((((low.append high).append step).append body).append (.taken (.three s₅.labels))).perm
    apply List.perm_iff_count.2
    intro x
    simp [codeLabels, Lowering.forDo, labels_after, List.count_cons, none]
    omega
  | scope _ _ ihd ihb =>
    have decls := ihd (stands_decls stands)
    have body := ihb ⟨stands.1, stands.2.2.2⟩
    simpa [codeLabels, labels_after] using decls.append body
  | @assign _ _ _ _ _ _ s₂ _ _ _ _ ihv iht =>
    have value := ihv ⟨stands.1, stands.2.2.2⟩
    have target := iht ⟨stands.1, stands.2.2.1⟩
    have temp : Issues s₂ (s₂.take 1 0) [] := .taken (.nil _)
    simpa [codeLabels, labels_after] using (value.append target).append temp
  | cons _ _ ihe ihes =>
    have first := ihe ⟨stands.1, stands.2.1⟩
    have rest := ihes ⟨stands.1, stands.2.2⟩
    simpa [codeLabels] using first.append rest
  | @argument _ _ _ _ s₁ _ _ _ _ _ _ ihe ihes =>
    have first := ihe ⟨stands.1, stands.2.1⟩
    have rest := ihes ⟨stands.1, stands.2.2⟩
    have temp : Issues s₁ (s₁.take 1 0) [] := .taken (.nil _)
    simpa [codeLabels] using first.append (temp.append rest)
  | nameLocation => simpa [codeLabels, labels_addressExpr] using .nil _
  | elementLocation _ _ _ ihl ihr =>
    have base := ihl ⟨stands.1, stands.2.2.1⟩
    have index := ihr ⟨stands.1, stands.2.2.2⟩
    simpa [codeLabels, Lowering.elementExpr] using base.append index
  | initialized _ _ ih =>
    have value := ih ⟨(stands.2 rfl).1, stands.1.2⟩
    simpa [codeLabels, labels_addressExpr] using value
  | function laid _ _ ih =>
    have value := ih (h.stands_body stands.1 laid)
    exact value.push (by simp [codeLabels]) rfl rfl
  | decls _ _ ihd ihds =>
    have first := ihd ⟨stands.1.1, stands.2 _ (by simp)⟩
    have rest := ihds ⟨stands.1.2, fun d hd => stands.2 d (by simp [hd])⟩
    simpa [codeLabels, Stmt.labels_seq_append] using first.append rest

/-! ## Chunks -/

/-- The declarations in a piece, with their environments. -/
def declarationsOf (Γ : Env) : Piece → List (Env × Decl)
  | .expr e | .location e => e.declarations Γ
  | .exprs es | .arguments es => Expr.declarationsList Γ es
  | .decl d => d.declarations Γ
  | .decls ds => Decl.declarationsList Γ ds

/-- A chunk has the frame of this function. -/
def HasChunk (ctx : Lowering.Context) (chunks : Array (Chunk Stmt)) (id : NodeId) : Prop :=
  ∃ c ∈ chunks, ctx.layout.frames.get? id = some c.frame

/-- The chunks there are stay, and these functions have theirs. -/
structure AddsChunks (ctx : Lowering.Context) (ds : List (Env × Decl))
    (chunks chunks' : Array (Chunk Stmt)) : Prop where
  keeps : ∀ c ∈ chunks, c ∈ chunks'
  functions : ∀ x ∈ ds, x.2.isFunction = true → HasChunk ctx chunks' x.2.id

theorem AddsChunks.none (chunks : Array (Chunk Stmt)) : AddsChunks ctx [] chunks chunks :=
  ⟨fun _ => id, by simp⟩

/-- One part after the other. -/
theorem AddsChunks.append {ds es : List (Env × Decl)} {cs cs₁ cs' : Array (Chunk Stmt)}
    (h : AddsChunks ctx ds cs cs₁) (h' : AddsChunks ctx es cs₁ cs') :
    AddsChunks ctx (ds ++ es) cs cs' := by
  refine ⟨fun c hc => h'.keeps c (h.keeps c hc), fun x hx isFunction => ?_⟩
  rcases List.mem_append.1 hx with hx | hx
  · obtain ⟨c, hc, laid⟩ := h.functions x hx isFunction
    exact ⟨c, h'.keeps c hc, laid⟩
  · exact h'.functions x hx isFunction

/-- A declaration that is no function needs no chunk. -/
theorem AddsChunks.skip {ds : List (Env × Decl)} {cs cs' : Array (Chunk Stmt)}
    (h : AddsChunks ctx ds cs cs') {x : Env × Decl} (hx : x.2.isFunction = false) :
    AddsChunks ctx (x :: ds) cs cs' := by
  refine ⟨h.keeps, fun y hy isFunction => ?_⟩
  rcases List.mem_cons.1 hy with rfl | hy
  · rw [hx] at isFunction
    cases isFunction
  · exact h.functions y hy isFunction

theorem declarationsList_params (h : ∀ p ∈ params, p.isParam = true) :
    ∀ x ∈ Decl.declarationsList Γ params, x.2.isFunction = false := by
  intro x hx
  rw [Decl.declarationsList_eq] at hx
  obtain ⟨p, hp, hx⟩ := List.mem_flatMap.1 hx
  cases p with
  | param => exact List.mem_singleton.1 hx ▸ rfl
  | _ => cases h _ hp

theorem Analysed.adds_chunks (h : Analysed source ctx t sort) {s s' : State} {code : Code}
    (lowers : Lowers ctx depth piece s code s')
    (stands : Stands source (found source ctx t sort) Γ depth piece) :
    AddsChunks ctx (declarationsOf Γ piece) s.chunks s'.chunks := by
  induction lowers generalizing Γ with
  | literal | name | nil | noArguments | nameLocation | noDecls => exact .none _
  | unary _ ih => exact ih ⟨stands.1, stands.2.2⟩
  | direct _ _ _ ihl ihr | index _ _ _ ihl ihr | elementLocation _ _ _ ihl ihr =>
    exact (ihl ⟨stands.1, stands.2.2.1⟩).append (ihr ⟨stands.1, stands.2.2.2⟩)
  | shortCircuit _ _ _ _ ihl ihr | ifThen _ _ ihl ihr | whileDo _ _ ihl ihr =>
    exact (ihl ⟨stands.1, stands.2.2.1⟩).append (ihr ⟨stands.1, stands.2.2.2⟩)
  | call _ _ ih | block _ ih => exact ih ⟨stands.1, stands.2.2⟩
  | ifElse _ _ _ ihc iht ihe =>
    exact ((ihc ⟨stands.1, stands.2.2.1⟩).append (iht ⟨stands.1, stands.2.2.2.1⟩)).append
      (ihe ⟨stands.1, stands.2.2.2.2⟩)
  | forDo _ _ _ _ _ ihc ihlo ihhi ihst ihb =>
    exact ((((ihc ⟨stands.1, stands.2.2.1⟩).append (ihlo ⟨stands.1, stands.2.2.2.1⟩)).append
      (ihhi ⟨stands.1, stands.2.2.2.2.1⟩)).append (ihst ⟨stands.1, stands.2.2.2.2.2.1⟩)).append
      (ihb ⟨stands.1, stands.2.2.2.2.2.2⟩)
  | scope _ _ ihd ihb => exact (ihd (stands_decls stands)).append (ihb ⟨stands.1, stands.2.2.2⟩)
  | assign _ _ ihv iht =>
    -- the value is lowered before the target
    obtain ⟨keeps, functions⟩ :=
      (ihv ⟨stands.1, stands.2.2.2⟩).append (iht ⟨stands.1, stands.2.2.1⟩)
    refine ⟨keeps, fun x hx => functions x ?_⟩
    rw [List.mem_append, or_comm]
    exact List.mem_append.1 hx
  | cons _ _ ihe ihes | argument _ _ ihe ihes =>
    exact (ihe ⟨stands.1, stands.2.1⟩).append (ihes ⟨stands.1, stands.2.2⟩)
  | initialized _ _ ih => exact (ih ⟨(stands.2 rfl).1, stands.1.2⟩).skip rfl
  | @function _ site f params result body s s₁ frame r laid _ _ ih =>
    have body := ih (h.stands_body stands.1 laid)
    obtain ⟨_, -, -, -, areParams⟩ := stands.1.1.1
    refine ⟨fun c hc => Array.mem_push_of_mem _ (body.keeps c hc), fun x hx isFunction => ?_⟩
    rcases List.mem_cons.1 hx with rfl | hx
    · exact ⟨_, Array.mem_push_self, laid⟩
    · rcases List.mem_append.1 hx with hx | hx
      · rw [declarationsList_params areParams x hx] at isFunction
        cases isFunction
      · obtain ⟨c, hc, laid⟩ := body.functions x hx isFunction
        exact ⟨c, Array.mem_push_of_mem _ hc, laid⟩
  | @silent _ d s isFunction noInit =>
    cases d with
    | function => cases isFunction
    | var site x type init =>
      cases init with
      | none => exact (AddsChunks.none s.chunks).skip rfl
      | some init => exact absurd rfl (noInit site x type init)
    | absent | param => exact (AddsChunks.none s.chunks).skip rfl
    | «alias» => exact (AddsChunks.none s.chunks).skip rfl
  | decls _ _ ihd ihds =>
    exact (ihd ⟨stands.1.1, stands.2 _ (by simp)⟩).append
      (ihds ⟨stands.1.2, fun d hd => stands.2 d (by simp [hd])⟩)

end PinsBackend.Kinds
