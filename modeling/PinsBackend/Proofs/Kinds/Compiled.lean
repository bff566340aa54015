import PinsBackend.Proofs.Acceptance
import PinsBackend.Proofs.Canonical.Shape
import PinsBackend.Proofs.Kinds.Canonical
import PinsBackend.Proofs.Kinds.Lowering
import PinsBackend.Proofs.Syntax.Nesting
import PinsBackend.Proofs.Typing.Trees

/-! What the machine may rely on when it runs a compiled program.

`Sound` says that every function has linear code with kinds, and that its record is tiled by its
variables, as static data is by the globals. Later proofs use nothing else about the compiler. -/
namespace PinsBackend.Kinds

open Ir Lowering
open Syntax (Env Level Source Decl)

variable {c' : Chunk (List Stmt)} {C : LinearProgram}

/-! ## Tiles -/

/-- The nodes lie one after the other from one address to another. -/
def Tiled (place : NodeId → Int) (count : NodeId → Nat) (stop : Int) : Int → List NodeId → Prop
  | start, [] => start = stop
  | start, d :: ds => place d = start ∧ Tiled place count stop (start + count d * Word.bytes) ds

section

variable {es : List NodeId}

variable {place : NodeId → Int} {count : NodeId → Nat} {start stop : Int} {ds : List NodeId}

theorem Tiled.append {mid : Int} (h : Tiled place count mid start ds)
    (h' : Tiled place count stop mid es) : Tiled place count stop start (ds ++ es) := by
  induction ds generalizing start with
  | nil =>
    cases h
    exact h'
  | cons d ds ih => exact ⟨h.1, ih h.2⟩

theorem Tiled.split (h : Tiled place count stop start (ds ++ es)) :
    ∃ mid, Tiled place count mid start ds ∧ Tiled place count stop mid es := by
  induction ds generalizing start with
  | nil => exact ⟨start, rfl, h⟩
  | cons d ds ih =>
    obtain ⟨mid, first, rest⟩ := ih h.2
    exact ⟨mid, ⟨h.1, first⟩, rest⟩

/-- Nodes of one word each are numbered by their places. -/
theorem Tiled.words (h : Tiled place count stop start ds) (single : ∀ d ∈ ds, count d = 1) :
    stop = start + ds.length * Word.bytes ∧
      ∀ (i : Nat) d, ds[i]? = some d → place d = start + i * Word.bytes := by
  induction ds generalizing start with
  | nil =>
    cases h
    exact ⟨by simp, by simp⟩
  | cons d ds ih =>
    obtain ⟨here, rest⟩ := h
    rw [single d (List.mem_cons_self ..)] at rest
    obtain ⟨total, places⟩ := ih rest fun e he => single e (List.mem_cons_of_mem _ he)
    constructor
    · simp only [List.length_cons, Word.bytes] at *
      omega
    · rintro (_ | i) e he
      · obtain rfl : d = e := by simpa using he
        simp [here]
      · have := places i e (by simpa using he)
        simp only [Word.bytes] at *
        omega

theorem Tiled.le (h : Tiled place count stop start ds) : start ≤ stop := by
  induction ds generalizing start with
  | nil => exact Int.le_of_eq h
  | cons d ds ih =>
    have := ih h.2
    have : 0 ≤ (count d : Int) * Word.bytes := Int.mul_nonneg (by omega) (by decide)
    omega

theorem Tiled.aligned (h : Tiled place count stop start ds) (hs : Word.bytes ∣ start) :
    Word.bytes ∣ stop := by
  induction ds generalizing start with
  | nil => exact h ▸ hs
  | cons d ds ih => exact ih h.2 (Int.dvd_add hs (Int.dvd_mul_left ..))

/-- Each node lies inside. -/
theorem Tiled.inside (h : Tiled place count stop start ds) {d : NodeId} (hd : d ∈ ds) :
    start ≤ place d ∧ place d + count d * Word.bytes ≤ stop ∧
      (Word.bytes ∣ start → Word.bytes ∣ place d) := by
  induction ds generalizing start with
  | nil => cases hd
  | cons e ds ih =>
    have nonneg : 0 ≤ (count e : Int) * Word.bytes := Int.mul_nonneg (by omega) (by decide)
    rcases List.mem_cons.1 hd with rfl | hd
    · obtain ⟨rfl, rest⟩ := h
      exact ⟨Int.le_refl _, rest.le, id⟩
    · obtain ⟨low, high, aligned⟩ := ih h.2 hd
      exact ⟨by omega, high, fun hs => aligned (Int.dvd_add hs (Int.dvd_mul_left ..))⟩

/-- Different nodes have nothing in common. -/
theorem Tiled.apart (h : Tiled place count stop start ds) {d e : NodeId} (hd : d ∈ ds) (he : e ∈ ds)
    (ne : d ≠ e) :
    place d + count d * Word.bytes ≤ place e ∨ place e + count e * Word.bytes ≤ place d := by
  induction ds generalizing start with
  | nil => cases hd
  | cons f ds ih =>
    obtain ⟨rfl, rest⟩ := h
    rcases List.mem_cons.1 hd with rfl | hd'
    · rcases List.mem_cons.1 he with rfl | he'
      · exact absurd rfl ne
      · exact .inl (rest.inside he').1
    · rcases List.mem_cons.1 he with rfl | he'
      · exact .inr (rest.inside hd').1
      · exact ih rest hd' he'

/-- Every address lies in a node. -/
theorem Tiled.covers (h : Tiled place count stop start ds) {b : Int} (low : start ≤ b)
    (high : b < stop) :
    ∃ d ∈ ds, place d ≤ b ∧ b < place d + count d * Word.bytes := by
  induction ds generalizing start with
  | nil =>
    cases h
    omega
  | cons d ds ih =>
    obtain ⟨rfl, rest⟩ := h
    by_cases here : b < place d + count d * Word.bytes
    · exact ⟨d, List.mem_cons_self .., low, here⟩
    · obtain ⟨e, he, inside⟩ := ih rest (by omega)
      exact ⟨e, List.mem_cons_of_mem _ he, inside⟩

end

/-! ## Programs -/

/-- Linear code of a function in its environment. It leaves a result in `Temp.rv`, of this kind if
it has one. -/
structure Coded (K : Context) (Γ : Env) (result : Option Value.Kind) (body : List Stmt) : Prop where
  canonical : ∀ s ∈ body, s.isCanonical = true
  kinded : ∃ κ Ψ D, κ Temp.fp = none ∧ (∀ l E, Ψ l = some E → .label l ∈ body) ∧
    Kinded K Γ κ (.run Ψ ∅ body D) ∧
    ∀ k ∈ result, κ Temp.rv = some (.word k) ∧ Temp.rv ∈ D

/-- The record of a function: the static link, and then its variables. -/
structure Recorded (S : Storage) (frame : Frame) (l : Level) : Prop where
  tiled : Tiled S.offset S.count (S.size l) Word.bytes l.variables
  params : ∀ d ∈ l.params, S.count d = 1
  locals : ∀ d ∈ l.locals, 0 < S.count d ∧ ∃ k, S.content d = .word k
  size : frame.parametersSize + frame.localsSize = S.size l
  count : frame.parameterCount = l.params.length

structure Sound (K : Context) (frame : Level → Frame) (init : Level) (C : LinearProgram) :
    Prop where
  tiled : Tiled K.storage.start K.storage.count K.storage.static 0 K.storage.globals
  words : ∀ d ∈ K.storage.globals, 0 < K.storage.count d ∧ ∃ k, K.storage.content d = .word k
  data : List.Forall₂ (fun d g => g.label = K.storage.label d ∧
    g.size = K.storage.count d * Word.bytes)
    K.storage.globals C.globals
  names : (C.globals.map Global.label).Nodup
  noParams : init.params = []
  initRecord : Recorded K.storage (frame init) init
  init : ∃ c, C.chunk? Frame.initLabel = some c ∧ c.frame = frame init ∧ Coded K [init] none c.body
  record : ∀ {label r}, K.routine label r → Recorded K.storage (frame r.level) r.level
  -- no function stands inside itself
  distinct : ∀ {label r}, K.routine label r → (r.env.map Level.function).Nodup
  routine : ∀ {label r}, K.routine label r → ∃ c, C.chunk? label = some c ∧
    c.frame = frame r.level ∧
    Coded K r.env (some r.result) c.body
  only : ∀ {label c}, C.chunk? label = some c → label = Frame.initLabel ∨ ∃ r, K.routine label r

/-! ## Code -/

variable {K : Context} {Γ : Env} {κ : Temp → Option Kind} {entry : String} {P : TreeProgram}
  {arena : Arena} {layout : Layout}

theorem Free.cutAt {n : Temp} (two : Temp.firstFree ≤ n) (fp : κ Temp.fp = none) :
    Free (cutAt κ n) n := by
  refine ⟨two, fun t ht => if_neg (Nat.not_lt.2 ht), ?_⟩
  unfold Kinds.cutAt
  split
  · exact fp
  · rfl

/-- Splitting kinded statements gives coded statements. -/
theorem Coded.of_stmts {D : Set Temp} {ss ss' : List Stmt} {limit n : Temp}
    {result : Option Value.Kind} (h : Kinded K Γ κ (.run (fun _ => none) ∅ ss D))
    (fp : κ Temp.fp = none) (two : Temp.firstFree ≤ limit)
    (below : (Stmt.effectsList ss).Below limit) (nodup : (Stmt.labels (.seq ss)).Nodup)
    (split : Canonical.stmts ss limit = .ok ss' n)
    (rv : ∀ k ∈ result, κ Temp.rv = some (.word k) ∧ Temp.rv ∈ D) :
    Coded K Γ result (Stmt.codeList ss') := by
  have canonical := Canonical.stmts_canonical ss split
  have fresh : Fresh (fun _ => none) (ss.flatMap innerLabels) :=
    ⟨nodup.sublist (innerLabels_sublist_seq ss), fun _ _ => rfl⟩
  obtain ⟨κ', Ψ', adds, run⟩ :=
    (h.restrict (n := limit) below).kept (X := ∅) (.refl _) ⟨fun h => by cases h⟩
    (Free.cutAt two fp) fresh split
  rw [Set.union_empty, Set.union_empty] at run
  refine ⟨canonical, κ', Ψ', D, adds.free.fp, fun l E known => ?_, run, fun k hk => ?_⟩
  · have inner := (adds.known known).resolve_left (fun h => by cases h)
    have same : labelsOf (Stmt.codeList ss') = Stmt.labels (.seq ss) := by
      rw [← Stmt.code_seq, labelsOf_code, Stmt.labels,
        (Canonical.stmts_splits ss split below).events]
      rfl
    apply mem_of_mem_labels canonical
    rw [Stmt.code_seq, same]
    exact (innerLabels_sublist_seq ss).subset inner
  · obtain ⟨kind, written⟩ := rv k hk
    exact ⟨adds.kinds.get (cutAt_eq_some (Nat.lt_of_lt_of_le (by decide) two) kind), written⟩

variable {source : Source} {ctx : Lowering.Context} {t : Layout.Tables}
  {sort : NodeId → Syntax.NodeSort}

theorem ChunkSuits.coded {c : Chunk Stmt} (h : ChunkSuits source ctx c)
    (nodup : c.body.labels.Nodup) (hc : c.canonical = .ok c') :
    ∃ r, (contextOf source ctx).routine c'.frame.label r ∧ c'.frame = frameOf ctx.layout r.level ∧
      Coded (contextOf source ctx) r.env (some r.result) c'.body := by
  obtain ⟨limit, lin⟩ := Chunk.linearized_of_canonical hc
  obtain ⟨r, κ, e, routine, frame, -, body, rv, fp, value, -⟩ := h
  obtain ⟨s, n, split, code⟩ := lin.split
  refine ⟨r, lin.frame ▸ routine, lin.frame.trans frame, ?_⟩
  have whole : c'.body = Stmt.codeList [s] := by simp [code]
  have run : Kinded (contextOf source ctx) r.env κ
      (.run (fun _ => none) ∅ [c.body] (insert Temp.rv ∅)) := by
    rw [body]
    exact .single (.assign rv (.inl rfl) (value ∅))
  have below : (Stmt.effectsList [c.body]).Below limit := by
    simpa [Stmt.effectsList] using lin.below
  have splits : Canonical.stmts [c.body] limit = .ok [s] n := by
    simp only [Canonical.stmts, bind_eq_ok, pure_eq_ok]
    exact ⟨s, n, split, [], n, ⟨rfl, rfl⟩, rfl, rfl⟩
  rw [whole]
  refine .of_stmts run fp lin.two_le below (by simpa using nodup) splits fun k hk => ?_
  cases hk
  exact ⟨rv, Set.mem_insert _ _⟩

/-- Initializers are coded in the level of the top. -/
theorem Leaves.coded {inits : List Stmt} {frame : Frame} (h : Leaves source ctx Γ κ inits [])
    (fp : κ Temp.fp = none) (nodup : (Stmt.labels (.seq inits)).Nodup)
    (hc : Chunk.canonical { frame, body := .seq inits } = .ok c') :
    c'.frame = frame ∧ Coded (contextOf source ctx) Γ none c'.body := by
  obtain ⟨limit, lin⟩ := Chunk.linearized_of_canonical hc
  obtain ⟨s, n, split, code⟩ := lin.split
  simp only [Canonical.stmt, bind_eq_ok, pure_eq_ok] at split
  obtain ⟨ss, _, split, rfl, rfl⟩ := split
  refine ⟨lin.frame, ?_⟩
  rw [code, Stmt.code_seq]
  exact .of_stmts (leaves_nil.1 h ∅) fp lin.two_le lin.below nodup split (fun _ h => by cases h)

/-! ## Records -/

/-- Places one after the other are tiles. -/
theorem tiled_of_placed {S : Storage} {words : NodeId → Int → Prop} {depth : Nat} {start stop : Int}
    {ds : List NodeId} (h : Layout.Placed t words depth stop start ds)
    (offset : ∀ d ∈ ds, ∀ n, t.access d = some (.here n) → S.offset d = n)
    (count : ∀ d ∈ ds, ∀ w, words d w → w = S.count d) :
    Tiled S.offset S.count stop start ds := by
  induction ds generalizing start with
  | nil => exact h
  | cons d ds ih =>
    obtain ⟨-, access, -, w, hw, rest⟩ := h
    refine ⟨offset d (by simp) _ access, ?_⟩
    rw [← count d (by simp) w hw]
    exact ih rest (fun e he => offset e (by simp [he])) fun e he => count e (by simp [he])

section

variable {l : Level}

variable (h : Analysed source ctx t sort)

include h

theorem Analysed.local_type (scope : source.Scope (l :: Γ)) {d : NodeId} (mem : d ∈ l.locals) :
    ∃ τ, ctx.types.get? d = some τ ∧ τ.isData = true ∧ isParameter source d = false := by
  obtain ⟨decl, declared, rfl, isVar⟩ := h.local_declared scope mem
  obtain ⟨τ, type, data⟩ := h.variable_type declared (.inl isVar)
  refine ⟨τ, type, data, ?_⟩
  rw [h.isParameter_eq declared]
  cases decl <;> first | rfl | cases isVar

/-- A variable of a block takes the words of its type. -/
theorem Analysed.local_count (scope : source.Scope (l :: Γ)) {d : NodeId} (mem : d ∈ l.locals)
    {w : Int} (sized : Layout.SizedBy ctx.types d w) :
    w = (contextOf source ctx).storage.count d := by
  obtain ⟨τ, type, data, own⟩ := h.local_type scope mem
  obtain ⟨τ', type', size⟩ := sized
  rw [type] at type'
  cases type'
  rw [Ty.sizeInWords_eq data size, contextOf_storage, count_variable type own]

theorem Analysed.recorded (scope : source.Scope (l :: Γ)) :
    Recorded (contextOf source ctx).storage (frameOf ctx.layout l) l := by
  obtain ⟨name, frame⟩ := h.frame scope (i := 0) rfl
  have offset : ∀ d ∈ l.variables, ∀ n, t.access d = some (.here n) →
      (contextOf source ctx).storage.offset d = n := by
    intro d hd n access
    rw [(h.slot_access scope (i := 0) rfl hd).2] at access
    cases access
    rfl
  have param : ∀ d ∈ l.params, (contextOf source ctx).storage.count d = 1 := by
    intro d hd
    obtain ⟨Γ', decl, declared, rfl, isParam⟩ := h.param_declared scope hd
    exact count_parameter ((h.isParameter_eq declared).trans isParam)
  have params := tiled_of_placed frame.params
    (fun d hd => offset d (List.mem_append_left _ hd)) fun d hd w hw => by rw [hw, param d hd]; rfl
  have locals := tiled_of_placed frame.locals
    (fun d hd => offset d (List.mem_append_right _ hd)) fun d hd w hw => h.local_count scope hd hw
  refine ⟨params.append locals, param, fun d hd => ?_, rfl, frame.count⟩
  obtain ⟨τ, type, data, own⟩ := h.local_type scope hd
  rw [contextOf_storage, count_variable type own, content_variable type own]
  exact ⟨Ty.extent_pos data, _, rfl⟩

/-! ## Static data -/

omit h in
/-- Data that is reserved in turn lies in tiles. -/
theorem tiled_dataStart {place : NodeId → Int} {count : NodeId → Nat} {label : NodeId → String}
    {ds : List NodeId} {gs : List Global}
    (h : List.Forall₂ (fun d g => Global.label g = label d ∧ g.size = count d * Word.bytes) ds gs)
    (names : (gs.map Global.label).Nodup) (start : Int)
    (hp : ∀ d ∈ ds, place d = start + dataStart (label d) gs) :
    Tiled place count (start + (gs.map Global.size).sum) start ds := by
  induction h generalizing start with
  | nil => simp [Tiled]
  | @cons d g ds gs first rest ih =>
    obtain ⟨fresh, names⟩ := List.nodup_cons.1 names
    refine ⟨?_, ?_⟩
    · rw [hp d (by simp), dataStart, if_pos first.1, Int.add_zero]
    · have later : ∀ e ∈ ds, place e = start + count d * Word.bytes + dataStart (label e) gs := by
        intro e he
        obtain ⟨g', hg', same, -⟩ := exists_of_mem_left rest he
        have other : g.label ≠ label e := fun eq =>
          fresh (List.mem_map.2 ⟨g', hg', same.trans eq.symm⟩)
        rw [hp e (by simp [he]), dataStart, if_neg other, first.2, Int.add_assoc]
      have sum : start + ((g :: gs).map Global.size).sum =
          start + count d * Word.bytes + (gs.map Global.size).sum := by
        rw [List.map_cons, List.sum_cons, first.2, Int.add_assoc]
      rw [sum]
      exact ih names _ later

theorem Analysed.global_type {d : Decl} (hd : d ∈ source.definitions) (isVar : d.isVar = true) :
    isParameter source d.id = false ∧ ∃ τ, ctx.types.get? d.id = some τ ∧ τ.isData = true := by
  have declared : (source.envOf d, d) ∈ source.declarations :=
    List.mem_flatMap.2 ⟨d, hd, d.mem_declarations _⟩
  refine ⟨?_, h.variable_type declared (.inl isVar)⟩
  rw [h.isParameter_eq declared]
  cases d <;> first | rfl | cases isVar

theorem Analysed.data :
    List.Forall₂ (fun d g => Global.label g = (contextOf source ctx).storage.label d ∧
        g.size = (contextOf source ctx).storage.count d * Word.bytes)
      source.globals ctx.layout.globals := by
  have known : ∀ d ∈ source.definitions.filter Decl.isVar, d ∈ source.definitions ∧
    d.isVar = true :=
    fun d hd => List.mem_filter.1 hd
  refine List.forall₂_map_left_iff.2
    (((List.forall₂_and_left _ _).2 ⟨known, h.describes.globals⟩).imp ?_)
  rintro d g ⟨⟨hd, isVar⟩, site, x, type, init, rfl, label, access, -, w, ⟨τ, typed, size⟩, bytes⟩
  obtain ⟨own, τ', typed', data⟩ := h.global_type hd isVar
  have typed' : ctx.types.get? site.id = some τ' := typed'
  rw [typed] at typed'
  cases typed'
  have global : site.id ∈ source.globals := List.mem_map.2 ⟨_, List.mem_filter.2 ⟨hd, isVar⟩, rfl⟩
  rw [h.global_access global] at access
  cases access
  have count : (contextOf source ctx).storage.count site.id = τ.extent := count_variable typed own
  exact ⟨label, by rw [bytes, Ty.sizeInWords_eq data size, ← count]; rfl⟩

/-- The names of globals are distinct. -/
theorem Analysed.data_names : (ctx.layout.globals.map Global.label).Nodup := by
  have same {ds : List Decl} {gs : List Global}
    (all : List.Forall₂ (Layout.GlobalFor ctx.types t) ds gs) :
      gs.map Global.label = (ds.filterMap Resolution.declared?).map Prod.snd := by
    induction all with
    | nil => rfl
    | cons first _ ih =>
      obtain ⟨site, x, type, init, rfl, label, -⟩ := first
      simp [Resolution.declared?, label, ih]
  rw [same h.describes.globals]
  exact h.names.sublist ((List.filter_sublist.filterMap _).map _)

theorem Analysed.tiled_data :
    Tiled (contextOf source ctx).storage.start (contextOf source ctx).storage.count
      (contextOf source ctx).storage.static 0 (contextOf source ctx).storage.globals := by
  have static : (contextOf source ctx).storage.static =
    0 + (ctx.layout.globals.map Global.size).sum :=
    (Int.zero_add _).symm
  rw [static]
  exact tiled_dataStart h.data h.data_names 0 fun _ _ => (Int.zero_add _).symm

/-! ## Compiled programs -/

/-- A function is the one that its label calls. -/
theorem Analysed.routine_unique {label : String} {r r' : Routine}
    (hr : (contextOf source ctx).routine label r) (hr' : (contextOf source ctx).routine label r') :
    r = r' := by
  obtain ⟨site, f, params, result, body, frame, ps, τ, declared, level, laid, rfl, typed, kind⟩ :=
    hr
  obtain ⟨site', f', params', result', body', frame', ps', τ', declared', level', laid',
    label', typed',
    kind'⟩ := hr'
  rw [← h.describes.frame] at laid laid'
  have same := h.describes.labels laid laid' label'.symm
  obtain ⟨outer, decl⟩ := h.declared_unique declared declared' same
  cases decl
  rw [typed] at typed'
  cases typed'
  obtain ⟨l, Γ, k⟩ := r
  obtain ⟨l', Γ', k'⟩ := r'
  simp only at level level' outer kind kind'
  rw [level, level', outer, kind, kind']

/-- The declarations of the top level stand in their environments. -/
theorem Analysed.stands_top (keep : Decl → Bool) (env : ∀ d, keep d = true → source.envOf d = Γ)
    (var : ∀ d, keep d = true → d.isVar = true → Γ.length = 1) :
    Stands source (found source ctx t sort) Γ ctx.layout.init.depth
      (.decls (source.definitions.filter keep)) := by
  refine ⟨Decl.everywhereList_iff.2 fun d hd => ?_, fun d hd isVar => ⟨?_, .inr ?_⟩⟩
  · obtain ⟨mem, hk⟩ := List.mem_filter.1 hd
    exact env d hk ▸ h.nodes d mem
  · rw [h.describes.init.deep, var d (List.mem_filter.1 hd).2 isVar]
  · exact List.mem_map.2 ⟨d, List.mem_filter.2 ⟨(List.mem_filter.1 hd).1, isVar⟩, rfl⟩

/-- The functions around a place differ, for they have frames of different depths. -/
theorem Analysed.functions_nodup (scope : source.Scope Γ) : (Γ.map Level.function).Nodup := by
  rw [List.nodup_iff_injective_getElem]
  rintro ⟨i, hi⟩ ⟨j, hj⟩ same
  simp only [List.getElem_map, List.length_map] at hi hj same
  obtain ⟨_, frame⟩ := h.frame scope (List.getElem?_eq_getElem hi)
  obtain ⟨_, frame'⟩ := h.frame scope (List.getElem?_eq_getElem hj)
  have equal : frameOf ctx.layout Γ[i] = frameOf ctx.layout Γ[j] := by rw [frameOf, frameOf, same]
  have depth : Γ.length - i = Γ.length - j := by rw [← frame.deep, ← frame'.deep, equal]
  exact Fin.ext (by simp only; omega)

/-- A program is lowered in two parts, each in its environment: first the globals, then the
functions. -/
theorem Analysed.lowers (hp : source.lower ctx.bindings ctx.types ctx.layout entry = .ok P) :
    ∃ inits rest s₁ s₂,
      Lowers ctx ctx.layout.init.depth (.decls (source.definitions.filter Decl.isVar)) {}
      (.stmts inits) s₁ ∧
      Lowers ctx ctx.layout.init.depth (.decls (source.definitions.filter Decl.isFunction)) s₁
        (.stmts rest) s₂ ∧
      Stands source (found source ctx t sort) [source.init] ctx.layout.init.depth
        (.decls (source.definitions.filter Decl.isVar)) ∧
      Stands source (found source ctx t sort) [] ctx.layout.init.depth
        (.decls (source.definitions.filter Decl.isFunction)) ∧
      P = { chunks := s₂.chunks.toList, globals := ctx.layout.globals,
            init := { frame := ctx.layout.init, body := .seq inits }, entry } := by
  obtain ⟨inits, rest, s₁, s₂, vars, functions, eq⟩ := lower_eq_ok hp
  have same : (⟨source.signatures, ctx.bindings, ctx.types, ctx.layout⟩ : Lowering.Context) =
      ctx := by
    rw [← h.signatures]
  rw [same] at vars functions
  refine ⟨inits, rest, s₁, s₂, vars, functions, ?_, ?_, eq⟩
  · exact h.stands_top Decl.isVar (fun d hd => if_pos hd) fun _ _ _ => rfl
  · apply h.stands_top Decl.isFunction
    · intro d hd
      exact if_neg (by simp [Decl.isVar_of_isFunction hd])
    · intro d hd isVar
      simp [Decl.isVar_of_isFunction hd] at isVar

/-- Every label is defined at one place of the whole program. -/
theorem Analysed.labels_nodup (hp : source.lower ctx.bindings ctx.types ctx.layout entry = .ok P) :
    ((P.init :: P.chunks).flatMap fun c => c.body.labels).Nodup := by
  obtain ⟨inits, rest, s₁, s₂, vars, functions, standsVars, standsFunctions, rfl⟩ := h.lowers hp
  obtain ⟨new, chunks, numbered⟩ :=
    (h.labels_of_lowers vars standsVars).append (h.labels_of_lowers functions standsFunctions)
  have all : s₂.chunks.toList = new := by simpa using chunks
  refine numbered.nodup.sublist ?_
  simp only [all, codeLabels, List.flatMap_cons, List.append_assoc]
  exact List.Sublist.append_left (List.sublist_append_right _ _) _

/-- The chunks of the tree code of a program, and the initializers. -/
theorem Analysed.lowered (hp : source.lower ctx.bindings ctx.types ctx.layout entry = .ok P) :
    (∃ κ inits, P.init = { frame := ctx.layout.init, body := .seq inits } ∧ κ Temp.fp = none ∧
      Leaves source ctx [source.init] κ inits [] ∧ (Stmt.labels (.seq inits)).Nodup) ∧
    (∀ c ∈ P.chunks, ChunkSuits source ctx c ∧ c.body.labels.Nodup) ∧
    (∀ x ∈ source.declarations, x.2.isFunction = true →
      ∃ c ∈ P.chunks, ctx.layout.frames.get? x.2.id = some c.frame) ∧
    P.globals = ctx.layout.globals ∧ P.entry = entry := by
  have distinct := List.nodup_flatMap.1 (h.labels_nodup hp)
  obtain ⟨inits, rest, s₁, s₂, vars, functions, standsVars, standsFunctions, rfl⟩ := h.lowers hp
  obtain ⟨⟨κ, le, free, leaves⟩, chunks₁⟩ :=
    h.suits_of_lowers vars standsVars (entryKinds_free .integer)
  obtain ⟨-, chunks₂⟩ := h.suits_of_lowers functions standsFunctions free
  have adds₁ := h.adds_chunks vars standsVars
  have adds₂ := h.adds_chunks functions standsFunctions
  refine ⟨⟨κ, inits, rfl, free.fp, leaves, distinct.1 _ (List.mem_cons_self ..)⟩, fun c hc => ?_,
    fun x hx isFunction => ?_, rfl, rfl⟩
  · refine ⟨chunks₂ (chunks₁ (by simp)) c (Array.mem_toList_iff.1 hc), ?_⟩
    exact distinct.1 c (List.mem_cons_of_mem _ hc)
  · obtain ⟨d, hd, hx⟩ := List.mem_flatMap.1 hx
    have found : HasChunk ctx s₂.chunks x.2.id := by
      have inside (keep : Decl → Bool) (hk : keep d = true) :
          x ∈ declarationsOf (source.envOf d) (.decls (source.definitions.filter keep)) := by
        rw [declarationsOf, Decl.declarationsList_eq]
        exact List.mem_flatMap.2 ⟨d, List.mem_filter.2 ⟨hd, hk⟩, hx⟩
      cases d with
      | var =>
        obtain ⟨c, hc, laid⟩ := adds₁.functions x (inside Decl.isVar rfl) isFunction
        exact ⟨c, adds₂.keeps c hc, laid⟩
      | function => exact adds₂.functions x (inside Decl.isFunction rfl) isFunction
      | absent | param =>
        exact absurd isFunction (by rw [List.mem_singleton.1 hx]; simp [Decl.isFunction])
      | «alias» => exact absurd isFunction (by rw [List.mem_singleton.1 hx]; simp [Decl.isFunction])
    obtain ⟨c, hc, laid⟩ := found
    exact ⟨c, Array.mem_toList_iff.2 hc, laid⟩

end

theorem chunk?_isSome {Body : Type} {p : Program Body} {c : Chunk Body}
    (h : c ∈ p.init :: p.chunks) : ∃ c', p.chunk? c.frame.label = some c' := by
  have found : ∀ (cs : List (Chunk Body)) (o : Option (Chunk Body)),
      o.isSome = true ∨ c ∈ cs →
      (cs.foldl (fun found d => if d.frame.label = c.frame.label then some d else found)
        o).isSome := by
    intro cs
    induction cs with
    | nil => exact fun o h => h.resolve_right (by simp)
    | cons d ds ih =>
      intro o h
      refine ih _ ?_
      by_cases same : d.frame.label = c.frame.label
      · simp [same]
      · simp only [if_neg same]
        exact h.imp_right fun h => (List.mem_cons.1 h).resolve_left fun eq => same (eq ▸ rfl)
  exact Option.isSome_iff_exists.1 (found _ none (.inr h))

/-- Functions do not have the label of the initializers. -/
theorem Analysed.routine_ne_init (h : Analysed source ctx t sort) {label : String} {r : Routine}
    (hr : (contextOf source ctx).routine label r) : label ≠ Frame.initLabel := by
  obtain ⟨site, f, params, result, body, frame, ps, τ, -, -, laid, rfl, -⟩ := hr
  exact h.describes.notInit (h.describes.frame ▸ laid)

section

variable {label : String}

variable {entry : String} {P : TreeProgram} (h : Analysed source ctx t sort)
  (hp : source.lower ctx.bindings ctx.types ctx.layout entry = .ok P)

include h hp

/-- A chunk that is called is that of the initializers or that of a function. -/
theorem Analysed.chunk?_cases {c : Chunk Stmt} (hc : P.chunk? label = some c) :
    c = P.init ∧ label = Frame.initLabel ∨ c ∈ P.chunks ∧ c.frame.label = label := by
  obtain ⟨⟨κ, inits, init, -⟩, -⟩ := h.lowered hp
  obtain ⟨mem, rfl⟩ := Program.mem_of_chunk? hc
  rcases List.mem_cons.1 mem with rfl | mem
  · exact .inl ⟨rfl, by rw [init]; exact h.describes.init.label⟩
  · exact .inr ⟨mem, rfl⟩

theorem Analysed.chunk?_init : P.chunk? Frame.initLabel = some P.init := by
  obtain ⟨⟨κ, inits, init, -⟩, chunks, -⟩ := h.lowered hp
  have label : P.init.frame.label = Frame.initLabel := by
    rw [init]
    exact h.describes.init.label
  obtain ⟨c, hc⟩ := chunk?_isSome (p := P) (List.mem_cons_self ..)
  rw [label] at hc
  rcases h.chunk?_cases hp hc with ⟨rfl, -⟩ | ⟨mem, same⟩
  · exact hc
  · obtain ⟨r, _, _, routine, -⟩ := (chunks c mem).1
    exact absurd same (h.routine_ne_init routine)

/-- The label of a function leads to a chunk with the frame of that function. -/
theorem Analysed.chunk?_routine {r : Routine} (hr : (contextOf source ctx).routine label r) :
    ∃ c ∈ P.chunks, P.chunk? label = some c ∧ c.frame.label = label ∧
      c.frame = frameOf ctx.layout r.level := by
  obtain ⟨-, chunks, functions, -⟩ := h.lowered hp
  obtain ⟨c, mem, label⟩ : ∃ c ∈ P.chunks, c.frame.label = label := by
    obtain ⟨site, f, params, result, body, frame, ps, τ, declared, -, laid, rfl, -⟩ := hr
    obtain ⟨c, mem, laid'⟩ := functions _ declared rfl
    have same : some frame = some c.frame := laid.symm.trans laid'
    exact ⟨c, mem, by rw [Option.some.inj same]⟩
  obtain ⟨c', hc⟩ := chunk?_isSome (p := P) (List.mem_cons_of_mem _ mem)
  rw [label] at hc
  rcases h.chunk?_cases hp hc with ⟨-, eq⟩ | ⟨mem', label'⟩
  · exact absurd eq (h.routine_ne_init hr)
  · obtain ⟨r', _, _, routine, frame, -⟩ := (chunks c' mem').1
    obtain rfl := h.routine_unique hr (label' ▸ routine)
    exact ⟨c', mem', hc, label', frame⟩

/-- No chunk has the name of a built-in that the program may call. -/
theorem Analysed.chunk?_builtin {b : Builtin} (free : source.IsBuiltin b) :
    P.chunk? b.name = none := by
  obtain ⟨-, chunks, -⟩ := h.lowered hp
  rw [Option.eq_none_iff_forall_ne_some]
  intro c hc
  rcases h.chunk?_cases hp hc with ⟨-, same⟩ | ⟨mem, same⟩
  · cases b <;> simp [Builtin.name, Frame.initLabel] at same
  · obtain ⟨r, _, _, routine, -⟩ := (chunks c mem).1
    exact h.builtin_unused free r (same ▸ routine)

end

/-- The tables from which a program is lowered. -/
def tablesOf (source : Source) (layout : Layout) : Lowering.Context where
  signatures := source.signatures
  bindings := source.resolve.bindings
  types := (source.check source.resolve.bindings).types
  layout := layout

/-- The stages up to the layout found out all that they could. -/
theorem analysed_of_laid (tree : arena.IsTree) (named : arena.source.resolve.errors = [])
    (typed : (arena.source.check arena.source.resolve.bindings).errors = #[])
    (laid : arena.source.layout arena.source.resolve.bindings
      (arena.source.check arena.source.resolve.bindings).types = .ok layout) :
    ∃ t, Analysed arena.source (tablesOf arena.source layout) t arena.sort := by
  have good := (Arena.source_good tree).1
  have nodup := Arena.source_ids_nodup tree
  have complete : arena.source.Everywhere (Syntax.complete arena.source.signatures) := good.left
  have bound := Arena.source_bound tree named
  obtain ⟨t, describes, placed⟩ := Source.layout_describes complete nodup laid
  have whole (id : NodeId) (reached : arena.Reached id) : arena.expr? id ≠ some .hole := by
    intro hole
    obtain ⟨Δ, within⟩ := reached.within
    obtain ⟨n, Γ, -, -, facts⟩ := (within.shown tree placed).expr_facts hole
    rw [Arena.exprTree, hole] at facts
    exact facts
  have typed := Arena.source_wellTyped tree whole named typed
  have listed := Source.everywhere_listed complete
  refine ⟨t, rfl, ?_, describes, nodup, Source.names_nodup named, fun b => ?_⟩
  · exact complete.and (good.right.and (bound.and (typed.and (placed.and listed))))
  · exact Arena.sort_of_bound tree.isTreeShaped b

/-- The stages of a compilation found out all that they could. -/
theorem analysed_of_accepted (tree : arena.IsTree) (h : Accepted arena.source entry layout P C) :
    ∃ t, Analysed arena.source (tablesOf arena.source layout) t arena.sort :=
  analysed_of_laid tree h.named h.typed h.laid

/-- The linear code of a compiled program is sound. -/
theorem sound_of_accepted (accepted : Accepted arena.source entry layout P C)
    (h : Analysed arena.source (tablesOf arena.source layout) t sort) :
    Sound (contextOf arena.source (tablesOf arena.source layout)) (frameOf layout) arena.source.init
      C := by
  obtain ⟨⟨κ, inits, init, fp, leaves, nodup⟩, chunks, -, globals, -⟩ :=
    h.lowered accepted.lowered
  have data : C.globals = layout.globals :=
    (TreeProgram.canonical_globals accepted.canonical).1.trans globals
  have related {label : String} {c : Chunk Stmt} (hc : P.chunk? label = some c) :=
    TreeProgram.chunk?_of_canonical accepted.canonical hc
  have scope {label : String} {r : Routine}
      (hr : (contextOf arena.source (tablesOf arena.source layout)).routine label r) :
      arena.source.Scope r.env := by
    obtain ⟨site, f, params, result, body, frame, ps, τ, declared, level, -⟩ := hr
    rw [Routine.env, level]
    exact .function (h.decl_facts declared).2.2.2.2.2.1 declared
  refine ⟨h.tiled_data, ?_, data ▸ h.data, data ▸ h.data_names, rfl, h.recorded .init, ?_,
    fun hr => h.recorded (scope hr), fun hr => h.functions_nodup (scope hr), fun {label r} hr =>
    ?_, fun {label c'} hc => ?_⟩
  · intro d hd
    obtain ⟨e, he, rfl⟩ := List.mem_map.1 hd
    obtain ⟨own, τ, type, data⟩ := h.global_type (List.mem_filter.1 he).1 (List.mem_filter.1 he).2
    rw [contextOf_storage, count_variable type own, content_variable type own]
    exact ⟨Ty.extent_pos data, _, rfl⟩
  · obtain ⟨c', hc', canonical⟩ := related (h.chunk?_init accepted.lowered)
    rw [init] at canonical
    obtain ⟨frame, coded⟩ := leaves.coded fp nodup canonical
    exact ⟨c', hc', frame, coded⟩
  · obtain ⟨c, mem, hc, rfl, -⟩ := h.chunk?_routine accepted.lowered hr
    obtain ⟨c', hc', canonical⟩ := related hc
    obtain ⟨suits, labels⟩ := chunks c mem
    obtain ⟨r', hr', frame, coded⟩ := suits.coded labels canonical
    obtain ⟨_, lin⟩ := Chunk.linearized_of_canonical canonical
    rw [lin.frame] at hr'
    obtain rfl := h.routine_unique hr hr'
    exact ⟨c', hc', frame, coded⟩
  · obtain ⟨c, hc⟩ : ∃ c, P.chunk? label = some c := by
      rw [← Option.isSome_iff_exists, ← TreeProgram.isSome_chunk?_canonical accepted.canonical, hc]
      rfl
    rcases h.chunk?_cases accepted.lowered hc with ⟨-, rfl⟩ | ⟨mem, rfl⟩
    · exact .inl rfl
    · obtain ⟨r, _, _, routine, -⟩ := (chunks c mem).1
      exact .inr ⟨r, routine⟩

end PinsBackend.Kinds
