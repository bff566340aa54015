import PinsBackend.Proofs.Safety.Links

/-! Stores of compiled programs.

A store writes a word of a declared variable, and if it writes an element, a word of the array that
is indexed. Static links are words of no variable, so they stay as the call left them. -/
namespace PinsBackend.Safety

open Ir Kinds
open Lowering (elementExpr)
open Meaning (Place Datum Activation Store)
open Syntax (Env Level Source)

/-! ## Storage of variables -/

/-- The bytes of a declared variable: a global, or a parameter or a local of a live activation. -/
inductive Stored (source : Source) (ctx : Lowering.Context) (s : Linear.State) :
    NodeId → Memory.Region → Prop
  | global {d : NodeId} {label : String} {low : Int} (mem : d ∈ source.globals)
      (access : ctx.layout.accesses.get? d = some (.global label))
      (address : s.machine.memory.address? label = some low) :
    Stored source ctx s d ⟨low, low + (storageOf source ctx.types ctx.layout).count d * Word.bytes⟩
  | inRecord {d : NodeId} {l : Level} {Γ : Env} {act : Linear.Activation} {offset : Int}
      (live : act ∈ s.stack) (scope : source.Scope (l :: Γ)) (runs : runsAt ctx.layout l act = true)
      (mem : d ∈ l.variables) (access : ctx.layout.accesses.get? d = some (.here offset)) :
    Stored source ctx s d ⟨act.record.low + offset,
      act.record.low + offset + (storageOf source ctx.types ctx.layout).count d * Word.bytes⟩

/-- The word at `n`, which the expression `a` addresses, belongs to a region. If it is an element,
the array that is indexed belongs to the region as a whole, and the word to the array. -/
structure Targets (m : Memory) (ts : Temps) (region : Memory.Region) (a : Expr) (n : Int) :
    Prop where
  inside : (⟨n, n + Word.bytes⟩ : Memory.Region).Inside region.low region.high
  aligned : Word.bytes ∣ n - region.low
  element : ∀ base i length size, Word.Fits size → a = elementExpr base i length size →
    ∃ b : Int64, Linear.eval m ts base = .ok (.int b) ∧
      (⟨b.toInt, b.toInt + length * size⟩ : Memory.Region).Inside region.low region.high ∧
      (⟨n, n + Word.bytes⟩ : Memory.Region).Inside b.toInt (b.toInt + length * size)

theorem address_offset (S : Storage) (top : Int) (stack : List Activation) (p : Place) :
    address S top stack p = address S top stack { p with offset := 0 } + p.offset * Word.bytes := by
  simp [address]

section

variable {source : Source} {ctx : Lowering.Context} {t : Layout.Tables}
  {sort : NodeId → Syntax.NodeSort}
  {C : LinearProgram} {loose : Prop} {last : Option Value.Kind} {top : Int} {A : Config}
    {s : Linear.State}
  (h : Analysed source ctx t sort)
  (sound : Sound (contextOf source ctx) (frameOf ctx.layout) source.init C)
  (sane : Sane (contextOf source ctx) (frameOf ctx.layout) source.init loose last A)
  (shows : Shows (contextOf source ctx).storage top A s)

include h sound sane shows

/-- Blocks of a store are declared variables. -/
theorem stored_of_block {p : Place} (block : Block (contextOf source ctx).storage A.store.stack p) :
    Stored source ctx s p.decl
      ⟨address (contextOf source ctx).storage top A.store.stack { p with offset := 0 },
        address (contextOf source ctx).storage top A.store.stack { p with offset := 0 } +
          (contextOf source ctx).storage.count p.decl * Word.bytes⟩ := by
  obtain ⟨owner, d, offset⟩ := p
  cases owner with
  | none =>
    have mem : d ∈ source.globals := block
    have place : address (contextOf source ctx).storage top A.store.stack ⟨none, d, 0⟩ =
        (contextOf source ctx).storage.start d := by simp [address]
    simp only [place]
    exact .global mem (h.describes.access ▸ h.global_access mem) (shows.memory.labels d mem)
  | some k =>
    obtain ⟨a, ha, mem⟩ : ∃ a, A.store.stack[k]? = some a ∧ d ∈ a.level.variables := block
    have lt : k < s.stack.length := by
      rw [← shows.acts.length, sane.length]
      exact (List.getElem?_eq_some_iff.1 ha).1
    obtain ⟨younger, act, older, split, rfl⟩ := exists_split lt
    obtain ⟨Γ, live⟩ := sane.live shows split
    obtain ⟨a', ha', head, framed, record⟩ := live.level sound
    rw [ha] at ha'
    cases ha'
    obtain ⟨Δ, rfl⟩ := List.head?_eq_some_iff.1 head
    have scope := scope_of_known h live.known
    have access := (h.slot_access scope (i := 0) rfl mem).2
    have place : address (contextOf source ctx).storage top A.store.stack
      ⟨some older.length, d, 0⟩ =
        act.record.low + (contextOf source ctx).storage.offset d := by simp [address, record]
    simp only [place]
    exact .inRecord (by simp [split]) scope ((runsAt_iff h scope scope framed).2 rfl) mem
      (h.describes.access ▸ access)

omit h in
/-- Cells lie where no static link is. -/
theorem cell_ne_record {p : Place} (cell : Cell (contextOf source ctx).storage A.store.stack p)
    {act : Linear.Activation} (mem : act ∈ s.stack) :
    act.record.low ≠ address (contextOf source ctx).storage top A.store.stack p := by
  obtain ⟨younger, older, split⟩ := List.append_of_mem mem
  obtain ⟨Γ, live⟩ := sane.live shows split
  obtain ⟨a, ha, -, -, record⟩ := live.level sound
  rw [record]
  exact address_ne_link top sane.typed.laid shows.memory.room cell
    (List.getElem?_eq_some_iff.1 ha).1

end

/-! ## Where a store writes -/

/-- Only an array can be indexed. -/
theorem kinded_of_element {K : Context} {Γ : Env} {κ : Temp → Option Kind} {D : Set Temp}
    {base i : Expr} {length size : Int} (fits : Word.Fits size) {c : Content} {n : Nat}
    (h : Kinded K Γ κ (.value D (elementExpr base i length size) (.cells c n))) :
    ∃ k m, Kinded K Γ κ (.value D base (.cells (.word k) m)) ∧
      Kinded K Γ κ (.value D i (.word .integer)) ∧
      length.toNat * n ≤ m ∧ size = n * Word.bytes := by
  generalize hT : Task.value D (elementExpr base i length size) (.cells c n) = task at h
  cases h with
  | element array index inside bytes fits' =>
    simp only [elementExpr, Expr.int, Value.ofInt, Task.value.injEq, Expr.binop.injEq,
      Expr.checkIndex.injEq, Expr.const.injEq, Value.int.injEq, Kind.cells.injEq, true_and] at hT
    obtain ⟨rfl, ⟨rfl, ⟨rfl, rfl⟩, same⟩, rfl, rfl⟩ := hT
    -- the bytes of an element fit a word, so that the constant says how many they are
    have whole := congrArg Int64.toInt same
    rw [toInt_ofInt fits, toInt_ofInt fits'] at whole
    exact ⟨_, _, array, index, inside, whole.trans bytes⟩
  | slot => simp [elementExpr, Expr.int] at hT
  | load => simp [elementExpr] at hT
  | _ => cases hT

/-- A step that executes a store. -/
theorem step_store {p : LinearProgram} {budget : Option Nat} {s s' : Linear.State}
    {r : Option Value} {act : Linear.Activation} {callers : List Linear.Activation} {a e : Expr}
    {rest : List Stmt} (stack : s.stack = act :: callers)
    (code : act.rest = .move (.mem a) e :: rest) (h : Linear.step p budget s = .ok r s') :
    ∃ n v, Linear.eval s.machine.memory act.temps a = .ok (.int n) ∧
      Linear.eval s.machine.memory act.temps e = .ok v ∧
      Memory.store n.toInt v s.machine.memory = .ok () s'.machine.memory := by
  obtain ⟨machine, stack'⟩ := s
  obtain rfl : stack' = act :: callers := stack
  simp only [Linear.step, code, bind_eq_ok, pure_eq_ok] at h
  obtain ⟨_, s₁, ticked, _, _, executed, rfl, rfl⟩ := h
  simp only [Linear.onMachine] at ticked
  rcases Machine.tick_cases budget machine with eq | ⟨_, -, eq⟩
  · rw [eq] at ticked
    cases ticked
    simp only [Linear.execute] at executed
    obtain ⟨n, v, m, address, value, stored, rfl⟩ := Linear.storeAt_eq_ok executed
    exact ⟨n, v, address, value, stored⟩
  · rw [eq] at ticked
    cases ticked

/-- An element lies inside the array that is indexed, and both in one variable. -/
theorem element_inside {K : Context} {loose : Prop} {σ : Store} {θ : Temp → Option Datum}
    {top : Int} {m : Memory} {ts : Temps} (typed : Typed K.storage loose σ)
    (views : Views K.storage top σ θ m ts) {base i : Expr} {length size : Int} {k : Value.Kind}
    {count c : Nat} (pos : 0 < c)
    (array : Evaluates K.storage loose σ θ base (.cells (.word k) count))
    (index : Evaluates K.storage loose σ θ i (.word .integer)) (inside : length.toNat * c ≤ count)
    (bytes : size = c * Word.bytes) {p : Place} (cell : Cell K.storage σ.stack p)
    (value : Linear.eval m ts (elementExpr base i length size) =
      .ok (shown K.storage top σ.stack (.place p))) :
    ∃ q : Place, Linear.eval m ts base = .ok (shown K.storage top σ.stack (.place q)) ∧
      Cell K.storage σ.stack q ∧ q.owner = p.owner ∧ q.decl = p.decl ∧ 0 ≤ length ∧
      q.offset ≤ p.offset ∧ p.offset + c ≤ q.offset + length.toNat * c ∧
      q.offset + length.toNat * c ≤ K.storage.count p.decl := by
  rcases array with ⟨d, kind, hb⟩ | ⟨f, -, hb⟩
  case inr => simp [elementExpr, Linear.eval, hb views, bind, Except.bind] at value
  obtain ⟨q, rfl, block, content, room⟩ := kind.place
  rcases index with ⟨d, kind, hi⟩ | ⟨f, -, hi⟩
  case inr => simp [elementExpr, Linear.eval, hb views, hi views, bind, Except.bind] at value
  obtain ⟨j, rfl⟩ := kind.integer
  by_cases out : j.toInt < 0 ∨ length ≤ j.toInt
  · simp only [elementExpr, Linear.eval, hb views, hi views, bind, Except.bind, shown,
      Value.checkIndex, Value.asInt, out, if_true] at value
    cases value
  have lt : j.toInt.toNat + 1 ≤ length.toNat := by omega
  have scaled : (j.toInt.toNat + 1) * c ≤ length.toNat * c := Nat.mul_le_mul_right c lt
  rw [Nat.add_mul, Nat.one_mul] at scaled
  have first : Cell K.storage σ.stack q := ⟨block, by omega⟩
  have other : Cell K.storage σ.stack { q with offset := q.offset + j.toInt.toNat * c } := by
    refine ⟨block, ?_⟩
    show q.offset + j.toInt.toNat * c < K.storage.count q.decl
    omega
  rw [eval_element bytes (hb views) (hi views) (by omega) (by omega)] at value
  -- the word that was found is the cell of one variable only
  have same : p = { q with offset := q.offset + j.toInt.toNat * c } := by
    have word := congrArg Int64.toInt (Value.int.inj (Except.ok.inj value))
    rw [toInt_ofInt (views.memory.fits_address typed.laid other),
      toInt_ofInt (views.memory.fits_address typed.laid cell)] at word
    exact address_injective top typed.laid views.memory.room cell other word.symm
  subst same
  refine ⟨q, hb views, first, rfl, rfl, by omega, ?_, ?_, ?_⟩
  · show q.offset ≤ q.offset + j.toInt.toNat * c
    omega
  · show q.offset + j.toInt.toNat * c + c ≤ q.offset + length.toNat * c
    omega
  · show q.offset + length.toNat * c ≤ K.storage.count q.decl
    omega

section

variable {source : Source} {ctx : Lowering.Context} {t : Layout.Tables}
  {sort : NodeId → Syntax.NodeSort}
  {C : LinearProgram} {loose : Prop} {last : Option Value.Kind} {top : Int} {A : Config}
    {s : Linear.State}

/-- A store of a sane state targets a variable, and no static link. -/
theorem store_targets (h : Analysed source ctx t sort)
    (sound : Sound (contextOf source ctx) (frameOf ctx.layout) source.init C)
    (sane : Sane (contextOf source ctx) (frameOf ctx.layout) source.init loose last A)
    (shows : Shows (contextOf source ctx).storage top A s) {act : Linear.Activation}
    {callers : List Linear.Activation} {a e : Expr} {rest : List Stmt}
    (stack : s.stack = act :: callers) (code : act.rest = .move (.mem a) e :: rest) {n : Int64}
    (value : Linear.eval s.machine.memory act.temps a = .ok (.int n)) :
    ∃ d region, Stored source ctx s d region ∧ Targets s.machine.memory act.temps region a n.toInt ∧
      ∀ other ∈ s.stack, n.toInt ≠ other.record.low := by
  obtain ⟨σ, acts, steps⟩ := A
  cases acts with
  | nil => exact absurd rfl sane.running
  | cons b as =>
    obtain ⟨result, Γ, κ, Ψ, D, D', focus⟩ := sane.focus
    have shows' := shows
    obtain ⟨m, act', callers', rfl, memory, shown, -⟩ := shows_cons shows
    cases stack
    have views := shown.views memory
    have left : b.rest = .move (.mem a) e :: rest := shown.rest.symm.trans code
    have flat : a.isFlat = true ∧ e.isFlat = true := by
      have canonical :=
        focus.runs.canonical _ (focus.runs.suffix.subset (left ▸ List.mem_cons_self))
      simpa [Stmt.isCanonical] using canonical
    have kinded := focus.runs.rest
    rw [left] at kinded
    cases kinded with
    | cons first _ =>
    cases first with
    | @store _ _ _ _ k c address pos _ =>
    rcases focus.evaluates address flat.1 with ⟨d, hd, evaluated⟩ | ⟨f, -, evaluated⟩
    case inr =>
      rw [evaluated views] at value
      cases value
    obtain ⟨p, rfl, block, -, inside⟩ := hd.place
    have cell : Cell (contextOf source ctx).storage σ.stack p := ⟨block, by omega⟩
    have word : n.toInt = Safety.address (contextOf source ctx).storage top σ.stack p := by
      rw [evaluated views] at value
      cases value
      exact toInt_ofInt (memory.fits_address focus.typed.laid cell)
    have origin := address_offset (contextOf source ctx).storage top σ.stack p
    refine ⟨p.decl, _, stored_of_block h sound sane shows' block, ⟨?_, ?_, ?_⟩,
      fun other live => ?_⟩
    · simp only [Memory.Region.Inside, word, origin, Word.bytes]
      omega
    · rw [word, origin, add_sub_cancel_left]
      exact Int.dvd_mul_left ..
    · rintro base i length size fits rfl
      obtain ⟨k', count, array, index, room, bytes⟩ := kinded_of_element fits address
      simp only [elementExpr, Expr.isFlat_binop, Expr.isFlat_checkIndex, Bool.and_eq_true] at flat
      obtain ⟨q, hq, first, owner, decl, nonneg, low, high, bound⟩ :=
        element_inside focus.typed views pos
        (focus.evaluates array flat.1.1) (focus.evaluates index flat.1.2.1) room bytes cell
          (evaluated views)
      have start := toInt_ofInt (memory.fits_address focus.typed.laid first)
      -- both places belong to one variable, so that only their offsets count
      have origin' : Safety.address (contextOf source ctx).storage top σ.stack q =
          Safety.address (contextOf source ctx).storage top σ.stack { p with offset := 0 } +
            q.offset * Word.bytes := by
        rw [address_offset]
        simp only [owner, decl, Safety.address]
      have extent : length * size = (length.toNat * c : Nat) * Word.bytes := by
        rw [bytes, Int.natCast_mul, Int.toNat_of_nonneg nonneg, Int.mul_assoc]
      refine ⟨_, hq, ?_, ?_⟩
      · rw [start, extent, origin']
        simp only [Memory.Region.Inside, Word.bytes]
        omega
      · rw [start, extent, origin', word, origin]
        simp only [Memory.Region.Inside, Word.bytes]
        omega
    · rw [word]
      exact (cell_ne_record sound sane shows' cell live).symm

end

/-! ## Static links stay -/

/-- The static link of an activation whose code stands in the functions `Γ`: the record of the
youngest older activation of the next function. -/
def linkOf (layout : Layout) (Γ : Env) (older : List Linear.Activation) : Value :=
  match Γ[1]?.bind fun l => (older.find? (runsAt layout l)).map Linear.Activation.record with
  | none => .zero
  | some record => .ofInt record.low

/-- Frames and saved registers say where the records lie, and which functions run. -/
theorem record_find?_congr {layout : Layout} {l : Level} {older older' : List Linear.Activation}
    (same : older'.map (fun act => (act.chunk.frame, act.saved)) =
      older.map fun act => (act.chunk.frame, act.saved)) :
    (older'.find? (runsAt layout l)).map Linear.Activation.record =
      (older.find? (runsAt layout l)).map Linear.Activation.record := by
  induction older generalizing older' with
  | nil =>
    obtain rfl := List.map_eq_nil_iff.1 same
    rfl
  | cons act older ih =>
    obtain ⟨act', older', rfl, first, rest⟩ := List.map_eq_cons_iff.1 same
    obtain ⟨frame, saved⟩ := Prod.mk.inj first
    have runs : runsAt layout l act' = runsAt layout l act := by simp only [runsAt, frame]
    have record : act'.record = act.record := by simp only [Linear.Activation.record, frame, saved]
    rw [List.find?_cons, List.find?_cons, runs]
    cases runsAt layout l act with
    | true => exact congrArg some record
    | false => exact ih rest

section

variable {source : Source} {ctx : Lowering.Context} {t : Layout.Tables}
  {sort : NodeId → Syntax.NodeSort}
  {C : LinearProgram} {loose : Prop} {last last' : Option Value.Kind} {top : Int} {A A' : Config}
  {s s' : Linear.State} {younger older younger' older' : List Linear.Activation}
  {act act' : Linear.Activation} {Γ : Env}
  (h : Analysed source ctx t sort)
  (sound : Sound (contextOf source ctx) (frameOf ctx.layout) source.init C)
  (sane : Sane (contextOf source ctx) (frameOf ctx.layout) source.init loose last A)
  (shows : Shows (contextOf source ctx).storage top A s) (split : s.stack = younger ++ act :: older)

include h sound sane shows split

theorem Live.link
    (live : Live (contextOf source ctx) (frameOf ctx.layout) source.init top A.store older.length Γ
      act) :
    s.machine.memory.load act.record.low = .ok (linkOf ctx.layout Γ older) := by
  obtain ⟨a, ha, head, -, record⟩ := live.level sound
  obtain ⟨Δ, rfl⟩ := List.head?_eq_some_iff.1 head
  obtain ⟨b, hb, -, outer⟩ := live.linked
  rw [ha] at hb
  cases hb
  rw [record, shows.memory.links ha]
  cases Δ with
  | nil =>
    cases link : a.link with
    | none => rfl
    | some j =>
      rw [link] at outer
      cases outer
  | cons l Δ =>
    obtain ⟨j, b, other, hj, -, -, found, record'⟩ :=
      live.outward h sound sane shows split (show (a.level :: l :: Δ)[0 + 1]? = some l from rfl)
    have link : a.link = some j := by simpa [follow, ha] using hj
    simp [linkOf, linkWord, link, found, record']

/-- A step leaves the record and the static link of an activation alone that stays live. -/
theorem link_stays
    (sane' : Sane (contextOf source ctx) (frameOf ctx.layout) source.init loose last' A')
    (shows' : Shows (contextOf source ctx).storage top A' s') {r : Option Value}
    {budget : Option Nat} (turn : Linear.Turn budget s (.ok r s'))
    (split' : s'.stack = younger' ++ act' :: older') (length : older'.length = older.length) :
    act'.record = act.record ∧ ∃ link, s.machine.memory.load act.record.low = .ok link ∧
      s'.machine.memory.load act.record.low = .ok link := by
  obtain ⟨first, rest⟩ := List.cons.inj (turn.older split split' length)
  obtain ⟨frame, saved⟩ := Prod.mk.inj first
  have record : act'.record = act.record := by simp only [Linear.Activation.record, frame, saved]
  obtain ⟨Γ, live⟩ := sane.live shows split
  obtain ⟨Γ', live'⟩ := sane'.live shows' split'
  obtain ⟨a, -, head, framed, -⟩ := live.level sound
  obtain ⟨a', -, head', framed', -⟩ := live'.level sound
  obtain ⟨Δ, rfl⟩ := List.head?_eq_some_iff.1 head
  obtain ⟨Δ', rfl⟩ := List.head?_eq_some_iff.1 head'
  have scope := scope_of_known h live.known
  have scope' := scope_of_known h live'.known
  -- the frame tells in which functions the code stands
  have runs :=
    (runsAt_iff h scope' scope (frame ▸ framed')).1 ((runsAt_iff h scope scope framed).2 rfl)
  obtain ⟨level, outer⟩ := List.cons.inj (h.scope_unique scope scope' runs)
  refine ⟨record, _, live.link h sound sane shows split, ?_⟩
  rw [← record, live'.link h sound sane' shows' split']
  simp only [linkOf, level, outer, record_find?_congr rest]

end

end PinsBackend.Safety

namespace PinsBackend

open Ir Kinds Safety
open Syntax (Env Level)

theorem Linear.Visits.next {C : LinearProgram} {budget : Option Nat} {machine : Machine}
    {s s' : Linear.State} (h : Linear.Visits C budget machine s)
    (step : Linear.step C budget s = .ok none s') :
    Linear.Visits C budget machine s' := by
  cases h with
  | init static passes => exact .init static (.next passes step)
  | entry static before returns passes => exact .entry static before returns (.next passes step)

/-- **Memory safety.** No address of a compiled program is invalid. Every store that is executed
writes one word of a declared variable, an element store one of the array that is indexed, and none
of them the static link of a live activation. So a static link stays what it is as long as its
activation lives. -/
theorem stores_stay_in_variables {parsed : Parsed} {options : Options} {comp : Compilation}
    {C : LinearProgram} (program : Compiled parsed options comp C) {layout : Layout}
    (laid : comp.layout = some layout) {words : Nat} {sink : Sink} {machine : Machine}
    (start : Machine.start words sink = .ok machine) (budget : Option Nat) :
    (∀ fuel function address last,
      Linear.run C budget fuel machine ≠ .error (.fault ⟨function, .invalidAddress address⟩) last) ∧
    (∀ {s s' act callers a e rest r}, Linear.Visits C budget machine s → s.stack = act :: callers →
      act.rest = .move (.mem a) e :: rest → Linear.step C budget s = .ok r s' →
      ∃ n v d region, Linear.eval s.machine.memory act.temps a = .ok (.int n) ∧
        Linear.eval s.machine.memory act.temps e = .ok v ∧
        Memory.store n.toInt v s.machine.memory = .ok () s'.machine.memory ∧
        Stored parsed.arena.source (tablesOf parsed.arena.source layout) s d region ∧
        Targets s.machine.memory act.temps region a n.toInt ∧
        ∀ other ∈ s.stack, n.toInt ≠ other.record.low) ∧
    (∀ {s s' younger act older younger' act' older'}, Linear.Visits C budget machine s →
      Linear.step C budget s = .ok none s' → s.stack = younger ++ act :: older →
      s'.stack = younger' ++ act' :: older' → older'.length = older.length →
      act'.record = act.record ∧ ∃ link, s.machine.memory.load act.record.low = .ok link ∧
        s'.machine.memory.load act.record.low = .ok link) := by
  obtain ⟨t, k, l, c, analysed, sound, entry⟩ := program.analysed laid
  obtain ⟨small, rfl⟩ := Machine.start_eq_ok.1 start
  have fits := Word.fits_of_le_blockLimit small
  refine ⟨fun fuel function address last run => ?_, fun visited stack code step => ?_,
    fun visited step split split' length => ?_⟩
  · rcases run_alike sound id budget fuel entry (Nat.le_refl words) fits fits sink with
      ⟨crash, last, run', lacks⟩ | ⟨-, possible⟩
    · rw [run] at run'
      cases run'
      cases lacks
    · cases possible _ _ run
  · obtain ⟨last, A, sane, shows⟩ := visits_sane sound id entry fits visited
    obtain ⟨n, v, address, value, stored⟩ := step_store stack code step
    obtain ⟨d, region, declared, targets, links⟩ :=
      store_targets analysed sound sane shows stack code address
    exact ⟨n, v, d, region, address, value, stored, declared, targets, links⟩
  · obtain ⟨last, A, sane, shows⟩ := visits_sane sound id entry fits visited
    obtain ⟨last', A', sane', shows'⟩ := visits_sane sound id entry fits (visited.next step)
    exact link_stays analysed sound sane shows split sane' shows' (Linear.step_turn step)
      split' length

theorem stores_stay_in_variables_bumpElement :
    ∃ comp C layout machine s s' act base i e rest n d region b, Compiled bumpElement {} comp C ∧
      comp.layout = some layout ∧ Machine.start 16 {} = .ok machine ∧
        Linear.Visits C none machine s ∧
      s.stack = [act] ∧ act.rest = .move (.mem (Lowering.elementExpr base i 2 8)) e :: rest ∧
      Linear.step C none s = .ok none s' ∧
      Stored bumpElement.arena.source (tablesOf bumpElement.arena.source layout) s d region ∧
      Linear.eval s.machine.memory act.temps (Lowering.elementExpr base i 2 8) = .ok (.int n) ∧
      Linear.eval s.machine.memory act.temps base = .ok (.int b) ∧
      (⟨b.toInt, b.toInt + 2 * 8⟩ : Memory.Region).Inside region.low region.high ∧
      (⟨n.toInt, n.toInt + Word.bytes⟩ : Memory.Region).Inside b.toInt (b.toInt + 2 * 8) := by
  have checked : bumpElement.arena.IsTree ∧ ∃ code ∈ bumpElement.code? {},
      ∃ s ∈ Linear.visited? code.2 none (Machine.create 16 {}) 0 1,
        s.stack.map (fun act => act.rest.head?) = [some (.move (.mem (Lowering.elementExpr
          (.binop .add (.temp Temp.fp) (.int 8)) (.int 1) 2 8)) (.temp 2))] ∧
        value? (Linear.step code.2 none s) = some none := by decide +kernel
  obtain ⟨tree, ⟨P, C⟩, code, s, visited, heads, stepped⟩ := checked
  obtain ⟨comp, compiled, -, linear⟩ := code?_eq_some code
  obtain ⟨layout, -, laid, -⟩ := accepted_with_layout compiled linear
  have program : Compiled bumpElement {} comp C :=
    ⟨tree, ⟨23, by decide, 22, 21, rfl⟩, compiled, linear⟩
  have start : Machine.start 16 {} = .ok (.create 16 {}) := Machine.start_eq_ok.2 ⟨by decide, rfl⟩
  have visits := Linear.visits_of_visited? visited
  obtain ⟨s', step⟩ := value?_eq_some stepped
  obtain ⟨act, callers, stack, head, alone⟩ := List.map_eq_cons_iff.1 heads
  obtain rfl := List.map_eq_nil_iff.1 alone
  obtain ⟨rest, left⟩ := List.head?_eq_some_iff.1 head
  obtain ⟨n, v, d, region, address, -, -, stored, targets, -⟩ :=
    (stores_stay_in_variables program laid start none).2.1 visits stack left step
  obtain ⟨b, base, array, word⟩ := targets.element _ _ 2 8 (by decide) rfl
  exact ⟨comp, C, layout, _, s, s', act, _, _, _, rest, n, d, region, b, program, laid, start,
    visits, stack,
    left, step, stored, address, base, array, word⟩

end PinsBackend
