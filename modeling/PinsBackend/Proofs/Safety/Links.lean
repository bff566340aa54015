import PinsBackend.Proofs.Machine.Stack
import PinsBackend.Proofs.Safety.Programs

/-! Static links in the states of a run.

The activations of a machine stand for those of a store, record by record. So static links lead from
the record of an activation to those of the functions around it, each time to the youngest one that
is older. -/
namespace PinsBackend.Safety

open Ir Kinds
open Meaning (Place Datum Activation Store)
open Syntax (Env Level Source)

/-! ## Activations of the machine -/

/-- An activation of the machine with `k` older ones, and the functions around its code. -/
structure Live (K : Context) (frame : Level → Frame) (init : Level) (top : Int) (σ : Store)
    (k : Nat) (Γ : Env) (act : Linear.Activation) : Prop where
  known : Γ = [init] ∨ ∃ label r, K.routine label r ∧ Γ = r.env
  framed : ∀ l ∈ Γ.head?, act.chunk.frame = frame l
  linked : Linked σ.stack (some k) Γ
  saved : act.saved = ⟨edge K.storage top σ.stack k, edge K.storage top σ.stack k⟩

section

variable {stack : List Activation} {Γ : Env} {as : List Act} {bs older : List Linear.Activation}

variable {K : Context} {frame : Level → Frame} {init : Level} {C : LinearProgram} {loose : Prop}
  {last : Option Value.Kind} {top : Int} {σ : Store} {s : Linear.State} {act : Linear.Activation}

theorem Linked.of_take {n : Nat} {k : Option Nat} (h : Linked (stack.take n) k Γ) :
    Linked stack k Γ := by
  have longer : Linked (stack.take n ++ stack.drop n) k Γ := h.append
  rwa [List.take_append_drop] at longer

theorem ShowsActs.length {S : Storage} (h : ShowsActs S top stack as bs) :
    as.length = bs.length := by
  induction as generalizing bs with
  | nil =>
    cases bs with
    | nil => rfl
    | cons => cases h
  | cons a as ih =>
    cases bs with
    | nil => cases h
    | cons b bs => exact congrArg (· + 1) (ih h.2)

theorem live_of_acts {w : Option (Temp × Value.Kind)} {younger : List Linear.Activation}
    (stacked : Stacked K frame init loose last σ.stack w as)
    (shows : ShowsActs K.storage top σ.stack as bs) (le : as.length ≤ σ.stack.length)
    (split : bs = younger ++ act :: older) :
    ∃ Γ, Live K frame init top σ older.length Γ act := by
  induction younger generalizing w as bs with
  | nil =>
    subst split
    cases as with
    | nil => cases shows
    | cons a as =>
      obtain ⟨result, -, ⟨Γ, κ, Ψ, D, D', runs⟩, -⟩ := stacked
      obtain ⟨n, count, linked⟩ := runs.linked
      have length : as.length = older.length := shows.2.length
      have le : as.length + 1 ≤ σ.stack.length := le
      obtain rfl : as.length = n := by
        rw [List.length_take, Nat.min_eq_left le] at count
        exact Nat.succ.inj count
      refine ⟨Γ, runs.known, fun l hl => ?_, length ▸ linked.of_take, length ▸ shows.1.saved⟩
      rw [shows.1.chunk]
      exact runs.framed l hl
  | cons b younger ih =>
    subst split
    cases as with
    | nil => cases shows
    | cons a as =>
      obtain ⟨result, -, -, rest⟩ := stacked
      exact ih rest shows.2 (Nat.le_of_succ_le le) rfl

/-- What an activation of the machine stands for. -/
theorem Sane.live {A : Config} (sane : Sane K frame init loose last A)
    (shows : Shows K.storage top A s) {younger : List Linear.Activation}
    (split : s.stack = younger ++ act :: older) :
    ∃ Γ, Live K frame init top A.store older.length Γ act :=
  live_of_acts sane.acts shows.acts (Nat.le_of_eq sane.length) split

theorem recorded_of_known (sound : Sound K frame init C) {l : Level}
    (known : l :: Γ = [init] ∨ ∃ label r, K.routine label r ∧ l :: Γ = r.env) :
    Recorded K.storage (frame l) l := by
  rcases known with eq | ⟨label, r, hr, eq⟩
  · cases eq
    exact sound.initRecord
  · cases eq
    exact sound.record hr

/-- The bytes of a record are those that the storage plans. -/
theorem recordBytes_eq {S : Storage} {fr : Frame} {l : Level} (h : Recorded S fr l) :
    fr.recordBytes = S.size l := by
  have pos : Word.bytes ≤ S.size l := h.tiled.le
  have nonneg : 0 ≤ S.size l := by
    simp only [Word.bytes] at pos
    omega
  rw [Frame.recordBytes, h.size, Int.max_eq_left nonneg]
  exact Word.rounded_eq (h.tiled.aligned (Int.dvd_refl _))

/-- The level of an activation, and where its record lies. -/
theorem Live.level (sound : Sound K frame init C) {k : Nat} (h : Live K frame init top σ k Γ act) :
    ∃ a, σ.stack[k]? = some a ∧ Γ.head? = some a.level ∧
      act.chunk.frame = frame a.level ∧
      act.record = ⟨edge K.storage top σ.stack (k + 1), edge K.storage top σ.stack k⟩ := by
  cases Γ with
  | nil => cases h.linked
  | cons l Γ =>
    obtain ⟨a, ha, rfl, -⟩ := h.linked
    have framed := h.framed a.level rfl
    refine ⟨a, ha, rfl, framed, ?_⟩
    rw [Linear.Activation.record, h.saved, framed, recordBytes_eq (recorded_of_known sound h.known),
      edge_succ ha]

end

/-! ## Following links -/

/-- Where so many static links lead from a record. -/
def linkedFrom (m : Memory) : Nat → Int → Except Fault Int
  | 0, fp => .ok fp
  | hops + 1, fp => do
    let link ← (← m.load fp).asInt
    linkedFrom m hops link.toInt

section

variable {S : Storage} {loose : Prop} {top : Int} {σ : Store} {m : Memory}

theorem follow_lt (links : ∀ {k : Nat} {a : Activation}, σ.stack[k]? = some a → ∀ j ∈ a.link, j < k)
    {hops k j : Nat} (hj : follow σ.stack (hops + 1) (some k) = some j) : j < k := by
  induction hops generalizing j with
  | zero =>
    obtain ⟨i, ⟨⟩, hj⟩ := Option.bind_eq_some_iff.1 hj
    obtain ⟨a, ha, link⟩ := Option.bind_eq_some_iff.1 hj
    exact links ha j link
  | succ hops ih =>
    obtain ⟨i, hi, hj⟩ := Option.bind_eq_some_iff.1 hj
    obtain ⟨a, ha, link⟩ := Option.bind_eq_some_iff.1 hj
    exact Nat.lt_trans (links ha j link) (ih hi)

theorem linkedFrom_eq (h : Represents S top σ m) (typed : Typed S loose σ) {hops k j : Nat}
    (hj : follow σ.stack hops (some k) = some j) :
    linkedFrom m hops (edge S top σ.stack (k + 1)) = .ok (edge S top σ.stack (j + 1)) := by
  induction hops generalizing k with
  | zero =>
    cases hj
    rfl
  | succ hops ih =>
    rw [follow_add] at hj
    cases hlink : follow σ.stack 1 (some k) with
    | none =>
      rw [hlink, follow_none] at hj
      cases hj
    | some i =>
      rw [hlink] at hj
      obtain ⟨_, ⟨⟩, hlink⟩ := Option.bind_eq_some_iff.1 hlink
      obtain ⟨a, ha, link⟩ := Option.bind_eq_some_iff.1 hlink
      have lt : i < σ.stack.length :=
        Nat.lt_trans (typed.links ha i link) (List.getElem?_eq_some_iff.1 ha).1
      have fits := h.fits_edge typed.laid (Nat.succ_le_of_lt lt)
      have word : m.load (edge S top σ.stack (k + 1)) =
          .ok (.ofInt (edge S top σ.stack (i + 1))) := by
        rw [h.links ha, link]
        rfl
      rw [linkedFrom, word]
      simp only [bind, Except.bind, Value.ofInt, Value.asInt, toInt_ofInt fits]
      exact ih hj

end

/-! ## The functions that activations run -/

/-- Holds of activations that run the code of a level of the program. -/
def runsAt (layout : Layout) (l : Level) (act : Linear.Activation) : Bool :=
  match l.function with
  | none => decide (act.chunk.frame = layout.init)
  | some f => decide (layout.frames.get? f = some act.chunk.frame)

section

variable {source : Source} {ctx : Lowering.Context} {t : Layout.Tables}
  {sort : NodeId → Syntax.NodeSort}
  {act : Linear.Activation} {l l' : Level} {Γ Γ' : Env}

theorem scope_of_known (h : Analysed source ctx t sort)
    (known : Γ = [source.init] ∨ ∃ label r, (contextOf source ctx).routine label r ∧ Γ = r.env) :
    source.Scope Γ := by
  rcases known with
    rfl | ⟨label, r, ⟨site, f, params, result, body, -, -, -, declared, level, -⟩, rfl⟩
  · exact .init
  · rw [Routine.env, level]
    exact .function (h.decl_facts declared).2.2.2.2.2.1 declared

theorem frame_of_level (h : Analysed source ctx t sort) (scope : source.Scope (l :: Γ)) :
    l.function = none ∧ frameOf ctx.layout l = ctx.layout.init ∨
      ∃ f, l.function = some f ∧ ctx.layout.frames.get? f = some (frameOf ctx.layout l) := by
  cases scope with
  | init => exact .inl ⟨rfl, rfl⟩
  | @function _ site _ params _ body _ declared =>
    obtain ⟨frame, hf, -⟩ := (h.decl_facts declared).2.2.2.2.1
    rw [h.describes.frame] at hf
    refine .inr ⟨site.id, rfl, ?_⟩
    rw [hf, frameOf, Syntax.Decl.level]
    simp [hf]

/-- Labels tell the frames of functions apart. -/
theorem runsAt_iff (h : Analysed source ctx t sort) (scope : source.Scope (l :: Γ))
    (scope' : source.Scope (l' :: Γ')) (framed : act.chunk.frame = frameOf ctx.layout l) :
    runsAt ctx.layout l' act = true ↔ l'.function = l.function := by
  have initial : ctx.layout.init.label = Frame.initLabel := by
    have label := h.describes.init.label
    rwa [if_pos rfl] at label
  have other {f : NodeId} {frame : Frame} (hf : ctx.layout.frames.get? f = some frame) : frame ≠
      ctx.layout.init := by
    rintro rfl
    rw [← h.describes.frame] at hf
    exact h.describes.notInit hf initial
  unfold runsAt
  rcases frame_of_level h scope with ⟨none, own⟩ | ⟨f, some, own⟩
  · rcases frame_of_level h scope' with ⟨none', -⟩ | ⟨f', some', own'⟩
    · simp [none, none', framed, own]
    · simp only [none, some', framed, own, decide_eq_true_eq, reduceCtorEq, iff_false]
      exact fun hf => other hf rfl
  · rcases frame_of_level h scope' with ⟨none', -⟩ | ⟨f', some', own'⟩
    · simp only [none', some, framed, decide_eq_true_eq, reduceCtorEq, iff_false]
      exact other own
    · simp only [some', some, framed, decide_eq_true_eq, Option.some.injEq]
      constructor
      · intro hf
        rw [← h.describes.frame] at hf own
        exact h.describes.labels hf own rfl
      · rintro rfl
        exact own

end

/-! ## Links of a state -/

theorem exists_split {α : Type} {xs : List α} {n : Nat} (h : n < xs.length) :
    ∃ front x back, xs = front ++ x :: back ∧ back.length = n := by
  induction xs with
  | nil => cases h
  | cons y xs ih =>
    by_cases last : n = xs.length
    · exact ⟨[], y, xs, rfl, last.symm⟩
    · obtain ⟨front, x, back, rfl, length⟩ := ih (by simp only [List.length_cons] at h; omega)
      exact ⟨y :: front, x, back, rfl, length⟩

section

variable {source : Source} {ctx : Lowering.Context} {t : Layout.Tables}
  {sort : NodeId → Syntax.NodeSort}
  {C : LinearProgram} {loose : Prop} {last : Option Value.Kind} {top : Int} {A : Config}
    {s : Linear.State}
  {younger older : List Linear.Activation} {act : Linear.Activation} {Γ : Env}

/-- Links lead to the youngest activation of a function around, among those that are older. -/
theorem Live.outward (h : Analysed source ctx t sort)
    (sound : Sound (contextOf source ctx) (frameOf ctx.layout) source.init C)
    (sane : Sane (contextOf source ctx) (frameOf ctx.layout) source.init loose last A)
    (shows : Shows (contextOf source ctx).storage top A s)
    (split : s.stack = younger ++ act :: older)
    (live : Live (contextOf source ctx) (frameOf ctx.layout) source.init top A.store older.length Γ
      act) {hops : Nat} {l : Level} (level : Γ[hops + 1]? = some l) :
    ∃ j a other, follow A.store.stack (hops + 1) (some older.length) = some j ∧
      A.store.stack[j]? = some a ∧ a.level = l ∧ older.find? (runsAt ctx.layout l) = some other ∧
      other.record = ⟨edge (contextOf source ctx).storage top A.store.stack (j + 1),
        edge (contextOf source ctx).storage top A.store.stack j⟩ := by
  obtain ⟨j, a, hj, ha, rfl⟩ := live.linked.level level
  have lt := follow_lt sane.typed.links hj
  obtain ⟨between, other, elder, rfl, rfl⟩ := exists_split lt
  -- what an activation at some place among the older ones runs
  have inside {front back : List Linear.Activation} {x : Linear.Activation}
      (hx : between ++ other :: elder = front ++ x :: back) : ∃ Δ b, source.Scope (b.level :: Δ) ∧
        A.store.stack[back.length]? = some b ∧ x.chunk.frame = frameOf ctx.layout b.level ∧
        x.record = ⟨edge (contextOf source ctx).storage top A.store.stack (back.length + 1),
          edge (contextOf source ctx).storage top A.store.stack back.length⟩ := by
    obtain ⟨Δ, live⟩ :=
      sane.live shows (show s.stack = (younger ++ act :: front) ++ x :: back by simp [split, hx])
    obtain ⟨b, hb, head, framed, record⟩ := live.level sound
    have scope := scope_of_known h live.known
    cases Δ with
    | nil => cases head
    | cons l Δ =>
      cases head
      exact ⟨Δ, b, scope, hb, framed, record⟩
  obtain ⟨Δ, b, scope, hb, framed, record⟩ := inside rfl
  rw [ha] at hb
  cases hb
  refine ⟨elder.length, a, other, hj, ha, rfl, ?_, record⟩
  rw [List.find?_eq_some_iff_append]
  refine ⟨(runsAt_iff h scope scope framed).2 rfl, between, elder, rfl, fun x mem => ?_⟩
  obtain ⟨front, back, rfl⟩ := List.append_of_mem mem
  have place : front ++ x :: back ++ other :: elder = front ++ x ::
    (back ++ other :: elder) := by simp
  obtain ⟨Δ', c, scope', hc, framed', -⟩ := inside place
  have above : elder.length < (back ++ other :: elder).length := by
    simp only [List.length_append, List.length_cons]
    omega
  have below : (back ++ other :: elder).length < (front ++ x :: back ++ other :: elder).length := by
    simp only [List.length_append, List.length_cons]
    omega
  have differ :=
    sane.recent.youngest (live.linked.lt _ rfl) (Nat.succ_pos hops) hj above below hc ha
  rw [Bool.not_eq_true', ← Bool.not_eq_true, runsAt_iff h scope' scope framed']
  exact differ.symm

/-- What is known of a name that stands for a variable of a function around. -/
theorem outer_access (h : Analysed source ctx t sort) {site : Syntax.Site} {x : String}
    (facts : (found source ctx t sort).expr Γ (.name site x)) {hops : Nat} {offset : Int}
    (access : ctx.layout.accesses.get? site.id = some (.outer hops offset)) :
    ∃ d l, ctx.bindings.get? site.id = some (.decl d) ∧ 0 < hops ∧ Γ[hops]? = some l ∧
      d ∈ l.variables ∧
      ctx.layout.accesses.get? d = some (.here offset) ∧ (contextOf source ctx).storage.offset d =
        offset := by
  obtain ⟨-, -, ⟨d, bound, reach, -⟩, -,
    ⟨d', owner, own, access', bound', howner, hown, hreach, haccess⟩, scope, -⟩ :=
    facts
  rw [bound] at bound'
  cases bound'
  rw [h.describes.access, access] at haccess
  cases haccess
  rcases reach with global | ⟨i, l, hl, mem⟩
  · rw [h.global_access global] at hown
    cases hown
    cases hreach
  · obtain ⟨owner', own'⟩ := h.slot_access scope hl mem
    rw [owner'] at howner
    rw [own'] at hown
    cases howner
    cases hown
    have inside : i < Γ.length := (List.getElem?_eq_some_iff.1 hl).1
    simp only [Layout.reach, show ¬ Γ.length < Γ.length - i by omega, ↓reduceIte] at hreach
    split at hreach
    · cases hreach
    · next ne =>
      simp only [Except.ok.injEq, Access.outer.injEq] at hreach
      obtain ⟨rfl, rfl⟩ := hreach
      have back : Γ.length - (Γ.length - i) = i := by omega
      rw [back]
      exact ⟨d, l, bound, by omega, hl, mem, h.describes.access ▸ own', rfl⟩

end

/-- The frame pointer of an activation: the register while it runs, otherwise what its callee saved.
-/
def framePointer (m : Memory) (younger : List Linear.Activation) : Int :=
  match younger.getLast? with
  | none => m.fp
  | some callee => callee.saved.fp

/-- Names of variables of functions around `Γ` lead to the words of the variable in the record of
the youngest activation of its function. -/
def namesLead (source : Source) (ctx : Lowering.Context) (m : Memory)
    (older : List Linear.Activation) (Γ : Env) :
    Syntax.Facts where
  expr Δ e :=
    match e with
    | .name site _ =>
      Δ = Γ → ∀ hops offset, ctx.layout.accesses.get? site.id = some (.outer hops offset) →
      ∃ d l other, ctx.bindings.get? site.id = some (.decl d) ∧ Γ[hops]? = some l ∧
        d ∈ l.variables ∧
        ctx.layout.accesses.get? d = some (.here offset) ∧ older.find? (runsAt ctx.layout l) =
          some other ∧
        (∀ p ts, ∃ address, Lowering.addressOf ctx site.id p = .ok address p ∧
          Linear.eval m ts address = .ok (.ofInt (other.record.low + offset))) ∧
        (⟨other.record.low + offset,
          other.record.low + offset + (storageOf source ctx.types ctx.layout).count d *
          Word.bytes⟩ :
            Memory.Region).Inside (other.record.low + Word.bytes) other.record.high
    | _ => True
  decl _ _ := True

section

variable {source : Source} {ctx : Lowering.Context} {t : Layout.Tables}
  {sort : NodeId → Syntax.NodeSort}
  {C : LinearProgram} {loose : Prop} {last : Option Value.Kind} {top : Int} {A : Config}
    {s : Linear.State}
  {younger older : List Linear.Activation} {act : Linear.Activation} {Γ : Env}
  (h : Analysed source ctx t sort)
  (sound : Sound (contextOf source ctx) (frameOf ctx.layout) source.init C)
  (sane : Sane (contextOf source ctx) (frameOf ctx.layout) source.init loose last A)
  (shows : Shows (contextOf source ctx).storage top A s) (split : s.stack = younger ++ act :: older)
  (live : Live (contextOf source ctx) (frameOf ctx.layout) source.init top A.store
    older.length Γ act)

include sound sane shows split live

theorem framePointer_eq : framePointer s.machine.memory younger = act.record.low := by
  obtain ⟨a, ha, -, -, record⟩ := live.level sound
  rw [record, framePointer]
  cases younger using List.reverseRecOn with
  | nil =>
    have length : A.store.stack.length = older.length + 1 := by
      rw [← sane.length, shows.acts.length, split]
      rfl
    simp [shows.memory.fp, length]
  | append_singleton front callee =>
    have split' : s.stack = front ++ callee :: (act :: older) := by simp [split]
    obtain ⟨Δ, waiting⟩ := sane.live shows split'
    simp [waiting.saved]

include h

theorem names_lead (running : younger = []) :
    source.Everywhere (namesLead source ctx s.machine.memory older Γ) := by
  subst running
  refine h.nodes.zip h.nodes (fun Δ e facts _ => ?_) fun _ _ _ _ => trivial
  cases e with
  | name site x =>
    rintro rfl hops offset access
    obtain ⟨d, l, bound, pos, level, mem, own, rfl⟩ := outer_access h facts access
    obtain ⟨hops, rfl⟩ := Nat.exists_eq_add_of_lt pos
    rw [Nat.zero_add] at level access ⊢
    obtain ⟨j, a, other, hj, ha, rfl, found, record⟩ := live.outward h sound sane shows split level
    refine ⟨d, a.level, other, bound, level, mem, own, found, fun p ts => ?_, ?_⟩
    · refine ⟨_, by simp only [Lowering.addressOf, access]; rfl, ?_⟩
      have running : A.store.stack.length = older.length + 1 := by
        rw [← sane.length, shows.acts.length, split]
        rfl
      have base : Linear.eval s.machine.memory ts _ = _ :=
        eval_frameAt shows.memory sane.typed.laid running hj
      simp only [Linear.eval, base, bind, Except.bind, Expr.int, record]
      exact ofInt_add _ _
    · obtain ⟨low, high, -⟩ := (sane.typed.laid.records ha).inside mem
      have nonneg : 0 ≤ ((contextOf source ctx).storage.count d : Int) * Word.bytes :=
        Int.mul_nonneg (by omega) (by decide)
      have step : edge (contextOf source ctx).storage top A.store.stack (j + 1) = _ := edge_succ ha
      rw [contextOf_storage] at *
      simp only [Memory.Region.Inside, record]
      omega
  | _ => trivial

end

end PinsBackend.Safety

namespace PinsBackend

open Ir Kinds Safety
open Syntax (Env Level)

/-- What the machine may rely on, with the layout of the compilation. -/
theorem Compiled.analysed {parsed : Parsed} {options : Options} {comp : Compilation}
    {C : LinearProgram} (h : Compiled parsed options comp C) {layout : Layout}
    (laid : comp.layout = some layout) :
    ∃ t k l c, Analysed parsed.arena.source (tablesOf parsed.arena.source layout) t
      parsed.arena.sort ∧
      Sound (contextOf parsed.arena.source (tablesOf parsed.arena.source layout)) (frameOf layout)
        parsed.arena.source.init C ∧
      Outermost (contextOf parsed.arena.source (tablesOf parsed.arena.source layout))
        (frameOf layout)
        parsed.arena.source.init C C.entry (some k) l c := by
  obtain ⟨layout', t, k, l, c, laid', rest⟩ := h.sound
  obtain rfl : layout = layout' := Option.some.inj (laid.symm.trans laid')
  exact ⟨t, k, l, c, rest⟩

/-- **Static links lead to the functions around.** In every state of a run, `Γ` are the functions
that the code of a live activation stands in, its own first. So many links from its frame pointer is
the frame pointer of the youngest activation of that function among the older ones. From the running
activation, names reach the words of their variables this way. -/
theorem static_links_lead_outward {parsed : Parsed} {options : Options} {comp : Compilation}
    {C : LinearProgram} (program : Compiled parsed options comp C) {layout : Layout}
    (laid : comp.layout = some layout) {words : Nat} {sink : Sink} {machine : Machine}
    (start : Machine.start words sink = .ok machine) {budget : Option Nat} {s : Linear.State}
    (visited : Linear.Visits C budget machine s) {younger older : List Linear.Activation}
    {act : Linear.Activation} (live : s.stack = younger ++ act :: older) :
    framePointer s.machine.memory younger = act.record.low ∧
    ∃ Γ, parsed.arena.source.Scope Γ ∧ (∃ l, Γ.head? = some l ∧ runsAt layout l act = true) ∧
      (∀ Δ, parsed.arena.source.Scope Δ → (∃ l, Δ.head? = some l ∧ runsAt layout l act = true) →
        Δ = Γ) ∧
      act.chunk.frame.depth = Γ.length ∧
      (∀ h, 1 ≤ h → h ≤ act.chunk.frame.depth - 1 → ∃ l other, Γ[h]? = some l ∧
        older.find? (runsAt layout l) = some other ∧
        linkedFrom s.machine.memory h act.record.low = .ok other.record.low) ∧
      (younger = [] → parsed.arena.source.Everywhere
        (namesLead parsed.arena.source (tablesOf parsed.arena.source layout) s.machine.memory
          older Γ)) := by
  obtain ⟨t, k, l, c, analysed, sound, entry⟩ := program.analysed laid
  obtain ⟨small, rfl⟩ := Machine.start_eq_ok.1 start
  obtain ⟨last, A, sane, shows⟩ :=
    visits_sane sound id entry (Word.fits_of_le_blockLimit small) visited
  obtain ⟨Γ, stands⟩ := sane.live shows live
  obtain ⟨a, ha, head, framed, record⟩ := stands.level sound
  have scope := scope_of_known analysed stands.known
  have depth : act.chunk.frame.depth = Γ.length := by
    obtain ⟨name, frame⟩ := analysed.frame scope (List.head?_eq_getElem? .. ▸ head)
    exact framed ▸ frame.deep
  obtain ⟨Δ, rfl⟩ : ∃ Δ, Γ = a.level :: Δ := List.head?_eq_some_iff.1 head
  refine ⟨framePointer_eq sound sane shows live stands, _, scope,
    ⟨a.level, rfl, (runsAt_iff analysed scope scope framed).2 rfl⟩, ?_, depth, fun h low high => ?_,
    names_lead analysed sound sane shows live stands⟩
  · rintro Δ' scope' ⟨l', head', runs⟩
    obtain ⟨Δ', rfl⟩ := List.head?_eq_some_iff.1 head'
    exact analysed.scope_unique scope' scope ((runsAt_iff analysed scope scope' framed).1 runs)
  · obtain ⟨hops, rfl⟩ := Nat.exists_eq_add_of_le' low
    have lt : hops + 1 < (a.level :: Δ).length := by omega
    have level := List.getElem?_eq_getElem lt
    obtain ⟨j, b, other, hj, -, -, found, record'⟩ :=
      stands.outward analysed sound sane shows live level
    refine ⟨_, other, level, found, ?_⟩
    rw [record, record']
    exact linkedFrom_eq shows.memory sane.typed hj

/-- `f(3)`, where `f` stores its parameter in the variable `x` of the function around it. -/
def storeOutside : Parsed where
  arena :=
    { nodes := #[
        ⟨.point 2 11, .type (.atom .integer)⟩,
        ⟨.point 2 7, .decl (.var "x" 0 none)⟩,
        ⟨.point 3 14, .type (.atom .integer)⟩,
        ⟨.point 3 11, .decl (.param "n" 2)⟩,
        ⟨.point 3 24, .type (.atom .integer)⟩,
        ⟨.point 3 35, .expr (.name "x")⟩,
        ⟨.point 3 40, .expr (.name "n")⟩,
        ⟨.point 3 35, .expr (.assign 5 6)⟩,
        ⟨.point 3 43, .expr (.name "n")⟩,
        ⟨.point 3 34, .expr (.block [7, 8])⟩,
        ⟨.point 3 7, .decl (.function "f" [3] 4 9)⟩,
        ⟨.point 1 26, .expr (.literal (.integer 3))⟩,
        ⟨.point 1 24, .expr (.call "f" [11])⟩,
        ⟨.point 1 23, .expr (.scoped [1, 10] 12)⟩,
        ⟨.point 1 13, .type (.atom .integer)⟩,
        ⟨.point 1 1, .decl (.function "main" [] 14 13)⟩]
      definitions := [15] }

theorem static_links_lead_outward_storeOutside :
    ∃ comp C layout machine s act main, Compiled storeOutside {} comp C ∧
      comp.layout = some layout ∧
      Machine.start 16 {} = .ok machine ∧ Linear.Visits C none machine s ∧ s.stack = [act, main] ∧
      linkedFrom s.machine.memory 1 act.record.low = .ok main.record.low := by
  have checked : storeOutside.arena.IsTree ∧ ∃ code ∈ storeOutside.code? {},
      ∃ s ∈ Linear.visited? code.2 none (Machine.create 16 {}) 0 2,
        s.stack.map (fun act => act.chunk.frame.depth) = [2, 1] := by decide +kernel
  obtain ⟨tree, ⟨P, C⟩, code, s, visited, depths⟩ := checked
  obtain ⟨comp, compiled, -, linear⟩ := code?_eq_some code
  obtain ⟨layout, -, laid, -⟩ := accepted_with_layout compiled linear
  have program : Compiled storeOutside {} comp C :=
    ⟨tree, ⟨15, by decide, 14, 13, rfl⟩, compiled, linear⟩
  have start : Machine.start 16 {} = .ok (.create 16 {}) := Machine.start_eq_ok.2 ⟨by decide, rfl⟩
  have visits := Linear.visits_of_visited? visited
  obtain ⟨act, rest, stack, deep, depths⟩ := List.map_eq_cons_iff.1 depths
  obtain ⟨main, rest, rfl, -, none⟩ := List.map_eq_cons_iff.1 depths
  obtain rfl := List.map_eq_nil_iff.1 none
  have live : s.stack = [] ++ act :: [main] := stack
  obtain ⟨-, Γ, -, -, -, -, outward, -⟩ := static_links_lead_outward program laid start visits live
  obtain ⟨l, other, -, found, links⟩ := outward 1 (Nat.le_refl 1) (by rw [deep])
  obtain rfl : other = main := by simpa using List.mem_of_find?_eq_some found
  exact ⟨comp, C, layout, _, s, act, other, program, laid, start, visits, stack, links⟩

end PinsBackend
