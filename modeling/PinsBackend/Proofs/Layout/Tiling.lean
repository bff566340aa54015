import PinsBackend.Proofs.Layout.Nesting

/-! Frames are tiled.

The static link, the parameters and the variables of the blocks right inside a function take the
bytes of its frame, each byte once. -/
namespace PinsBackend

open Ir Kinds
open Syntax (Env Level Source)

/-- What lies in a frame. -/
inductive Slot where
  | link
  | parameter (index : Nat)
  | variable (d : NodeId)
  deriving DecidableEq, Repr

/-- The slot takes the bytes from one offset up to another. -/
inductive Slot.Takes (types : NodeTable Ty) (layout : Layout) : Slot → Int → Int → Prop
  | link : Takes types layout .link 0 8
  | parameter (index : Nat) : Takes types layout (.parameter index) (8 * (1 + index))
      (8 * (2 + index))
  | variable {d : NodeId} {offset words : Int} {τ : Ty}
      (access : layout.accesses.get? d = some (.here offset))
      (typed : types.get? d = some τ) (size : τ.sizeInWords = .ok words) :
    Takes types layout (.variable d) offset (offset + 8 * words)

/-- The slots that are held take the bytes of the frame, each byte once. -/
structure Frame.TiledBy (types : NodeTable Ty) (layout : Layout) (holds : Slot → Prop)
    (frame : Frame) :
    Prop where
  takes : ∀ s, holds s → ∃ low high, s.Takes types layout low high
  apart : ∀ s s' low high low' high', holds s → holds s' → s ≠ s' → s.Takes types layout low high →
    s'.Takes types layout low' high' → high ≤ low' ∨ high' ≤ low
  covers : ∀ b, 0 ≤ b ∧ b < frame.parametersSize + frame.localsSize ↔
    ∃ s low high, holds s ∧ s.Takes types layout low high ∧ low ≤ b ∧ b < high
  /-- The size of the frame is the number of these bytes, if a word can count them. -/
  size : ∀ n, frame.size = .ok n ↔
    Word.Fits (frame.parametersSize + frame.localsSize) ∧
      n = frame.parametersSize + frame.localsSize

/-- The slots of a function with so many parameters: the variables are those that stand right
inside. -/
def Arena.Holds (a : Arena) (function : Option NodeId) (parameters : Nat) : Slot → Prop
  | .link => True
  | .parameter index => index < parameters
  | .variable d => a.isVar d = true ∧ ∃ Δ, a.Within (function :: Δ) d

namespace Kinds

variable {d : NodeId}

variable {a : Arena} {ctx : Lowering.Context} {t : Layout.Tables} {sort : NodeId → Syntax.NodeSort}
  {Γ : Env} {l : Level}

variable (h : Analysed a.source ctx t sort)

include h

theorem Analysed.holds_variable_iff (tree : a.IsTree) (scope : a.source.Scope (l :: Γ)) {n : Nat} :
    a.Holds l.function n (.variable d) ↔ d ∈ l.locals := by
  constructor
  · rintro ⟨isVar, Δ, around⟩
    exact h.mem_locals_of_within tree scope isVar around
  · intro mem
    obtain ⟨isVar, around⟩ := (h.mem_locals_iff tree scope).1 mem
    exact ⟨isVar, _, around⟩

/-- Where a variable of a block lies. -/
theorem Analysed.variable_takes_iff (scope : a.source.Scope (l :: Γ)) (mem : d ∈ l.locals)
    {low high : Int} :
    (Slot.variable d).Takes ctx.types ctx.layout low high ↔
      low = (contextOf a.source ctx).storage.offset d ∧
        high = low + (contextOf a.source ctx).storage.count d * Word.bytes := by
  have access := (h.slot_access scope (i := 0) rfl (List.mem_append_right _ mem)).2
  rw [h.describes.access] at access
  obtain ⟨name, frame⟩ := h.frame scope (i := 0) rfl
  obtain ⟨words, sized⟩ := frame.locals.words_of_mem mem
  rw [← h.local_count scope mem sized]
  obtain ⟨τ, typed, size⟩ := sized
  constructor
  · rintro (_ | _ | @⟨_, offset, words', τ', access', typed', size'⟩)
    rw [access] at access'
    cases access'
    rw [typed] at typed'
    cases typed'
    rw [size] at size'
    cases size'
    refine ⟨rfl, ?_⟩
    simp only [Word.bytes]
    omega
  · rintro ⟨rfl, rfl⟩
    have takes := Slot.Takes.variable access typed size
    rwa [show 8 * words = words * Word.bytes from Int.mul_comm ..] at takes

/-- The variables of the blocks lie one after the other behind the parameters. -/
theorem Analysed.locals_tiled (scope : a.source.Scope (l :: Γ)) :
    Tiled (contextOf a.source ctx).storage.offset (contextOf a.source ctx).storage.count
      ((contextOf a.source ctx).storage.size l) (8 * (1 + l.params.length)) l.locals := by
  have record := h.recorded scope
  obtain ⟨mid, params, locals⟩ := record.tiled.split
  obtain ⟨stop, -⟩ := params.words record.params
  simp only [Word.bytes] at stop
  rwa [show 8 * (1 + (l.params.length : Int)) = mid by omega]

theorem Analysed.variable_inside (scope : a.source.Scope (l :: Γ)) (mem : d ∈ l.locals)
    {low high : Int} (takes : (Slot.variable d).Takes ctx.types ctx.layout low high) :
    8 * (1 + l.params.length) ≤ low ∧ high ≤ (contextOf a.source ctx).storage.size l := by
  obtain ⟨rfl, rfl⟩ := (h.variable_takes_iff scope mem).1 takes
  obtain ⟨low, high, -⟩ := (h.locals_tiled scope).inside mem
  exact ⟨low, high⟩

/-- Different slots of a function have nothing in common. -/
theorem Analysed.slots_apart (tree : a.IsTree) (scope : a.source.Scope (l :: Γ)) {s s' : Slot}
    {low high low' high' : Int} (holds : a.Holds l.function l.params.length s)
    (holds' : a.Holds l.function l.params.length s') (ne : s ≠ s')
    (takes : s.Takes ctx.types ctx.layout low high)
    (takes' : s'.Takes ctx.types ctx.layout low' high') : high ≤ low' ∨ high' ≤ low := by
  have inside {d : NodeId} {low high : Int}
    (holds : a.Holds l.function l.params.length (.variable d))
      (takes : (Slot.variable d).Takes ctx.types ctx.layout low high) : 8 * (1 + l.params.length) ≤
      low :=
    (h.variable_inside scope ((h.holds_variable_iff tree scope).1 holds) takes).1
  cases s with
  | link =>
    cases takes
    cases s' with
    | link => exact absurd rfl ne
    | parameter j => cases takes'; omega
    | «variable» e => have := inside holds' takes'; omega
  | parameter i =>
    have index : i < l.params.length := holds
    cases takes
    cases s' with
    | link => cases takes'; omega
    | parameter j =>
      have other : i ≠ j := fun same => ne (same ▸ rfl)
      cases takes'
      omega
    | «variable» e => have := inside holds' takes'; omega
  | «variable» d =>
    have behind := inside holds takes
    cases s' with
    | link => cases takes'; omega
    | parameter j =>
      have index : j < l.params.length := holds'
      cases takes'
      omega
    | «variable» e =>
      have mem := (h.holds_variable_iff tree scope).1 holds
      have mem' := (h.holds_variable_iff tree scope).1 holds'
      obtain ⟨rfl, rfl⟩ := (h.variable_takes_iff scope mem).1 takes
      obtain ⟨rfl, rfl⟩ := (h.variable_takes_iff scope mem').1 takes'
      exact (h.locals_tiled scope).apart mem mem' fun same => ne (same ▸ rfl)

/-- The bytes of a frame are those of the slots of its function. -/
theorem Analysed.slots_cover (tree : a.IsTree) (scope : a.source.Scope (l :: Γ)) {b : Int} :
    0 ≤ b ∧ b < (contextOf a.source ctx).storage.size l ↔
      ∃ s low high, a.Holds l.function l.params.length s ∧ s.Takes ctx.types ctx.layout low high ∧
        low ≤ b ∧ b < high := by
  have locals := h.locals_tiled scope
  constructor
  · rintro ⟨low, high⟩
    by_cases first : b < 8
    · exact ⟨.link, 0, 8, trivial, .link, low, first⟩
    by_cases second : b < 8 * (1 + l.params.length)
    · have index : (b / 8 - 1).toNat < l.params.length := by omega
      exact ⟨.parameter (b / 8 - 1).toNat, _, _, index, .parameter _, by omega, by omega⟩
    · obtain ⟨d, mem, inside⟩ := locals.covers (by omega) high
      exact ⟨.variable d, _, _, (h.holds_variable_iff tree scope).2 mem,
        (h.variable_takes_iff scope mem).2 ⟨rfl, rfl⟩, inside⟩
  · rintro ⟨s, low, high, holds, takes, above, below⟩
    have le := locals.le
    cases s with
    | link => cases takes; omega
    | parameter i =>
      have index : i < l.params.length := holds
      cases takes
      omega
    | «variable» d =>
      have := h.variable_inside scope ((h.holds_variable_iff tree scope).1 holds) takes
      omega

/-- The frame of a function is tiled. -/
theorem Analysed.frame_tiled (tree : a.IsTree) (scope : a.source.Scope (l :: Γ)) :
    (frameOf ctx.layout l).TiledBy ctx.types ctx.layout (a.Holds l.function l.params.length) := by
  constructor
  · intro s holds
    cases s with
    | link => exact ⟨_, _, .link⟩
    | parameter i => exact ⟨_, _, .parameter i⟩
    | «variable» d =>
      have mem := (h.holds_variable_iff tree scope).1 holds
      exact ⟨_, _, (h.variable_takes_iff scope mem).2 ⟨rfl, rfl⟩⟩
  · intro s s' low high low' high' holds holds' ne takes takes'
    exact h.slots_apart tree scope holds holds' ne takes takes'
  · intro b
    rw [(h.recorded scope).size]
    exact h.slots_cover tree scope
  · intro n
    exact Word.add_eq_ok

/-- The parameters lie in order behind the static link. -/
theorem Analysed.parameter_access (scope : a.source.Scope (l :: Γ)) {i : Nat} {p : NodeId}
    (hp : l.params[i]? = some p) :
    ctx.layout.accesses.get? p = some (.here (8 * (1 + i))) := by
  have record := h.recorded scope
  obtain ⟨mid, params, -⟩ := record.tiled.split
  have place := (params.words record.params).2 i p hp
  have mem : p ∈ l.variables := List.mem_append_left _ (List.mem_of_getElem? hp)
  rw [← h.describes.access, (h.slot_access scope (i := 0) rfl mem).2, place]
  simp only [Word.bytes, Option.some.injEq, Access.here.injEq]
  omega

/-- Every global has static data of the size of its type, in the order of the definitions. -/
theorem Analysed.global_sizes (tree : a.IsTree) :
    List.Forall₂ (fun d (g : Global) => ∃ x u init τ words, a.decl? d = some (.var x u init) ∧
      g.label = x ∧
        ctx.types.get? d = some τ ∧ τ.sizeInWords = .ok words ∧ g.size = 8 * words)
      (a.definitions.filter a.isVar) ctx.layout.globals := by
  have globals := h.describes.globals
  rw [a.source_vars tree, List.forall₂_map_left_iff] at globals
  have known : ∀ d ∈ a.definitions.filter a.isVar, d ∈ a.definitions ∧ a.isVar d = true :=
    fun d hd => List.mem_filter.1 hd
  refine ((List.forall₂_and_left _ _).2 ⟨known, globals⟩).imp ?_
  rintro d g ⟨⟨root, isVar⟩, site, x, type, init, eq, label, -, -, words, ⟨τ, typed, size⟩, bytes⟩
  obtain ⟨n, top⟩ := (Arena.Ready.root tree root).succ tree
  obtain ⟨x', u, init', node⟩ := a.isVar_iff.1 isVar
  rw [top, Arena.declTree, node] at eq
  cases eq
  exact ⟨_, u, init', τ, words, node, label, typed, size, by rw [bytes, Int.mul_comm]; rfl⟩

end Kinds

/-- The frames of a program are tiled, that of the code that sets the globals among them; the data
of a global takes the bytes of its type. -/
theorem frames_are_tiled {a : Arena} {layout : Layout} (program : a.LaidOut layout) :
    (∀ f name ps r b, a.Reached f → a.decl? f = some (.function name ps r b) →
      ∃ frame, layout.frames.get? f = some frame ∧
        frame.TiledBy (a.source.check a.source.resolve.bindings).types layout
          (a.Holds (some f) ps.length) ∧
        ∀ (i : Nat) p, ps[i]? = some p → layout.accesses.get? p = some (.here (8 * (1 + i)))) ∧
    layout.init.TiledBy (a.source.check a.source.resolve.bindings).types layout (a.Holds none 0) ∧
    List.Forall₂ (fun d (g : Global) => ∃ x u init τ words, a.decl? d = some (.var x u init) ∧
      g.label = x ∧
        (a.source.check a.source.resolve.bindings).types.get? d = some τ ∧
        τ.sizeInWords = .ok words ∧ g.size = 8 * words)
      (a.definitions.filter a.isVar) layout.globals := by
  obtain ⟨t, h⟩ := analysed_of_laid program.tree program.named program.typed program.laid
  refine ⟨?_, h.frame_tiled program.tree .init, h.global_sizes program.tree⟩
  intro f name ps r b reached node
  obtain ⟨Δ, around⟩ := reached.within
  obtain ⟨l, Γ, scope, env, rfl, laid⟩ := h.level_of_function program.tree around node
  obtain ⟨own, -⟩ := List.cons.inj env
  refine ⟨_, laid, ?_, fun i p hp => h.parameter_access scope hp⟩
  exact own ▸ h.frame_tiled program.tree scope

/-- The frame of `outer` has 32 bytes: the link, a parameter and an array of two words. -/
theorem frames_are_tiled_twoLevelsDown :
    ∃ layout frame, twoLevelsDown.LaidOut layout ∧ layout.frames.get? 12 = some frame ∧
      frame.size = .ok 32 ∧
      frame.TiledBy (twoLevelsDown.source.check twoLevelsDown.source.resolve.bindings).types layout
        (twoLevelsDown.Holds (some 12) 1) := by
  have checked : ∃ layout ∈ twoLevelsDown.layout?,
      ∃ frame ∈ layout.frames.get? 12, frame.size.toOption = some 32 := by
    decide +kernel
  obtain ⟨layout, laid, frame, own, size⟩ := checked
  have program := Arena.laidOut_of_mem laid
  obtain ⟨frame', own', tiled, -⟩ :=
    (frames_are_tiled program).1 12 _ _ _ _ ⟨12, by decide, .refl⟩ rfl
  have own : layout.frames.get? 12 = some frame := own
  have same : frame = frame' := Option.some.inj (own.symm.trans own')
  exact ⟨layout, frame, program, own, eq_ok_of_mem_toOption size, same ▸ tiled⟩

end PinsBackend
