import PinsBackend.Proofs.Layout.Placement
import PinsBackend.Proofs.Names.Free
import PinsBackend.Proofs.Typing.Rules
import Std.Data.String.ToNat

/-! Programs that have a layout.

In a program that is bound and typed, the only thing that can keep a variable from its place is that
offsets run out: the record of some function, or some type, takes more bytes than a word can count.
-/
namespace PinsBackend

namespace Syntax

/-- The bytes of a variable. -/
def bytesOf (types : NodeTable Ty) (d : NodeId) : Int :=
  (((types.get? d).map Ty.extent).getD 0 : Nat) * Word.bytes

/-- The bytes of variables that lie one after the other. -/
def storage (types : NodeTable Ty) : List NodeId → Int
  | [] => 0
  | d :: ds => bytesOf types d + storage types ds

/-- The bytes of the record of a function: its static link, its parameters and its variables. -/
def Level.bytes (types : NodeTable Ty) (l : Level) : Int :=
  (l.params.length + 1) * Word.bytes + storage types l.locals

/-- All sizes of a program can be counted in a word. -/
structure Source.Fits (types : NodeTable Ty) (source : Source) : Prop where
  type : ∀ {id τ}, types.get? id = some τ → Word.Fits (τ.extent * Word.bytes)
  level : ∀ {l Γ}, source.Scope (l :: Γ) → Word.Fits (l.bytes types)
  depth : ∀ {Γ}, source.Scope Γ → Γ.length < 18446744073709551615

theorem bytesOf_nonneg (types : NodeTable Ty) (d : NodeId) : 0 ≤ bytesOf types d := by
  unfold bytesOf Word.bytes
  omega

theorem storage_nonneg (types : NodeTable Ty) (ds : List NodeId) : 0 ≤ storage types ds := by
  induction ds with
  | nil => exact Int.le_refl 0
  | cons d ds ih => exact Int.add_nonneg (bytesOf_nonneg types d) ih

theorem storage_append (types : NodeTable Ty) (ds es : List NodeId) :
    storage types (ds ++ es) = storage types ds + storage types es := by
  induction ds with
  | nil => simp [storage]
  | cons d ds ih => simp only [List.cons_append, storage, ih, Int.add_assoc]

end Syntax

namespace Layout

open Syntax

variable {l : String}

/-- The largest number of bytes that a word can count. -/
def limit : Int := 9223372036854775807

/-- The failure is an overflow, and a program whose sizes fit would have needed too many bytes. -/
def Exceeds (fits : Prop) (need : Int) (e : LayoutError) : Prop :=
  ∃ o, e = .overflow o ∧ (fits → limit < need)

theorem Exceeds.mono {fits : Prop} {need need' : Int} {e : LayoutError} (h : Exceeds fits need e)
    (le : need ≤ need') : Exceeds fits need' e := by
  obtain ⟨o, rfl, more⟩ := h
  exact ⟨o, rfl, fun hf => Int.lt_of_lt_of_le (more hf) le⟩

theorem fits_iff {n : Int} (h : 0 ≤ n) : Word.Fits n ↔ n ≤ limit := by
  unfold Word.Fits limit
  omega

/-! ## Labels -/

/-- The label of a nested function. -/
def nestedLabel (n : Nat) (name : String) : String := "L" ++ toString n ++ "." ++ name

theorem dot_not_mem_toString (n : Nat) : '.' ∉ (toString n).toList := by
  intro h
  have digits : (toString n).toList = Nat.toDigits 10 n := by simp [toString, Nat.repr]
  rw [digits] at h
  have digit := Nat.isDigit_of_mem_toDigits (b := 10) (by decide) (by decide) h
  cases digit

theorem nestedLabel_injective {n m : Nat} {x y : String} (h : nestedLabel n x = nestedLabel m y) :
    n = m := by
  have chars := congrArg String.toList h
  simp only [nestedLabel, String.toList_append, List.append_assoc] at chars
  have number (k : Nat) (z : String) :
      ((toString k).toList ++ (".".toList ++ z.toList)).takeWhile (· ≠ '.') =
        (toString k).toList := by
    rw [List.takeWhile_append_of_pos fun c hc => by
      simpa using fun same : c = '.' => dot_not_mem_toString k (same ▸ hc)]
    simp
  have digits := congrArg (List.takeWhile (· ≠ '.')) (List.append_cancel_left chars)
  rw [number, number] at digits
  exact Nat.repr_inj.1 (String.toList_inj.1 digits)

theorem dot_mem_nestedLabel (n : Nat) (name : String) : '.' ∈ (nestedLabel n name).toList := by
  simp [nestedLabel, String.toList_append]

theorem initLabel_ne (n : Nat) (name : String) : Frame.initLabel ≠ nestedLabel n name := by
  intro h
  have first := congrArg (fun s => s.toList.head?) h
  simp [Frame.initLabel, nestedLabel, String.toList_append] at first

/-- The labels given out are those of the top level and of the nested functions met so far. -/
structure Tidy (top : List String) (p : Plan) : Prop where
  plain : ∀ l ∈ top, ∀ n name, l ≠ nestedLabel n name
  labels : ∀ l ∈ p.labels, l ∈ top ∨ ∃ n name, n ≤ p.nested ∧ l = nestedLabel n name

variable {p p' : Plan} {name : String}

theorem Tidy.of_eq {top : List String} (h : Tidy top p) (labels : p'.labels = p.labels)
    (nested : p'.nested = p.nested) : Tidy top p' :=
  ⟨h.plain, by rw [labels, nested]; exact h.labels⟩

theorem nested_label {depth : Nat} (inner : depth ≠ 1) (h : label depth name p = .ok l p') :
    l = nestedLabel (p.nested + 1) name ∧ p'.nested = p.nested + 1 ∧ p'.labels = p.labels := by
  simp only [label, inner, ↓reduceIte, bind_eq_ok, modify_apply, get_apply, pure_eq_ok] at h
  obtain ⟨_, _, ⟨⟩, _, _, ⟨⟩, rfl, rfl⟩ := h
  exact ⟨rfl, rfl, rfl⟩

/-- A nested function gets a label that was not given out before. -/
theorem Tidy.nested {top : List String} {depth : Nat} (h : Tidy top p) (inner : depth ≠ 1)
    (hl : label depth name p = .ok l p') :
    l ∉ p'.labels ∧ ∀ {q : Plan}, q.labels = l :: p'.labels → q.nested = p'.nested →
      Tidy top q := by
  obtain ⟨rfl, nested, labels⟩ := nested_label inner hl
  rw [labels]
  constructor
  · intro mem
    rcases h.labels _ mem with mem | ⟨n, x, le, same⟩
    · exact h.plain _ mem _ _ rfl
    · have := nestedLabel_injective same
      omega
  · intro q hq hn
    refine ⟨h.plain, fun l hl => ?_⟩
    rw [hq] at hl
    rw [hn, nested]
    rcases List.mem_cons.1 hl with rfl | hl
    · exact .inr ⟨_, _, Nat.le_refl _, rfl⟩
    · exact (h.labels l hl).imp_right fun ⟨n, x, le, same⟩ => ⟨n, x, Nat.le_succ_of_le le, same⟩

/-- A function of the top level has its name for a label, which no other function has. -/
theorem Tidy.top {top : List String} (h : Tidy top p) (new : name ∉ top) (plain : '.' ∉ name.toList)
    (hl : label 1 name p = .ok l p') :
    l ∉ p'.labels ∧
      ∀ {q : Plan}, q.labels = l :: p'.labels → q.nested = p'.nested → Tidy (name :: top) q := by
  have other (n : Nat) (x : String) : name ≠ nestedLabel n x := by
    rintro rfl
    exact plain (dot_mem_nestedLabel n x)
  simp only [label, ↓reduceIte, pure_eq_ok] at hl
  obtain ⟨rfl, rfl⟩ := hl
  constructor
  · intro mem
    rcases h.labels _ mem with mem | ⟨n, x, -, same⟩
    · exact new mem
    · exact other n x same
  · intro q hq hn
    refine ⟨fun l hl => ?_, fun l hl => ?_⟩
    · rcases List.mem_cons.1 hl with rfl | hl
      · exact other
      · exact h.plain l hl
    · rw [hq] at hl
      rw [hn]
      rcases List.mem_cons.1 hl with rfl | hl
      · exact .inl (by simp)
      · exact (h.labels l hl).imp_left (List.mem_cons_of_mem _)

/-! ## Plans that go on -/

/-- A variable that code at the current depth can reach. -/
def Stored (p : Plan) (d : NodeId) : Prop :=
  ∃ owner access, p.tables.owner d = some owner ∧ p.tables.access d = some access ∧
    ((∃ l, access = .global l) ∨ ∃ offset, access = .here offset ∧ owner ≤ p.frame.depth)

theorem Stored.le {d : NodeId} (h : Stored p d) (le : p.tables.Le p'.tables)
    (deep : p.frame.depth ≤ p'.frame.depth) : Stored p' d := by
  obtain ⟨owner, access, howner, haccess, reach⟩ := h
  refine ⟨owner, access, le.owner howner, le.access haccess, reach.imp_right ?_⟩
  rintro ⟨offset, rfl, near⟩
  exact ⟨offset, rfl, Nat.le_trans near deep⟩

/-- A plan in which a piece with these nodes, which uses these variables, can be read. -/
structure Ready (depth : Nat) (top : List String) (ids free : List NodeId) (p : Plan) : Prop where
  depth : p.frame.depth = depth
  params : 0 ≤ p.frame.parametersSize
  locals : 0 ≤ p.frame.localsSize
  fresh : p.tables.Fresh ids
  stored : ∀ d ∈ free, Stored p d
  tidy : Tidy top p

/-- Reading a piece fails only if it needs more bytes than can be counted. -/
structure Safe (fits : Prop) (depth : Nat) (top top' : List String) (ids free : List NodeId)
    (need : Int) (x : PlanM Unit) : Prop where
  nonneg : 0 ≤ need
  fails : ∀ {p e p'}, Ready depth top ids free p → x p = .error e p' →
    Exceeds fits (stopOf p.frame + need) e
  works : ∀ {p p'}, Ready depth top ids free p → x p = .ok () p' →
    Tidy top' p' ∧ Grows ids p p' ∧ stopOf p'.frame = stopOf p.frame + need

section

variable {fits : Prop} {depth : Nat} {top top' top'' : List String}
  {ids ids' free free' : List NodeId}
  {need need' : Int} {x y : PlanM Unit} {p p' : Plan}

theorem Ready.mono (h : Ready depth top ids free p) (hi : ids' ⊆ ids) (hf : free' ⊆ free) :
    Ready depth top ids' free' p :=
  { h with fresh := h.fresh.mono hi, stored := fun d hd => h.stored d (hf hd) }

/-- What is left to read after a piece was read. -/
theorem Ready.after (h : Ready depth top (ids ++ ids') free p) (nodup : (ids ++ ids').Nodup)
    (grows : Grows ids p p') (stop : stopOf p'.frame = stopOf p.frame + need) (nonneg : 0 ≤ need)
    (tidy : Tidy top' p') : Ready depth top' ids' free p' := by
  have fresh := h.fresh.mono (List.subset_append_left ids ids')
  obtain ⟨localsSize, frame⟩ := grows.frame
  have locals := h.locals
  refine ⟨grows.same_depth.trans h.depth, ?_, ?_, ?_, fun d hd => ?_, tidy⟩
  · rw [frame]
    exact h.params
  · rw [frame] at stop ⊢
    simp only [stopOf] at stop ⊢
    omega
  · exact grows.outside.fresh (h.fresh.mono (List.subset_append_right _ _))
      (List.disjoint_of_nodup_append nodup)
  · exact (h.stored d hd).le (grows.outside.le fresh) (Nat.le_of_eq grows.same_depth.symm)

theorem Safe.pure : Safe fits depth top top ids free 0 (pure ()) := by
  refine ⟨Int.le_refl 0, fun _ h => (by cases h), fun ready h => ?_⟩
  cases h
  exact ⟨ready.tidy, .refl _ _, by omega⟩

theorem Safe.mono (h : Safe fits depth top top' ids free need x) (hi : ids ⊆ ids')
    (hf : free ⊆ free') :
    Safe fits depth top top' ids' free' need x := by
  refine ⟨h.nonneg, fun ready => h.fails (ready.mono hi hf), fun ready hx => ?_⟩
  obtain ⟨tidy, grows, stop⟩ := h.works (ready.mono hi hf) hx
  exact ⟨tidy, grows.mono hi, stop⟩

/-- One piece after another that places some of the variables it uses. -/
theorem Safe.scope (hx : Safe fits depth top top' ids free need x)
    (hy : Safe fits depth top' top'' ids' free' need' y) (nodup : (ids ++ ids').Nodup)
    (places : ∀ {p p'}, Ready depth top ids free p → x p = .ok () p' →
      ∀ d ∈ free', d ∈ free ∨ Stored p' d) :
    Safe fits depth top top'' (ids ++ ids') free (need + need') (do x; y) := by
  have left {p : Plan} (ready : Ready depth top (ids ++ ids') free p) :
    Ready depth top ids free p :=
    ready.mono (List.subset_append_left _ _) (List.Subset.refl _)
  have middle {p p₁ : Plan} (ready : Ready depth top (ids ++ ids') free p) (h : x p = .ok () p₁) :
      Ready depth top' ids' free' p₁ ∧ Grows ids p p₁ ∧
        stopOf p₁.frame = stopOf p.frame + need := by
    obtain ⟨tidy, grows, stop⟩ := hx.works (left ready) h
    have next := ready.after nodup grows stop hx.nonneg tidy
    refine ⟨{ next with stored := fun d hd => ?_ }, grows, stop⟩
    exact (places (left ready) h d hd).elim (next.stored d) id
  have nonneg := hx.nonneg
  have nonneg' := hy.nonneg
  refine ⟨by omega, fun ready h => ?_, fun ready h => ?_⟩
  · rcases bind_eq_error.1 h with h | ⟨_, p₁, h, h'⟩
    · exact (hx.fails (left ready) h).mono (by omega)
    · obtain ⟨next, -, stop⟩ := middle ready h
      exact (hy.fails next h').mono (by omega)
  · obtain ⟨_, p₁, h, h'⟩ := bind_eq_ok.1 h
    obtain ⟨next, grows, stop⟩ := middle ready h
    obtain ⟨tidy, grows', stop'⟩ := hy.works next h'
    exact ⟨tidy, (grows.mono (List.subset_append_left _ _)).trans
      (grows'.mono (List.subset_append_right _ _)), by omega⟩

/-- One piece after the other. -/
theorem Safe.seq (hx : Safe fits depth top top' ids free need x)
    (hy : Safe fits depth top' top'' ids' free' need' y) (nodup : (ids ++ ids').Nodup) :
    Safe fits depth top top'' (ids ++ ids') (free ++ free') (need + need') (do x; y) :=
  (hx.mono (List.Subset.refl _) (List.subset_append_left _ _)).scope hy nodup
    fun _ _ _ hd => .inl (List.mem_append_right _ hd)

theorem Safe.congr (h : Safe fits depth top top' ids free need x) (same : need = need')
    (eq : ∀ p : Plan, p.frame.depth = depth → y p = x p) :
    Safe fits depth top top' ids free need' y := by
  subst same
  refine ⟨h.nonneg, fun ready hy => ?_, fun ready hy => ?_⟩
  · rw [eq _ ready.depth] at hy
    exact h.fails ready hy
  · rw [eq _ ready.depth] at hy
    exact h.works ready hy

end

/-! ## Variables get their places -/

section

variable {l : String}

variable {ctx : Context} {source : Source} {p p' : Plan} {e : LayoutError} {o : Overflow}
  {depth index : Nat} {ds ps : List Decl} {Γ : Env}

theorem checked_eq_error {α : Type} {x : Except Overflow α} :
    checked x p = .error e p' ↔ ∃ o, x = .error o ∧ e = .overflow o ∧ p' = p := by
  unfold checked
  cases x <;> simp [eq_comm]

theorem wordsOf_eq_error {d : NodeId} {τ : Ty} (type : ctx.types.get? d = some τ)
    (data : τ.isData = true) (h : wordsOf ctx d p = .error e p') (need : Int) :
    Exceeds (source.Fits ctx.types) need e := by
  simp only [wordsOf, type, checked_eq_error] at h
  obtain ⟨o, size, rfl, -⟩ := h
  refine ⟨o, rfl, fun fits => ?_⟩
  rw [Ty.sizeInWords_eq_ok data (fits.type type)] at size
  cases size

theorem sizedBy_eq {d : NodeId} {τ : Ty} {w : Int} (type : ctx.types.get? d = some τ)
    (data : τ.isData = true) (h : SizedBy ctx.types d w) :
    w * Word.bytes = bytesOf ctx.types d := by
  obtain ⟨τ', type', size⟩ := h
  rw [type] at type'
  cases type'
  rw [Ty.sizeInWords_eq data size, bytesOf, type]
  rfl

theorem allocate_eq_error {f : Frame} {words : Int} (h : f.allocate words = .error o)
    (params : 0 ≤ f.parametersSize) (locals : 0 ≤ f.localsSize) (nonneg : 0 ≤ words * Word.bytes) :
    limit < stopOf f + words * Word.bytes := by
  refine Int.not_le.1 fun le => ?_
  unfold stopOf at le
  have size : Word.Fits (f.parametersSize + f.localsSize) := (fits_iff (by omega)).2 (by omega)
  have bytes : Word.Fits (words * Word.bytes) := (fits_iff (by omega)).2 (by omega)
  have both : Word.Fits (f.localsSize + words * Word.bytes) := (fits_iff (by omega)).2 (by omega)
  have found : f.allocate words = .ok (f.parametersSize + f.localsSize,
      { f with localsSize := f.localsSize + words * Word.bytes }) := by
    simp only [Frame.allocate, Frame.size, except_bind_eq_ok, Word.add_eq_ok, Word.mul_eq_ok]
    exact ⟨_, ⟨size, rfl⟩, _, ⟨bytes, rfl⟩, _, ⟨both, rfl⟩, rfl⟩
  rw [found] at h
  cases h

theorem placeLocals_eq_error : (ds : List Decl) → {p p' : Plan} →
    placeLocals ctx depth ds p = .error e p' →
    (∀ d ∈ ds, d.isVar = true → ∃ τ, ctx.types.get? d.id = some τ ∧ τ.isData = true) →
    0 ≤ p.frame.parametersSize → 0 ≤ p.frame.localsSize →
    Exceeds (source.Fits ctx.types) (stopOf p.frame + storage ctx.types (varIds ds)) e
  | [], _, _, h, _, _, _ => by cases h
  | .var site x type init :: ds, p, p', h, typed, params, locals => by
    obtain ⟨τ, hτ, data⟩ := typed (.var site x type init) (by simp) rfl
    have own : ctx.types.get? site.id = some τ := hτ
    have ids : storage ctx.types (varIds (.var site x type init :: ds)) =
        bytesOf ctx.types site.id + storage ctx.types (varIds ds) := rfl
    have rest := storage_nonneg ctx.types (varIds ds)
    rw [ids]
    simp only [placeLocals, bind_eq_error, get_apply, checked_eq_error, checked_eq_ok,
      modify_apply] at h
    rcases h with h | ⟨w, p₁, hw, h⟩
    · exact wordsOf_eq_error own data h _
    obtain ⟨sized, rfl⟩ := wordsOf_eq_ok hw
    have bytes := sizedBy_eq own data sized
    have nonneg := bytesOf_nonneg ctx.types site.id
    rcases h with h | ⟨_, _, ⟨⟩, h⟩
    · cases h
    rcases h with ⟨o, ho, rfl, -⟩ | ⟨⟨offset, frame⟩, _, ⟨hf, rfl⟩, h⟩
    · have := allocate_eq_error ho params locals (by omega)
      exact ⟨o, rfl, fun _ => by omega⟩
    obtain ⟨-, rfl, rfl⟩ := allocate_eq_ok hf
    rcases h with h | ⟨_, _, ⟨⟩, h⟩
    · cases h
    rcases h with h | ⟨_, _, ⟨⟩, h⟩
    · cases h
    refine (placeLocals_eq_error ds h (fun d hd => typed d (by simp [hd])) params ?_).mono ?_
    · simp only
      omega
    · simp only [stopOf]
      omega
  | .absent _ :: ds, _, _, h, typed, params, locals | .alias _ _ _ :: ds, _, _, h, typed,
      params, locals
  | .param _ _ _ :: ds, _, _, h, typed, params, locals
  | .function _ _ _ _ _ :: ds, _, _, h, typed, params, locals =>
    placeLocals_eq_error ds h (fun d hd => typed d (by simp [hd])) params locals

theorem placeLocals_labels : (ds : List Decl) → {p p' : Plan} →
    placeLocals ctx depth ds p = .ok () p' → p'.labels = p.labels ∧ p'.nested = p.nested
  | [], _, _, h => by
    cases h
    exact ⟨rfl, rfl⟩
  | .var site x type init :: ds, _, _, h => by
    simp only [placeLocals, bind_eq_ok, get_apply, modify_apply, checked_eq_ok] at h
    obtain ⟨w, _, hw, _, _, ⟨⟩, ⟨offset, frame⟩, _, ⟨-, rfl⟩, _, _, ⟨⟩, _, _, ⟨⟩, h⟩ := h
    obtain ⟨-, rfl⟩ := wordsOf_eq_ok hw
    have tail := placeLocals_labels ds h
    exact tail
  | .absent _ :: ds, _, _, h | .alias _ _ _ :: ds, _, _, h | .param _ _ _ :: ds, _, _, h
  | .function _ _ _ _ _ :: ds, _, _, h => placeLocals_labels ds h

theorem Placed.stop_eq {t : Tables} {a b : Int} {ds : List NodeId}
    (h : Placed t (SizedBy ctx.types) depth b a ds)
    (typed : ∀ d ∈ ds, ∃ τ, ctx.types.get? d = some τ ∧ τ.isData = true) :
    b = a + storage ctx.types ds := by
  induction ds generalizing a with
  | nil =>
    cases h
    simp [storage]
  | cons d ds ih =>
    obtain ⟨-, -, -, w, sized, rest⟩ := h
    obtain ⟨τ, type, data⟩ := typed d (by simp)
    have tail := ih rest fun d hd => typed d (by simp [hd])
    have bytes := sizedBy_eq type data sized
    rw [storage]
    omega

/-- Room for the variables of a block. -/
theorem placeLocals_safe {top : List String}
    (typed : ∀ d ∈ ds, d.isVar = true → ∃ τ, ctx.types.get? d.id = some τ ∧ τ.isData = true)
    (nodup : (varIds ds).Nodup) (free : List NodeId) :
    Safe (source.Fits ctx.types) depth top top (varIds ds) free (storage ctx.types (varIds ds))
      (placeLocals ctx depth ds) := by
  refine ⟨storage_nonneg _ _, fun ready h =>
    placeLocals_eq_error ds h typed ready.params ready.locals,
    fun ready h => ?_⟩
  obtain ⟨grows, places⟩ := placeLocals_eq_ok ds h ready.fresh nodup
  obtain ⟨labels, nested⟩ := placeLocals_labels ds h
  refine ⟨ready.tidy.of_eq labels nested, grows, places.stop_eq fun d hd => ?_⟩
  obtain ⟨var, mem, rfl⟩ := List.mem_map.1 hd
  exact typed var (List.mem_filter.1 mem).1 (List.mem_filter.1 mem).2

/-! ## Functions get their frames -/

theorem parameterOffset_eq_error (small : index ≤ parameterLimit)
    (h : Frame.parameterOffset index = .error o) : limit < (index + 1) * Word.bytes := by
  refine Int.not_le.1 fun le => ?_
  unfold parameterLimit at small
  have count : Word.ofCount index = index := ofCount_eq (by omega)
  have size : Word.Fits (1 + (index : Int)) := (fits_iff (by omega)).2 (by unfold limit; omega)
  have bytes : Word.Fits (Word.bytes * (1 + (index : Int))) := by
    refine (fits_iff ?_).2 ?_
    · simp only [Word.bytes]
      omega
    · rw [Int.mul_comm, Int.add_comm]
      exact le
  have found : Frame.parameterOffset index = .ok (Word.bytes * (1 + index)) := by
    simp only [Frame.parameterOffset, count, except_bind_eq_ok, Word.add_eq_ok, Word.mul_eq_ok]
    exact ⟨_, ⟨size, rfl⟩, bytes, rfl⟩
  rw [found] at h
  cases h

theorem placeParameters_eq_error (h : placeParameters depth index ps p = .error e p')
    (small : index ≤ parameterLimit) :
    ∃ o, e = .overflow o ∧ limit < (index + ps.length) * Word.bytes := by
  induction ps generalizing index p with
  | nil => cases h
  | cons d ps ih =>
    simp only [placeParameters, bind_eq_error, checked_eq_error, checked_eq_ok] at h
    simp only [List.length_cons, Int.natCast_add]
    have nonneg := Int.natCast_nonneg ps.length
    rcases h with ⟨o, ho, rfl, -⟩ | ⟨offset, _, ⟨ho, rfl⟩, h⟩
    · have more := parameterOffset_eq_error small ho
      simp only [Word.bytes] at more ⊢
      exact ⟨o, rfl, by omega⟩
    · rcases h with h | ⟨_, _, ⟨⟩, h⟩
      · cases h
      obtain ⟨-, -, small⟩ := parameterOffset_eq_ok small ho
      obtain ⟨o, rfl, more⟩ := ih h small
      simp only [Int.natCast_add] at more
      exact ⟨o, rfl, by simp only [Word.bytes] at more ⊢; omega⟩

theorem placeParameters_labels (h : placeParameters depth index ps p = .ok () p') :
    p'.labels = p.labels ∧ p'.nested = p.nested := by
  induction ps generalizing index p with
  | nil =>
    cases h
    exact ⟨rfl, rfl⟩
  | cons d ps ih =>
    simp only [placeParameters, bind_eq_ok, checked_eq_ok] at h
    obtain ⟨offset, _, ⟨-, rfl⟩, _, _, ⟨⟩, h⟩ := h
    have tail := ih h
    exact tail

theorem placeParameters_count (h : placeParameters depth index ps p = .ok () p')
    (small : index ≤ parameterLimit) : index + ps.length ≤ parameterLimit := by
  induction ps generalizing index p with
  | nil => exact small
  | cons d ps ih =>
    simp only [placeParameters, bind_eq_ok, checked_eq_ok] at h
    obtain ⟨offset, _, ⟨ho, rfl⟩, _, _, ⟨⟩, h⟩ := h
    have count := ih h (parameterOffset_eq_ok small ho).2.2
    rw [List.length_cons]
    omega

theorem create_eq_error {count : Nat} (small : count ≤ parameterLimit)
    (h : Frame.create l depth count = .error o) : limit < (count + 1) * Word.bytes := by
  simp only [Frame.create, except_bind_eq_error] at h
  rcases h with h | ⟨_, -, h⟩
  · exact parameterOffset_eq_error small h
  · cases h

theorem reserveLabel_nested (h : reserveLabel l p = .ok () p') : p'.nested = p.nested := by
  simp only [reserveLabel, bind_eq_ok, get_apply] at h
  obtain ⟨_, _, ⟨⟩, h⟩ := h
  split at h
  · cases h
  · cases h
    rfl

theorem reserveLabel_eq_error (h : reserveLabel l p = .error e p') : l ∈ p.labels := by
  simp only [reserveLabel, bind_eq_error, get_apply] at h
  rcases h with h | ⟨_, _, ⟨⟩, h⟩
  · cases h
  · split at h
    · assumption
    · cases h

/-- The labels that a function may get, by the function's depth, and those taken afterwards. -/
def Names (depth : Nat) (name : String) (top top' : List String) : Prop :=
  ∀ {p p' : Plan} {l : String}, Tidy top p → label depth name p = .ok l p' →
    l ∉ p'.labels ∧ ∀ {q : Plan}, q.labels = l :: p'.labels → q.nested = p'.nested → Tidy top' q

section

variable {B : NodeTable Binding} {Γ : Env} {site : Site} {name : String} {params : List Decl}
  {result : TypeExpr} {body : Expr} {depth : Nat} {top top' : List String}

/-- The plan in which the body of a function is read. -/
theorem Ready.enter
    (ready : Ready depth top (Decl.ids (.function site name params result body))
      (Decl.free B (.function site name params result body)) p)
    (nodup : (Decl.ids (.function site name params result body)).Nodup)
    (deep : depth ≤ Γ.length + 1) (named : Names (Γ.length + 1) name top top') {l : String}
    {p₁ p₂ p₃ : Plan} {frame : Frame} (hl : label (Γ.length + 1) name p = .ok l p₁)
    (hr : reserveLabel l p₁ = .ok () p₂)
    (hp : placeParameters (Γ.length + 1) 0 params p₂ = .ok () p₃)
    (hf : Frame.create l (Γ.length + 1) params.length = .ok frame) :
    Ready (Γ.length + 1) top' body.ids (body.free B) { p₃ with frame } ∧
      stopOf frame = (params.length + 1) * Word.bytes := by
  obtain ⟨-, tables₁, -, frame₁, -⟩ := label_eq_ok hl
  obtain ⟨-, tables₂, labels₂, frame₂, -⟩ := reserveLabel_eq_ok hr
  have tables : p₂.tables = p.tables := tables₂.trans tables₁
  have ids : Decl.ids (.function site name params result body) =
      site.id :: (params.flatMap Decl.ids ++ result.ids ++ body.ids) := by simp [Decl.ids]
  rw [ids] at nodup
  have fresh := ready.fresh
  rw [ids, ← tables] at fresh
  have inner := (List.nodup_cons.1 nodup).2
  have sub := (ids_sublist params).subset
  have nodup_params :=
    (List.nodup_append.1 (List.nodup_append.1 inner).1).1.sublist (ids_sublist params)
  have fresh_params : p₂.tables.Fresh (params.map Decl.id) := fresh.mono fun x hx => by
    simp [sub hx]
  obtain ⟨grows, -, small, places⟩ :=
    placeParameters_eq_ok hp (Nat.zero_le _) fresh_params nodup_params
  rw [Nat.zero_add] at small
  have frame_eq := create_eq_ok small hf
  have le : p₂.tables.Le p₃.tables := grows.outside.le fresh_params
  have apart : (params.map Decl.id).Disjoint body.ids := fun x hx hb =>
    List.disjoint_of_nodup_append inner (List.mem_append_left _ (sub hx)) hb
  obtain ⟨labels₃, nested₃⟩ := placeParameters_labels hp
  constructor
  · refine ⟨by rw [frame_eq], ?_, by rw [frame_eq], ?_, fun d hd => ?_, ?_⟩
    · rw [frame_eq]
      simp only [Word.bytes]
      omega
    · exact grows.outside.fresh (fresh.mono fun x hx => by simp [hx]) apart
    · -- a variable of the body is a parameter, or it was stored before
      by_cases own : d ∈ params.map Decl.id
      · obtain ⟨offset, owner, access⟩ := places.access own
        exact ⟨_, _, owner, access, .inr ⟨offset, rfl, by rw [frame_eq]⟩⟩
      · have outer := ready.stored d (by simpa [Decl.free, hd] using own)
        refine outer.le ?_ ?_
        · exact tables ▸ le
        · simp only [frame_eq]
          exact ready.depth ▸ deep
    · exact (named ready.tidy hl).2 (labels₃.trans labels₂) (nested₃.trans (reserveLabel_nested hr))
  · rw [frame_eq]
    simp [stopOf]

theorem label_ne_error : label depth name p ≠ .error e p' := by
  intro h
  by_cases one : depth = 1
  · simp only [label, one, ↓reduceIte] at h
    cases h
  · simp only [label, one, ↓reduceIte, bind_eq_error, modify_apply, get_apply] at h
    rcases h with h | ⟨_, _, -, h | ⟨_, _, -, h⟩⟩ <;> cases h

/-- A function whose record is too large is one of a program that does not fit. -/
theorem exceeds_of_level (scope : source.Scope (Decl.level site params body :: Γ)) {o : Overflow}
    (more : source.Fits ctx.types →
      limit < (params.length + 1) * Word.bytes + storage ctx.types body.locals) (need : Int) :
    Exceeds (source.Fits ctx.types) need (.overflow o) := by
  refine ⟨o, rfl, fun fits => ?_⟩
  have small := fits.level scope
  have large := more fits
  simp only [Level.bytes, Decl.level, List.length_map, Word.Fits, limit] at small large
  omega

/-- A function gets its frame, and its body is read there. -/
theorem function_safe {signatures : NodeTable Signature}
    (hc : Decl.Everywhere (complete signatures) Γ (.function site name params result body))
    (nodup : (Decl.ids (.function site name params result body)).Nodup)
    (deep : depth ≤ Γ.length + 1) (named : Names (Γ.length + 1) name top top')
    (scope : source.Scope (Decl.level site params body :: Γ))
    (inner : Safe (source.Fits ctx.types) (Γ.length + 1) top' top' body.ids (body.free ctx.bindings)
      (storage ctx.types body.locals) (expr ctx body)) :
    Safe (source.Fits ctx.types) depth top top' (Decl.ids (.function site name params result body))
      (Decl.free ctx.bindings (.function site name params result body)) 0
      (decl ctx (Γ.length + 1) (.function site name params result body)) := by
  have rest := storage_nonneg ctx.types body.locals
  refine ⟨Int.le_refl 0, fun {p e p'} ready h => ?_, fun {p p'} ready h => ?_⟩
  · simp only [decl, bind_eq_error, get_apply, checked_eq_error, checked_eq_ok, modify_apply] at h
    rcases h with h | ⟨l, p₁, hl, h⟩
    · exact absurd h label_ne_error
    rcases h with h | ⟨_, p₂, hr, h⟩
    · exact absurd (reserveLabel_eq_error h) (named ready.tidy hl).1
    rcases h with h | ⟨_, p₃, hp, h⟩
    · obtain ⟨o, rfl, more⟩ := placeParameters_eq_error h (Nat.zero_le _)
      refine exceeds_of_level scope (fun _ => ?_) _
      simp only [Word.bytes] at more ⊢
      omega
    rcases h with h | ⟨_, _, ⟨⟩, h⟩
    · cases h
    rcases h with ⟨o, ho, rfl, -⟩ | ⟨frame, _, ⟨hf, rfl⟩, h⟩
    · have small := placeParameters_count hp (Nat.zero_le _)
      rw [Nat.zero_add] at small
      have more := create_eq_error small ho
      exact exceeds_of_level scope (fun _ => by omega) _
    rcases h with h | ⟨_, _, ⟨⟩, h⟩
    · cases h
    obtain ⟨next, stop⟩ := ready.enter nodup deep named hl hr hp hf
    rcases h with h | ⟨_, _, hb, h⟩
    · obtain ⟨o, rfl, more⟩ := inner.fails next h
      rw [stop] at more
      exact exceeds_of_level scope more _
    · cases h
  · have read : Reads ctx _ _ _ Γ.length p p' := all_read.2 _ h hc (fun _ => rfl)
      (fun h => by cases h) ready.fresh nodup
    simp only [decl, bind_eq_ok, get_apply, checked_eq_ok, modify_apply] at h
    obtain ⟨l, p₁, hl, _, p₂, hr, _, p₃, hp, _, _, ⟨⟩, frame, _, ⟨hf, rfl⟩, _, _, ⟨⟩, _, p₅,
      hb, ⟨⟩⟩ := h
    obtain ⟨next, -⟩ := ready.enter nodup deep named hl hr hp hf
    obtain ⟨tidy, -, -⟩ := inner.works next hb
    refine ⟨tidy.of_eq rfl rfl, read.grows, ?_⟩
    have stop := read.places (.refl _)
    rw [Int.add_zero]
    exact Eq.symm stop

end

/-! ## Reading a program -/

/-- A name that is bound to a stored variable gets its access. -/
theorem nameRef_run {id d : NodeId} (bound : ctx.bindings.get? id = some (.decl d))
    (stored : Stored p d) :
    ∃ p', nameRef ctx id p = .ok () p' ∧ p'.labels = p.labels ∧ p'.nested = p.nested := by
  obtain ⟨owner, access, howner, haccess, near⟩ := stored
  have howner : p.owners[d]? = some owner := howner
  have haccess : p.layout.accesses.get? d = some access := haccess
  obtain ⟨access', reached⟩ : ∃ access', reach id d p.frame.depth owner access = .ok access' := by
    rcases near with ⟨l, rfl⟩ | ⟨offset, rfl, near⟩
    · exact ⟨_, rfl⟩
    · simp only [reach, Nat.not_lt.2 near, ↓reduceIte]
      split
      · exact ⟨_, rfl⟩
      · exact ⟨_, rfl⟩
  refine ⟨{ p with
    layout := { p.layout with accesses := p.layout.accesses.insert id access' } }, ?_,
    rfl, rfl⟩
  simp only [nameRef, bound, bind_apply, get_apply, howner, haccess, reached]
  rfl

theorem nameRef_safe {top : List String} {site : Site} {x : String}
    (bound : ∃ d, ctx.bindings.get? site.id = some (.decl d)) :
    Safe (source.Fits ctx.types) depth top top [site.id] (Expr.free ctx.bindings (.name site x)) 0
      (nameRef ctx site.id) := by
  obtain ⟨d, bound⟩ := bound
  have run {p : Plan}
    (ready : Ready depth top [site.id] (Expr.free ctx.bindings (.name site x)) p) :=
    nameRef_run bound (ready.stored d (by simp [Expr.free, bound, Binding.decl?]))
  refine ⟨Int.le_refl 0, fun ready h => ?_, fun ready h => ?_⟩
  · obtain ⟨_, ok, -⟩ := run ready
    rw [ok] at h
    cases h
  · obtain ⟨_, ok, labels, nested⟩ := run ready
    obtain ⟨grows, frame, -⟩ := nameRef_eq_ok h ready.fresh
    rw [ok] at h
    cases h
    exact ⟨ready.tidy.of_eq labels nested, grows, by rw [frame, Int.add_zero]⟩

/-- What is known of a program that is bound and typed. -/
def known (source : Source) (signatures : NodeTable Signature) (ctx : Context) : Facts :=
  (complete signatures).and ((bound source ctx.bindings).and
    ((wellTyped ctx.bindings ctx.types).and (listed source)))

variable {signatures : NodeTable Signature}

theorem var_typed {d : Decl} (h : (known source signatures ctx).decl Γ d) (isVar : d.isVar = true) :
    ∃ τ, ctx.types.get? d.id = some τ ∧ τ.isData = true := by
  cases d with
  | var site x type init =>
    cases init with
    | none => exact h.2.2.1
    | some init =>
      obtain ⟨τ, type, atomic, -⟩ := h.2.2.1
      exact ⟨τ, type, Ty.isData_of_isAtomic atomic⟩
  | _ => cases isVar

theorem complete_of_known {d : Decl} (h : d.Everywhere (known source signatures ctx) Γ) :
    d.Everywhere (complete signatures) Γ :=
  Decl.Everywhere.zip (F := known source signatures ctx) (G := known source signatures ctx)
    (fun _ _ hf _ => hf.1) (fun _ _ hf _ => hf.1) d h h

variable (ctx source signatures) in
def SafeExpr (e : Expr) : Prop :=
  ∀ (top : List String) ⦃Γ : Env⦄, e.Everywhere (known source signatures ctx) Γ → Γ.length ≠ 0 →
    e.ids.Nodup → Safe (source.Fits ctx.types) Γ.length top top e.ids (e.free ctx.bindings)
      (storage ctx.types e.locals) (expr ctx e)

variable (ctx source signatures) in
/-- A declaration below the top level, or a variable of the top level. -/
def SafeDecl (d : Decl) : Prop :=
  ∀ (top : List String) ⦃depth : Nat⦄ ⦃Γ : Env⦄, d.Everywhere (known source signatures ctx) Γ →
    (d.isFunction = true → depth = Γ.length + 1) → Γ.length ≠ 0 → (innerIds d).Nodup →
    Safe (source.Fits ctx.types) Γ.length top top (innerIds d) (d.free ctx.bindings)
      (storage ctx.types d.locals) (decl ctx depth d)

theorem exprs_safe {es : List Expr} (each : ∀ e ∈ es, SafeExpr ctx source signatures e)
    (top : List String) (h : Expr.EverywhereList (known source signatures ctx) Γ es)
    (inner : Γ.length ≠ 0) (nodup : (Expr.idsList es).Nodup) :
    Safe (source.Fits ctx.types) Γ.length top top (Expr.idsList es) (Expr.freeList ctx.bindings es)
      (storage ctx.types (Expr.localsList es)) (exprs ctx es) := by
  induction es with
  | nil => exact .pure
  | cons e es ih =>
    obtain ⟨nodup₁, nodup₂, -⟩ := List.nodup_append.1 nodup
    have both := (each e (by simp) top h.1 inner nodup₁).seq
      (ih (fun e he => each e (by simp [he])) h.2 nodup₂) nodup
    exact both.congr (storage_append _ _ _).symm fun _ _ => rfl

theorem decls_safe (each : ∀ d ∈ ds, SafeDecl ctx source signatures d) (top : List String)
    (h : Decl.EverywhereList (known source signatures ctx) Γ ds)
    (functions : ∀ d ∈ ds, d.isFunction = true → depth = Γ.length + 1) (inner : Γ.length ≠ 0)
    (nodup : (ds.flatMap innerIds).Nodup) :
    Safe (source.Fits ctx.types) Γ.length top top (ds.flatMap innerIds)
      (Decl.freeList ctx.bindings ds)
      (storage ctx.types (Decl.localsList ds)) (decls ctx depth ds) := by
  induction ds with
  | nil => exact .pure
  | cons d ds ih =>
    rw [List.flatMap_cons] at nodup ⊢
    obtain ⟨nodup₁, nodup₂, -⟩ := List.nodup_append.1 nodup
    have both := (each d (by simp) top h.1 (functions d (by simp)) inner nodup₁).seq
      (ih (fun d hd => each d (by simp [hd])) h.2 (fun d hd => functions d (by simp [hd])) nodup₂)
      nodup
    exact both.congr (storage_append _ _ _).symm fun _ _ => rfl

theorem scoped_safe {site : Site} {b : Expr} (items : ∀ d ∈ ds, SafeDecl ctx source signatures d)
    (body : SafeExpr ctx source signatures b) :
    SafeExpr ctx source signatures (.scoped site ds b) := by
  intro top Γ h inner nodup
  have nodup := (List.nodup_cons.1 nodup).2
  rw [Decl.idsList_eq] at nodup
  have perm := (innerIds_perm ds).append_right b.ids
  have nodup := perm.nodup_iff.2 nodup
  rw [List.append_assoc] at nodup
  obtain ⟨nodup₁, nodup₂₃, -⟩ := List.nodup_append.1 nodup
  obtain ⟨nodup₂, nodup₃, -⟩ := List.nodup_append.1 nodup₂₃
  have typed : ∀ d ∈ ds, d.isVar = true → ∃ τ, ctx.types.get? d.id = some τ ∧ τ.isData = true :=
    fun d hd => var_typed (Decl.everywhereList_iff.1 h.2.1 d hd).here
  have rest := (decls_safe items top h.2.1 (fun _ _ _ => rfl) inner nodup₂).seq
    (body top h.2.2 inner nodup₃) nodup₂₃
  have all :=
    (placeLocals_safe typed nodup₁ (Expr.free ctx.bindings (.scoped site ds b))).scope rest
    nodup fun {p p'} ready hx d hd => by
      by_cases own : d ∈ varIds ds
      · obtain ⟨grows, places⟩ := placeLocals_eq_ok ds hx ready.fresh nodup₁
        obtain ⟨offset, owner, access⟩ := places.access own
        exact .inr ⟨_, _, owner, access, .inr ⟨offset, rfl, by
          rw [grows.same_depth, ready.depth]⟩⟩
      · exact .inl (List.mem_filter.2 ⟨hd, decide_eq_true own⟩)
  refine (all.congr ?_ fun p depth => ?_).mono ?_ (List.Subset.refl _)
  · simp only [Expr.locals, storage_append, Int.add_assoc]
    rfl
  · simp only [expr, bind_apply, get_apply, depth]
  · rw [Expr.ids, Decl.idsList_eq, ← List.append_assoc]
    exact List.Subset.trans perm.subset (List.subset_cons_self _ _)

theorem all_safe :
    (∀ e, SafeExpr ctx source signatures e) ∧ ∀ d, SafeDecl ctx source signatures d := by
  apply byParts
  · intro e items parts
    by_cases plain : e.isPlain = true
    · intro top Γ h inner nodup
      rw [Expr.ids_plain plain] at nodup ⊢
      rw [Expr.locals_plain plain, Expr.free_plain plain, expr_plain plain]
      exact (exprs_safe parts top ((Expr.everywhere_plain plain).1 h).2 inner
        (List.nodup_cons.1 nodup).2).mono (List.subset_cons_self _ _) (List.Subset.refl _)
    cases e with
    | absent | hole =>
      intro _ _ h
      obtain ⟨_, -, -, rule⟩ := h.here.2.2.1
      cases rule
    | name site x =>
      intro _ _ h _ _
      obtain ⟨d, bound, -⟩ := h.here.2.1
      exact nameRef_safe ⟨d, bound⟩
    | «scoped» => exact scoped_safe items (parts _ (List.mem_singleton.2 rfl))
    | _ => exact absurd rfl plain
  · intro d _ body
    cases d with
    | var _ _ _ init =>
      intro top _ _ h _ inner nodup
      cases init with
      | none => exact .pure
      | some init =>
        exact (body _ rfl top h.2 inner (List.nodup_append.1 nodup).2.1).mono
          (List.subset_append_right _ _) (List.Subset.refl _)
    | function =>
      intro top _ _ h same inner nodup
      obtain rfl := same rfl
      have body_nodup := (List.nodup_append.1 (List.nodup_cons.1 nodup).2).2.1
      exact function_safe (complete_of_known h) nodup (Nat.le_succ _)
        (fun tidy hl => tidy.nested (by omega) hl) (.function h.1.2.2.2.1 h.1.2.2.2.2)
        (body _ rfl top h.2.2 (Nat.succ_ne_zero _) body_nodup)
    | _ => exact fun _ _ _ _ _ _ _ => .pure

/-! ## The top level -/

theorem placeGlobals_eq_error :
    (ds : List Decl) → {p p' : Plan} → placeGlobals ctx ds p = .error e p' →
    (∀ d ∈ ds, d.isVar = true → ∃ τ, ctx.types.get? d.id = some τ ∧ τ.isData = true) →
    ∃ o, e = .overflow o ∧ ¬ source.Fits ctx.types
  | [], _, _, h, _ => by cases h
  | .var site x type init :: ds, p, p', h, typed => by
    obtain ⟨τ, hτ, data⟩ := typed (.var site x type init) (by simp) rfl
    have own : ctx.types.get? site.id = some τ := hτ
    simp only [placeGlobals, bind_eq_error, checked_eq_error, checked_eq_ok, modify_apply] at h
    rcases h with h | ⟨w, p₁, hw, h⟩
    · -- nothing is needed that could be too much
      have exceeded : Exceeds (source.Fits ctx.types) 0 e := wordsOf_eq_error own data h 0
      obtain ⟨o, rfl, more⟩ := exceeded
      exact ⟨o, rfl, fun fits => absurd (more fits) (by decide)⟩
    obtain ⟨sized, rfl⟩ := wordsOf_eq_ok hw
    obtain ⟨τ', own', size⟩ := sized
    rw [own] at own'
    cases own'
    rcases h with ⟨o, ho, rfl, -⟩ | ⟨_, _, -, h⟩
    · refine ⟨o, rfl, fun fits => ?_⟩
      have small := fits.type own
      rw [Ty.sizeInWords_eq data size, Word.mul, if_pos small] at ho
      cases ho
    rcases h with h | ⟨_, _, -, h⟩
    · cases h
    rcases h with h | ⟨_, _, -, h⟩
    · cases h
    exact placeGlobals_eq_error ds h fun d hd => typed d (by simp [hd])
  | .absent _ :: ds, _, _, h, typed | .alias _ _ _ :: ds, _, _, h, typed
  | .param _ _ _ :: ds, _, _, h, typed | .function _ _ _ _ _ :: ds, _, _, h, typed =>
    placeGlobals_eq_error ds h fun d hd => typed d (by simp [hd])

theorem stored_of_globals {gs : List Global} (h : List.Forall₂ (GlobalFor ctx.types p.tables) ds gs)
    {d : NodeId} (hd : d ∈ ds.map Decl.id) : Stored p d := by
  induction h with
  | nil => cases hd
  | cons first _ ih =>
    rcases List.mem_cons.1 hd with rfl | hd
    · obtain ⟨site, x, type, init, rfl, -, access, owner, -⟩ := first
      exact ⟨0, .global x, owner, access, .inl ⟨x, rfl⟩⟩
    · exact ih hd

/-- The names that declarations introduce. -/
def namesOf (ds : List Decl) : List String := (ds.filterMap Resolution.declared?).map Prod.snd

/-- The functions of the top level, whose names differ and have no dot. -/
theorem functions_safe (top : List String)
    (h : Decl.EverywhereList (known source signatures ctx) [] ds)
    (isFunction : ∀ d ∈ ds, d.isFunction = true) (distinct : (namesOf ds).Nodup)
    (plain : ∀ x ∈ namesOf ds, x ∉ top ∧ '.' ∉ x.toList) (nodup : (ds.flatMap innerIds).Nodup) :
    ∃ top', Safe (source.Fits ctx.types) 1 top top' (ds.flatMap innerIds)
      (Decl.freeList ctx.bindings ds) 0 (decls ctx 1 ds) := by
  induction ds generalizing top with
  | nil => exact ⟨top, .pure⟩
  | cons d ds ih =>
    have function := isFunction d (by simp)
    cases d with
    | function site name params result body =>
      have names : namesOf (.function site name params result body :: ds) = name ::
        namesOf ds := rfl
      rw [names] at distinct plain
      rw [List.flatMap_cons] at nodup ⊢
      obtain ⟨nodup₁, nodup₂, -⟩ := List.nodup_append.1 nodup
      obtain ⟨own, others⟩ := List.nodup_cons.1 distinct
      obtain ⟨new, dotless⟩ := plain name (by simp)
      have body_nodup : body.ids.Nodup := (List.nodup_append.1 (List.nodup_cons.1 nodup₁).2).2.1
      have first := function_safe (complete_of_known h.1) nodup₁ (Nat.le_refl 1)
        (fun tidy hl => tidy.top new dotless hl) (.function h.1.1.2.2.2.1 h.1.1.2.2.2.2)
        (all_safe.1 body (name :: top) h.1.2.2 (Nat.succ_ne_zero _) body_nodup)
      obtain ⟨top', rest⟩ := ih (name :: top) h.2 (fun d hd => isFunction d (by simp [hd])) others
        (fun x hx => ⟨fun mem => (List.mem_cons.1 mem).elim (fun same => own (same ▸ hx))
          (plain x (by simp [hx])).1, (plain x (by simp [hx])).2⟩) nodup₂
      exact ⟨top', (first.seq rest nodup).congr (Int.add_zero 0) fun _ _ => rfl⟩
    | _ => cases function

end

end Layout

open Layout Syntax in
/-- A program that is bound and typed has a layout, unless it has sizes that do not fit. The
functions of its top level have different names without dots, and nothing but globals is free in its
declarations. -/
theorem Syntax.Source.layout_eq_error {source : Source} {signatures : NodeTable Signature}
    {bindings : NodeTable Binding} {types : NodeTable Ty}
    (facts : source.Everywhere (known source signatures ⟨bindings, types⟩))
    (nodup : (source.definitions.flatMap Decl.ids).Nodup)
    (names : (namesOf source.definitions).Nodup)
    (plain : ∀ x ∈ namesOf source.definitions, '.' ∉ x.toList)
    (free : ∀ d ∈ source.definitions, d.free bindings ⊆ source.globals) {e : LayoutError}
    (h : source.layout bindings types = .error e) : ∃ o, e = .overflow o ∧ ¬ source.Fits types := by
  unfold Source.layout at h
  split at h
  · cases h
  rename_i e' p' hp
  cases h
  let ctx : Layout.Context := ⟨bindings, types⟩
  have typed : ∀ d ∈ source.definitions, d.isVar = true →
      ∃ τ, ctx.types.get? d.id = some τ ∧ τ.isData = true := fun d hd => var_typed (facts d hd).here
  have order := read_nodup nodup
  rw [List.append_assoc] at order
  obtain ⟨nodup₁, nodup₂₃, -⟩ := List.nodup_append.1 order
  obtain ⟨nodup₂, nodup₃, -⟩ := List.nodup_append.1 nodup₂₃
  have fresh (ids : List NodeId) : ({} : Plan).tables.Fresh ids := by
    rw [tables_start]
    exact fun _ _ => ⟨rfl, rfl, rfl⟩
  have used (keep : Decl → Bool) :
      Decl.freeList bindings (source.definitions.filter keep) ⊆ source.globals := by
    intro x hx
    obtain ⟨d, hd, hx⟩ := Decl.mem_freeList.1 hx
    exact free d (List.mem_filter.1 hd).1 hx
  simp only [Layout.program, bind_eq_error, modify_apply] at hp
  rcases hp with hp | ⟨_, p₁, hg, hp⟩
  · exact placeGlobals_eq_error _ hp typed
  obtain ⟨outside, frame, labels, -, gs, -, all⟩ := placeGlobals_eq_ok _ hg (fresh _) nodup₁
  have tidy : Tidy [Frame.initLabel] p₁ := by
    refine ⟨fun l hl => ?_, fun l hl => .inl ?_⟩
    · rw [List.mem_singleton.1 hl]
      exact initLabel_ne
    · rwa [labels] at hl
  have start : Ready 1 [Frame.initLabel] ((source.definitions.filter Decl.isVar).flatMap innerIds ++
      (source.definitions.filter Decl.isFunction).flatMap innerIds) source.globals p₁ := by
    refine ⟨by
      rw [frame]; rfl, by rw [frame]; decide, by rw [frame]; decide, ?_, fun d hd => ?_, tidy⟩
    · exact outside.fresh (fresh _) (List.disjoint_of_nodup_append order)
    · exact stored_of_globals all hd
  have first : Safe (source.Fits types) 1 [Frame.initLabel] [Frame.initLabel] _ _ _
      (decls ctx 1 (source.definitions.filter Decl.isVar)) :=
    decls_safe (fun d _ => all_safe.2 d) [Frame.initLabel] facts.vars (fun d hd isFunction => by
      have isVar := (List.mem_filter.1 hd).2
      rw [Decl.isVar_of_isFunction isFunction] at isVar
      cases isVar) (Nat.succ_ne_zero 0) nodup₂
  have room (fits : source.Fits types) :
      stopOf p₁.frame + storage types (Decl.localsList (source.definitions.filter Decl.isVar)) ≤
        limit := by
    have small := fits.level (l := source.init) .init
    rw [frame]
    exact small.2
  rcases hp with hp | ⟨_, p₂, hv, hp⟩
  · obtain ⟨o, rfl, more⟩ := first.fails (start.mono (List.subset_append_left _ _) (used _)) hp
    exact ⟨o, rfl, fun fits => absurd (room fits) (Int.not_le.2 (more fits))⟩
  rcases hp with hp | ⟨_, _, ⟨⟩, hp⟩
  · cases hp
  obtain ⟨tidy₂, grows, stop⟩ := first.works (start.mono (List.subset_append_left _ _) (used _)) hv
  have next := start.after nodup₂₃ grows stop first.nonneg tidy₂
  have sub : (namesOf (source.definitions.filter Decl.isFunction)).Sublist
    (namesOf source.definitions) :=
    (List.filter_sublist.filterMap _).map _
  obtain ⟨top', second⟩ := functions_safe [Frame.initLabel] facts.functions
    (fun d hd => (List.mem_filter.1 hd).2) (names.sublist sub) (fun x hx => by
      have dotless := plain x (sub.subset hx)
      refine ⟨fun mem => dotless ?_, dotless⟩
      rw [List.mem_singleton.1 mem]
      decide) nodup₃
  have ready : Ready 1 [Frame.initLabel]
    ((source.definitions.filter Decl.isFunction).flatMap innerIds)
      (Decl.freeList bindings (source.definitions.filter Decl.isFunction))
      { p₂ with layout := { p₂.layout with init := p₂.frame } } :=
    ⟨next.depth, next.params, next.locals, next.fresh, fun d hd => next.stored d (used _ hd),
      next.tidy.of_eq rfl rfl⟩
  obtain ⟨o, rfl, more⟩ := second.fails ready hp
  refine ⟨o, rfl, fun fits => absurd (room fits) (Int.not_le.2 ?_)⟩
  have exceeded := more fits
  rwa [Int.add_zero, stop] at exceeded

end PinsBackend
