import Mathlib.Data.List.Nodup
import PinsBackend.Layout.Plan
import PinsBackend.Proofs.Monad
import PinsBackend.Proofs.Syntax.Traversal

/-! Where variables lie.

In a program whose nodes stand at one place each, the layout gives every function a frame of its own
with its own label. The parameters of the function and the variables of its blocks lie in the frame
one after the other, and every name knows the way to the frame of its variable. -/
namespace PinsBackend.Layout

open Syntax

variable {ids : List NodeId}

/-! ## Tables that grow -/

/-- What a plan says about nodes. -/
structure Tables where
  access : NodeId → Option Access
  owner : NodeId → Option Nat
  frame : NodeId → Option Frame

def Plan.tables (p : Plan) : Tables where
  access := p.layout.accesses.get?
  owner := fun id => p.owners[id]?
  frame := p.layout.frames.get?

namespace Tables

/-- Nothing is said about these nodes. -/
def Fresh (t : Tables) (ids : List NodeId) : Prop :=
  ∀ id ∈ ids, t.access id = none ∧ t.owner id = none ∧ t.frame id = none

/-- The tables say the same about all other nodes. -/
def Outside (ids : List NodeId) (t t' : Tables) : Prop :=
  ∀ id, id ∉ ids → t'.access id = t.access id ∧ t'.owner id = t.owner id ∧ t'.frame id = t.frame id

/-- What the first tables say, the second ones say too. -/
structure Le (t t' : Tables) : Prop where
  access : ∀ {id a}, t.access id = some a → t'.access id = some a
  owner : ∀ {id n}, t.owner id = some n → t'.owner id = some n
  frame : ∀ {id f}, t.frame id = some f → t'.frame id = some f

variable {t t' t'' : Tables} {ids ids' : List NodeId}

theorem Le.refl (t : Tables) : t.Le t := ⟨id, id, id⟩

theorem Le.trans (h : t.Le t') (h' : t'.Le t'') : t.Le t'' :=
  ⟨fun ha => h'.access (h.access ha), fun ho => h'.owner (h.owner ho),
    fun hf => h'.frame (h.frame hf)⟩

theorem Outside.mono (h : Outside ids t t') (sub : ids ⊆ ids') : Outside ids' t t' :=
  fun id hid => h id fun hmem => hid (sub hmem)

theorem Outside.refl (t : Tables) (ids : List NodeId) : Outside ids t t :=
  fun _ _ => ⟨rfl, rfl, rfl⟩

theorem Outside.trans (h : Outside ids t t') (h' : Outside ids t' t'') : Outside ids t t'' := by
  intro id hid
  obtain ⟨ha, ho, hf⟩ := h id hid
  obtain ⟨ha', ho', hf'⟩ := h' id hid
  exact ⟨ha'.trans ha, ho'.trans ho, hf'.trans hf⟩

theorem Fresh.mono (h : t.Fresh ids) (sub : ids' ⊆ ids) : t.Fresh ids' :=
  fun id hid => h id (sub hid)

/-- Work on some nodes leaves others fresh. -/
theorem Outside.fresh (h : Outside ids t t') (fresh : t.Fresh ids') (apart : ids.Disjoint ids') :
    t'.Fresh ids' := by
  intro id hid
  obtain ⟨ha, ho, hf⟩ := h id fun hmem => apart hmem hid
  obtain ⟨ha', ho', hf'⟩ := fresh id hid
  exact ⟨ha.trans ha', ho.trans ho', hf.trans hf'⟩

/-- Work on fresh nodes revises nothing. -/
theorem Outside.le (h : Outside ids t t') (fresh : t.Fresh ids) : t.Le t' := by
  constructor
  · intro id a ha
    have hid : id ∉ ids := fun hmem => by simp [(fresh id hmem).1] at ha
    exact (h id hid).1.trans ha
  · intro id n ho
    have hid : id ∉ ids := fun hmem => by simp [(fresh id hmem).2.1] at ho
    exact (h id hid).2.1.trans ho
  · intro id f hf
    have hid : id ∉ ids := fun hmem => by simp [(fresh id hmem).2.2] at hf
    exact (h id hid).2.2.trans hf

end Tables

/-- Every frame has its own label, and its label is given out. -/
structure Consistent (p : Plan) : Prop where
  known : ∀ {id f}, p.tables.frame id = some f → f.label ∈ p.labels
  distinct : ∀ {id id' f f'}, p.tables.frame id = some f → p.tables.frame id' = some f' →
    f.label = f'.label → id = id'

/-- What reading a piece of a program with these nodes does to a plan. -/
structure Grows (ids : List NodeId) (p p' : Plan) : Prop where
  outside : Tables.Outside ids p.tables p'.tables
  labels : p.labels ⊆ p'.labels
  news : ∀ {id f}, p'.tables.frame id = some f →
    p.tables.frame id = some f ∨ f.label ∈ p'.labels ∧ f.label ∉ p.labels
  consistent : Consistent p → Consistent p'
  frame : ∃ localsSize, p'.frame = { p.frame with localsSize }
  layout : ∃ frames accesses, p'.layout = { p.layout with frames, accesses }

theorem Grows.refl (ids : List NodeId) (p : Plan) : Grows ids p p :=
  ⟨.refl _ _, List.Subset.refl _, .inl, id, ⟨p.frame.localsSize, rfl⟩, ⟨_, _, rfl⟩⟩

variable {p p' : Plan} {t : Tables} {words : NodeId → Int → Prop} {depth : Nat} {a b : Int}
  {Γ : Env}

theorem Grows.trans {p'' : Plan} (h : Grows ids p p') (h' : Grows ids p' p'') :
    Grows ids p p'' := by
  refine ⟨h.outside.trans h'.outside, List.Subset.trans h.labels h'.labels, fun hf => ?_,
    fun hc => h'.consistent (h.consistent hc), ?_, ?_⟩
  · rcases h'.news hf with hf | ⟨now, before⟩
    · exact (h.news hf).imp_right fun ⟨now, before⟩ => ⟨h'.labels now, before⟩
    · exact .inr ⟨now, fun hmem => before (h.labels hmem)⟩
  · obtain ⟨n, hn⟩ := h.frame
    obtain ⟨m, hm⟩ := h'.frame
    exact ⟨m, by rw [hm, hn]⟩
  · obtain ⟨frames, accesses, hl⟩ := h.layout
    obtain ⟨frames', accesses', hl'⟩ := h'.layout
    exact ⟨frames', accesses', by rw [hl', hl]⟩

theorem Grows.mono {ids' : List NodeId} (h : Grows ids p p') (sub : ids ⊆ ids') : Grows ids' p p' :=
  { h with outside := h.outside.mono sub }

/-! ## Variables one after the other -/

/-- The nodes get places from one offset to another, each as long as `words` says, in the frame of a
function at this depth. -/
def Placed (t : Tables) (words : NodeId → Int → Prop) (depth : Nat) (stop : Int) :
    Int → List NodeId → Prop
  | offset, [] => offset = stop
  | offset, d :: ds => Word.Fits offset ∧ t.access d = some (.here offset) ∧
    t.owner d = some depth ∧ ∃ w, words d w ∧ Placed t words depth stop (offset + w * Word.bytes) ds

theorem Placed.append {c : Int} {ds es : List NodeId} (h : Placed t words depth b a ds)
    (h' : Placed t words depth c b es) : Placed t words depth c a (ds ++ es) := by
  induction ds generalizing a with
  | nil =>
    cases h
    exact h'
  | cons d ds ih =>
    obtain ⟨fits, access, owner, w, hw, rest⟩ := h
    exact ⟨fits, access, owner, w, hw, ih rest⟩

theorem Placed.le {t' : Tables} (le : t.Le t') {ds : List NodeId}
    (h : Placed t words depth b a ds) :
    Placed t' words depth b a ds := by
  induction ds generalizing a with
  | nil => exact h
  | cons d ds ih =>
    obtain ⟨fits, access, owner, w, hw, rest⟩ := h
    exact ⟨fits, le.access access, le.owner owner, w, hw, ih rest⟩

theorem Placed.access {ds : List NodeId} (h : Placed t words depth b a ds) {d : NodeId}
    (hd : d ∈ ds) :
    ∃ offset, t.owner d = some depth ∧ t.access d = some (.here offset) := by
  induction ds generalizing a with
  | nil => cases hd
  | cons e ds ih =>
    obtain ⟨-, access, owner, w, -, rest⟩ := h
    rcases List.mem_cons.1 hd with rfl | hd
    · exact ⟨a, owner, access⟩
    · exact ih rest hd

theorem Placed.words_of_mem {ds : List NodeId} (h : Placed t words depth b a ds) {d : NodeId}
    (hd : d ∈ ds) : ∃ w, words d w := by
  induction ds generalizing a with
  | nil => cases hd
  | cons e ds ih =>
    obtain ⟨-, -, -, w, hw, rest⟩ := h
    rcases List.mem_cons.1 hd with rfl | hd
    · exact ⟨w, hw⟩
    · exact ih rest hd

/-- The offset after the variables that a frame has so far. -/
def stopOf (f : Frame) : Int := f.parametersSize + f.localsSize

/-- The words of a variable are those of its type. -/
def SizedBy (types : NodeTable Ty) (d : NodeId) (w : Int) : Prop :=
  ∃ type, types.get? d = some type ∧ type.sizeInWords = .ok w

/-- The frame of a function with these parameters and this body. -/
structure FrameOf (types : NodeTable Ty) (t : Tables) (frame : Frame) (name : String) (depth : Nat)
    (l : Level) : Prop where
  deep : frame.depth = depth
  count : frame.parameterCount = l.params.length
  params : Placed t (fun _ w => w = 1) depth frame.parametersSize Word.bytes l.params
  locals : Placed t (SizedBy types) depth (stopOf frame) frame.parametersSize l.locals
  label : if depth = 1 then frame.label = name else
    ∃ n : Nat, frame.label = "L" ++ toString n ++ "." ++ name

/-- Every name knows the way to its variable, and every function has its frame. -/
def placed (ctx : Context) (t : Tables) : Facts where
  expr Γ e :=
    match e with
    | .absent _ | .hole _ => False
    | .name site _ => ∃ d owner access access', ctx.bindings.get? site.id = some (.decl d) ∧
      t.owner d = some owner ∧ t.access d = some access ∧
      reach site.id d Γ.length owner access = .ok access' ∧ t.access site.id = some access'
    | _ => True
  decl Γ d :=
    match d with
    | .function site name params _ body => ∃ frame, t.frame site.id = some frame ∧
      FrameOf ctx.types t frame name (Γ.length + 1) (Decl.level site params body)
    | _ => True

/-! ## Reading one node -/

section

variable {d : NodeId} {l : String}

variable {ctx : Context} {p p' : Plan} {offset : Int} {depth : Nat} {id : NodeId}

theorem checked_eq_ok {α : Type} {x : Except Overflow α} {a : α} :
    checked x p = .ok a p' ↔ x = .ok a ∧ p' = p := by
  unfold checked
  cases x <;> simp [eq_comm]

theorem allocate_eq_ok {f f' : Frame} {words : Int} (h : f.allocate words = .ok (offset, f')) :
    Word.Fits offset ∧ offset = stopOf f ∧
      f' = { f with localsSize := f.localsSize + words * Word.bytes } := by
  simp only [Frame.allocate, Frame.size, except_bind_eq_ok, Word.add_eq_ok, Word.mul_eq_ok] at h
  obtain ⟨_, ⟨fits, rfl⟩, _, ⟨-, rfl⟩, _, ⟨-, rfl⟩, h⟩ := h
  cases h
  exact ⟨fits, rfl, rfl⟩

/-- The plan after a variable got its place. -/
theorem place_eq_ok {owner : Nat} {access : Access} (h : place d owner access p = .ok () p')
    (fresh : p.tables.Fresh [d]) :
    Grows [d] p p' ∧ p'.frame = p.frame ∧ p'.tables.access d = some access ∧
      p'.tables.owner d = some owner := by
  cases h
  have access_none : p.layout.accesses.get? d = none := (fresh d (by simp)).1
  refine ⟨⟨fun id hid => ?_, List.Subset.refl _, .inl, fun h => ⟨h.known, h.distinct⟩, ⟨_, rfl⟩,
    ⟨_, _, rfl⟩⟩, rfl, ?_, ?_⟩
  · have ne : id ≠ d := by simpa using hid
    simp [Plan.tables, NodeTable.get?_insert, ne, ne.symm, Std.TreeMap.getElem?_insert]
  · simp [Plan.tables, NodeTable.get?_insert, access_none]
  · simp [Plan.tables]

theorem wordsOf_eq_ok {w : Int} (h : wordsOf ctx d p = .ok w p') :
    SizedBy ctx.types d w ∧ p' = p := by
  unfold wordsOf at h
  cases ht : ctx.types.get? d with
  | none => simp [ht, throw_apply] at h
  | some type =>
    simp only [ht, checked_eq_ok] at h
    exact ⟨⟨type, ht, h.1⟩, h.2⟩

/-- The variables of a block. -/
def varIds (ds : List Decl) : List NodeId := (ds.filter Decl.isVar).map Decl.id

theorem placeLocals_eq_ok : (ds : List Decl) → {p p' : Plan} →
    placeLocals ctx depth ds p = .ok () p' → p.tables.Fresh (varIds ds) → (varIds ds).Nodup →
    Grows (varIds ds) p p' ∧
      Placed p'.tables (SizedBy ctx.types) depth (stopOf p'.frame) (stopOf p.frame) (varIds ds)
  | [], p, p', h, _, _ => by
    cases h
    exact ⟨.refl _ _, rfl⟩
  | .var site x type init :: ds, p, p', h, fresh, nodup => by
    simp only [placeLocals, bind_eq_ok, get_apply, modify_apply, checked_eq_ok] at h
    obtain ⟨w, _, hw, _, _, ⟨⟩, ⟨offset, frame⟩, q, ⟨hf, rfl⟩, _, _, ⟨⟩, _, p₂, hp, h⟩ := h
    obtain ⟨sized, rfl⟩ := wordsOf_eq_ok hw
    obtain ⟨fits, rfl, rfl⟩ := allocate_eq_ok hf
    have ids : varIds (.var site x type init :: ds) = site.id :: varIds ds := rfl
    rw [ids] at fresh nodup ⊢
    obtain ⟨grows, frame, access, owner⟩ := place_eq_ok hp (fresh.mono (by simp))
    dsimp only at frame access
    have first : Grows [site.id] q p₂ :=
      ⟨grows.outside, grows.labels, grows.news, fun h => grows.consistent ⟨h.known, h.distinct⟩,
        ⟨_, frame⟩, grows.layout⟩
    have fresh₂ : p₂.tables.Fresh (varIds ds) :=
      grows.outside.fresh (fresh.mono (List.subset_cons_self _ _))
        (List.disjoint_left.2 (by simpa using (List.nodup_cons.1 nodup).1))
    obtain ⟨rest, places⟩ := placeLocals_eq_ok ds h fresh₂ (List.nodup_cons.1 nodup).2
    have le := rest.outside.le fresh₂
    refine ⟨(first.mono (by simp)).trans (rest.mono (List.subset_cons_self _ _)), fits,
      le.access access, le.owner owner, w, sized, ?_⟩
    have stop : stopOf p₂.frame = stopOf q.frame + w * Word.bytes := by
      rw [frame]
      simp only [stopOf]
      omega
    rwa [stop] at places
  | .absent _ :: ds, p, p', h, fresh, nodup | .alias _ _ _ :: ds, p, p', h, fresh, nodup
  | .param _ _ _ :: ds, p, p', h, fresh, nodup
  | .function _ _ _ _ _ :: ds, p, p', h, fresh, nodup => placeLocals_eq_ok ds h fresh nodup

theorem ofCount_eq {n : Nat} (h : n < 9223372036854775808) : Word.ofCount n = n := by
  unfold Word.ofCount
  rw [Int.bmod_eq_of_le] <;> omega

/-- More parameters than this have no offsets. -/
def parameterLimit : Nat := 1152921504606846976

theorem parameterOffset_eq_ok {index : Nat} (small : index ≤ parameterLimit)
    (h : Frame.parameterOffset index = .ok offset) :
    Word.Fits offset ∧ offset = (index + 1) * Word.bytes ∧ index + 1 ≤ parameterLimit := by
  unfold parameterLimit at small ⊢
  simp only [Frame.parameterOffset, except_bind_eq_ok, Word.add_eq_ok, Word.mul_eq_ok,
    ofCount_eq (show index < 9223372036854775808 by omega)] at h
  obtain ⟨_, ⟨-, rfl⟩, fits, rfl⟩ := h
  refine ⟨fits, by rw [Int.mul_comm, Int.add_comm], ?_⟩
  have bound := fits.2
  simp only [Word.bytes] at bound
  omega

theorem placeParameters_eq_ok {ps : List Decl} {index : Nat}
    (h : placeParameters depth index ps p = .ok () p') (small : index ≤ parameterLimit)
    (fresh : p.tables.Fresh (ps.map Decl.id)) (nodup : (ps.map Decl.id).Nodup) :
    Grows (ps.map Decl.id) p p' ∧ p'.frame = p.frame ∧ index + ps.length ≤ parameterLimit ∧
      Placed p'.tables (fun _ w => w = 1) depth ((index + ps.length + 1) * Word.bytes)
        ((index + 1) * Word.bytes) (ps.map Decl.id) := by
  induction ps generalizing index p with
  | nil =>
    cases h
    exact ⟨.refl _ _, rfl, small, rfl⟩
  | cons d ps ih =>
    simp only [placeParameters, bind_eq_ok, checked_eq_ok] at h
    obtain ⟨offset, _, ⟨ho, rfl⟩, _, p₂, hp, h⟩ := h
    obtain ⟨fits, rfl, small⟩ := parameterOffset_eq_ok small ho
    rw [List.map_cons] at fresh nodup ⊢
    obtain ⟨first, frame, access, owner⟩ := place_eq_ok hp (fresh.mono (by simp))
    have fresh₂ : p₂.tables.Fresh (ps.map Decl.id) :=
      first.outside.fresh (fresh.mono (List.subset_cons_self _ _))
        (List.disjoint_left.2 (by simpa using (List.nodup_cons.1 nodup).1))
    obtain ⟨rest, frame', bound, places⟩ := ih h small fresh₂ (List.nodup_cons.1 nodup).2
    have le := rest.outside.le fresh₂
    refine ⟨(first.mono (by simp)).trans (rest.mono (List.subset_cons_self _ _)),
      frame'.trans frame, by simp; omega, fits, le.access access, le.owner owner, 1, rfl, ?_⟩
    have start : ((index : Int) + 1) * Word.bytes + 1 * Word.bytes =
        (((index + 1 : Nat) : Int) + 1) * Word.bytes := by
      simp only [Word.bytes]
      omega
    have stop : ((index : Int) + ((d :: ps).length : Nat) + 1) * Word.bytes =
        (((index + 1 : Nat) : Int) + (ps.length : Nat) + 1) * Word.bytes := by
      simp only [List.length_cons, Word.bytes]
      omega
    rw [start, stop]
    exact places

/-- The plan after a name got its access. -/
theorem nameRef_cases (h : nameRef ctx id p = .ok () p') :
    ∃ d owner access access', ctx.bindings.get? id = some (.decl d) ∧ p.owners[d]? = some owner ∧
      p.layout.accesses.get? d = some access ∧ reach id d p.frame.depth owner access = .ok access' ∧
      p' = { p with
        layout := { p.layout with accesses := p.layout.accesses.insert id access' } } := by
  unfold nameRef at h
  cases bound : ctx.bindings.get? id with
  | none => simp [bound, throw_apply] at h
  | some b =>
    cases b with
    | builtin b => simp [bound, throw_apply] at h
    | decl d =>
      simp only [bound, bind_eq_ok, get_apply] at h
      obtain ⟨_, _, ⟨⟩, h⟩ := h
      cases howner : p.owners[d]? with
      | none => simp [howner, throw_apply] at h
      | some owner =>
        cases haccess : p.layout.accesses.get? d with
        | none => simp [howner, haccess, throw_apply] at h
        | some access =>
          cases hreach : reach id d p.frame.depth owner access with
          | error e => simp [howner, haccess, hreach, throw_apply] at h
          | ok access' =>
            simp only [howner, haccess, hreach] at h
            cases h
            exact ⟨d, owner, access, access', rfl, howner, haccess, hreach, rfl⟩

theorem nameRef_eq_ok (h : nameRef ctx id p = .ok () p') (fresh : p.tables.Fresh [id]) :
    Grows [id] p p' ∧ p'.frame = p.frame ∧ ∃ d owner access access',
      ctx.bindings.get? id = some (.decl d) ∧ p'.tables.owner d = some owner ∧
      p'.tables.access d = some access ∧ reach id d p.frame.depth owner access = .ok access' ∧
      p'.tables.access id = some access' := by
  obtain ⟨d, owner, access, access', bound, howner, haccess, hreach, rfl⟩ := nameRef_cases h
  have none : p.layout.accesses.get? id = none := (fresh id (by simp)).1
  have ne : d ≠ id := by
    rintro rfl
    rw [none] at haccess
    cases haccess
  refine ⟨⟨fun id' hid => ?_, List.Subset.refl _, .inl, fun h => ⟨h.known, h.distinct⟩,
    ⟨_, rfl⟩, ⟨_, _, rfl⟩⟩, rfl, d, owner, access, access', bound, howner, ?_, hreach, ?_⟩
  · have ne : id' ≠ id := by simpa using hid
    simp [Plan.tables, NodeTable.get?_insert, ne]
  · simpa [Plan.tables, NodeTable.get?_insert, ne] using haccess
  · simp [Plan.tables, NodeTable.get?_insert, none]

/-- The way to a frame that lies so many functions further out. -/
theorem reach_here {here hops : Nat} {access : Access} (inside : hops < here)
    (h : reach id d here (here - hops) (.here offset) = .ok access) :
    access = if hops = 0 then .here offset else .outer hops offset := by
  simp only [reach] at h
  by_cases zero : hops = 0
  · simpa [zero] using h.symm
  · rw [if_neg (by omega), if_neg (by omega), show here - (here - hops) = hops by omega] at h
    rw [if_neg zero]
    exact (Except.ok.inj h).symm

theorem label_eq_ok {name : String} (h : label depth name p = .ok l p') :
    (if depth = 1 then l = name else ∃ n : Nat, l = "L" ++ toString n ++ "." ++ name) ∧
      p'.tables = p.tables ∧ p'.labels = p.labels ∧ p'.frame = p.frame ∧
      p'.layout = p.layout := by
  unfold label at h
  by_cases one : depth = 1
  · simp only [one, ↓reduceIte, pure_eq_ok] at h ⊢
    obtain ⟨rfl, rfl⟩ := h
    exact ⟨rfl, rfl, rfl, rfl, rfl⟩
  · simp only [one, ↓reduceIte, bind_eq_ok, modify_apply, get_apply, pure_eq_ok] at h ⊢
    obtain ⟨_, _, ⟨⟩, _, _, ⟨⟩, rfl, rfl⟩ := h
    exact ⟨⟨_, rfl⟩, rfl, rfl, rfl, rfl⟩

theorem reserveLabel_eq_ok (h : reserveLabel l p = .ok () p') :
    l ∉ p.labels ∧ p'.tables = p.tables ∧ p'.labels = l :: p.labels ∧ p'.frame = p.frame ∧
      p'.layout = p.layout := by
  simp only [reserveLabel, bind_eq_ok, get_apply] at h
  obtain ⟨_, _, ⟨⟩, h⟩ := h
  split at h
  · simp [throw_apply] at h
  · rename_i fresh
    cases h
    exact ⟨fresh, rfl, rfl, rfl, rfl⟩

theorem create_eq_ok {count : Nat} {f : Frame} (small : count ≤ parameterLimit)
    (h : Frame.create l depth count = .ok f) :
    f = { label := l, depth, parameterCount := count,
          parametersSize := (count + 1) * Word.bytes } := by
  simp only [Frame.create, except_bind_eq_ok] at h
  obtain ⟨size, hs, h⟩ := h
  cases h
  rw [(parameterOffset_eq_ok small hs).2.1]

end

/-! ## Reading a piece of a program -/

/-- What comes out of reading a piece with these nodes and variables, in a function at this depth.
-/
structure Reads (ctx : Context) (ids locals : List NodeId) (facts : Tables → Prop) (depth : Nat)
    (p p' : Plan) : Prop where
  grows : Grows ids p p'
  facts : ∀ {t}, p'.tables.Le t → facts t
  places : ∀ {t}, p'.tables.Le t →
    Placed t (SizedBy ctx.types) depth (stopOf p'.frame) (stopOf p.frame) locals

section

variable {ctx : Context} {ids ids' locals locals' : List NodeId} {facts facts' : Tables → Prop}
  {depth : Nat} {p p' p'' : Plan}

theorem Reads.refl (h : ∀ t, facts t) : Reads ctx ids [] facts depth p p :=
  ⟨.refl _ _, fun _ => h _, fun _ => rfl⟩

theorem Grows.same_depth (h : Grows ids p p') : p'.frame.depth = p.frame.depth := by
  obtain ⟨n, hn⟩ := h.frame
  rw [hn]

/-- One piece after the other. -/
theorem Reads.seq (h : Reads ctx ids locals facts depth p p') (nodup : (ids ++ ids').Nodup)
    (fresh : p.tables.Fresh (ids ++ ids'))
    (h' : p'.tables.Fresh ids' → Reads ctx ids' locals' facts' depth p' p'') :
    Reads ctx (ids ++ ids') (locals ++ locals') (fun t => facts t ∧ facts' t) depth p p'' := by
  have fresh' : p'.tables.Fresh ids' := h.grows.outside.fresh
    (fresh.mono (List.subset_append_right _ _)) (List.disjoint_of_nodup_append nodup)
  have second := h' fresh'
  have le := second.grows.outside.le fresh'
  refine ⟨(h.grows.mono (List.subset_append_left _ _)).trans
    (second.grows.mono (List.subset_append_right _ _)), fun ht => ⟨h.facts (le.trans ht),
    second.facts ht⟩, fun ht => (h.places (le.trans ht)).append (second.places ht)⟩

theorem Reads.mono (h : Reads ctx ids locals facts depth p p') (sub : ids ⊆ ids')
    (hf : ∀ t, facts t → facts' t) : Reads ctx ids' locals facts' depth p p' :=
  ⟨h.grows.mono sub, fun ht => hf _ (h.facts ht), h.places⟩

theorem Reads.cons (id : NodeId) (h : Reads ctx ids locals facts depth p p')
    (hf : ∀ t, facts t → facts' t) : Reads ctx (id :: ids) locals facts' depth p p' :=
  ⟨h.grows.mono (List.subset_cons_self _ _), fun ht => hf _ (h.facts ht), h.places⟩

end

/-- The nodes of a declaration that are read after the variables of its block have their places. -/
def innerIds : Decl → List NodeId
  | .var _ _ type none => type.ids
  | .var _ _ type (some init) => type.ids ++ init.ids
  | d => d.ids

theorem innerIds_perm (ds : List Decl) :
    (varIds ds ++ ds.flatMap innerIds).Perm (ds.flatMap Decl.ids) := by
  induction ds with
  | nil => exact .refl _
  | cons d ds ih =>
    rw [List.flatMap_cons, List.flatMap_cons]
    cases d with
    | var site x type init =>
      have ids : (Decl.var site x type init).ids = site.id :: innerIds (.var site x type init) := by
        cases init <;> rfl
      rw [ids]
      refine (List.Perm.cons site.id ?_)
      exact (List.perm_append_comm_assoc _ _ _).trans (ih.append_left _)
    | absent | param | function =>
      exact (List.perm_append_comm_assoc _ _ _).trans (ih.append_left _)
    | «alias» => exact (List.perm_append_comm_assoc _ _ _).trans (ih.append_left _)

theorem ids_sublist (ds : List Decl) : (ds.map Decl.id).Sublist (ds.flatMap Decl.ids) := by
  induction ds with
  | nil => exact .slnil
  | cons d ds ih =>
    have own : [d.id].Sublist d.ids := List.singleton_sublist.2 d.id_mem_ids
    exact own.append ih

/-- The plan once the body of a function is read: the function has its frame, and the frame around
it is the current one again. -/
def Plan.close (p : Plan) (id : NodeId) (outer : Frame) : Plan :=
  { p with
    frame := outer
    layout := { p.layout with frames := p.layout.frames.insert id p.frame } }

theorem frame_close {id : NodeId} (none : p.tables.frame id = none) (outer : Frame) (id' : NodeId) :
    (p.close id outer).tables.frame id' =
      if id' = id then some p.frame else p.tables.frame id' := by
  simp only [Plan.tables] at none
  simp only [Plan.close, Plan.tables, NodeTable.get?_insert]
  split
  · rw [none, Option.none_or]
  · rfl

/-- A body is read in a frame of its own. -/
theorem Grows.within {frame : Frame} (h : Grows ids { p with frame } p') :
    Grows ids p { p' with frame := p.frame } := by
  refine ⟨h.outside, h.labels, h.news, fun hc => ?_, ⟨_, rfl⟩, h.layout⟩
  have inner := h.consistent ⟨hc.known, hc.distinct⟩
  exact ⟨inner.known, inner.distinct⟩

/-- A function gets its frame. The label of the frame was given out before the body was read. -/
theorem Grows.close {r : Plan} {l : String} {id : NodeId}
    (h : Grows ids r { p' with frame := p.frame }) (tables : r.tables = p.tables)
    (labels : r.labels = l :: p.labels) (layout : r.layout = p.layout) (new : l ∉ p.labels)
    (none : p'.tables.frame id = none) (label : p'.frame.label = l) :
    Grows (id :: ids) p (p'.close id p.frame) := by
  have own : l ∈ p'.labels := h.labels (by rw [labels]; exact List.mem_cons_self)
  have news {id' : NodeId} {f : Frame} (hf : p'.tables.frame id' = some f) :
      p.tables.frame id' = some f ∨ f.label ∈ p'.labels ∧ f.label ∉ l :: p.labels := by
    have cases := h.news hf
    rwa [tables, labels] at cases
  refine ⟨fun id' hid => ?_, fun x hx => h.labels (by rw [labels]; exact List.mem_cons_of_mem l hx),
    fun {id' f} hf => ?_, fun hc => ?_, ⟨_, rfl⟩, ?_⟩
  · obtain ⟨ne, hid⟩ := not_or.1 (List.mem_cons.not.1 hid)
    obtain ⟨ha, ho, hf⟩ := h.outside id' hid
    rw [tables] at ha ho hf
    refine ⟨ha, ho, ?_⟩
    rw [frame_close none, if_neg ne]
    exact hf
  · rw [frame_close none] at hf
    split at hf
    · obtain rfl := Option.some.inj hf
      exact .inr ⟨label ▸ own, label ▸ new⟩
    · exact (news hf).imp_right fun ⟨now, before⟩ => ⟨now, fun hmem => before (by simp [hmem])⟩
  · have reserved : Consistent r := by
      refine ⟨fun {id' f} hf => ?_, fun {i j f g} hf hg heq => ?_⟩
      · rw [tables] at hf
        rw [labels]
        exact List.mem_cons_of_mem l (hc.known hf)
      · rw [tables] at hf hg
        exact hc.distinct hf hg heq
    have inner := h.consistent reserved
    have other {id' : NodeId} {f : Frame} (hf : p'.tables.frame id' = some f) : f.label ≠ l := by
      rintro rfl
      rcases news hf with hf | ⟨-, before⟩
      · exact new (hc.known hf)
      · exact before List.mem_cons_self
    refine ⟨fun {id' f} hf => ?_, fun {i j f g} hf hg heq => ?_⟩
    · rw [frame_close none] at hf
      split at hf
      · obtain rfl := Option.some.inj hf
        exact label ▸ own
      · exact inner.known hf
    · rw [frame_close none] at hf hg
      split at hf <;> split at hg
      · next hi hj => exact hi.trans hj.symm
      · obtain rfl := Option.some.inj hf
        exact absurd (heq.symm.trans label) (other hg)
      · obtain rfl := Option.some.inj hg
        exact absurd (heq.trans label) (other hf)
      · exact inner.distinct hf hg heq
  · obtain ⟨frames, accesses, hl⟩ := h.layout
    dsimp only at hl
    exact ⟨_, accesses, by rw [Plan.close, hl, layout]⟩

variable {ctx : Context} {signatures : NodeTable Signature}

/-- The frame of a function is entered when its body is read. -/
theorem function_reads {site : Site} {name : String} {params : List Decl} {result : TypeExpr}
    {body : Expr}
    (h : decl ctx (Γ.length + 1) (.function site name params result body) p = .ok () p')
    (areParams : ∀ q ∈ params, q.isParam = true)
    (fresh : p.tables.Fresh (Decl.ids (.function site name params result body)))
    (nodup : (Decl.ids (.function site name params result body)).Nodup)
    (ih : ∀ {p p'}, expr ctx body p = .ok () p' → p.frame.depth = Γ.length + 1 →
      p.tables.Fresh body.ids →
      Reads ctx body.ids body.locals
      (fun t => body.Everywhere (placed ctx t) (Decl.level site params body :: Γ)) (Γ.length + 1) p
      p') :
    Reads ctx (Decl.ids (.function site name params result body)) []
      (fun t => Decl.Everywhere (placed ctx t) Γ (.function site name params result body))
      Γ.length p p' := by
  simp only [decl, bind_eq_ok, get_apply, checked_eq_ok, modify_apply] at h
  obtain ⟨l, p₁, hl, _, p₂, hr, _, _, hp, _, _, ⟨⟩, frame, p₃, ⟨hframe, rfl⟩, _, _, ⟨⟩, _, p₅, hb,
    ⟨⟩⟩ := h
  obtain ⟨named, tables₁, labels₁, frame₁, layout₁⟩ := label_eq_ok hl
  obtain ⟨new, tables₂, labels₂, frame₂, layout₂⟩ := reserveLabel_eq_ok hr
  rw [tables₁] at tables₂
  rw [labels₁] at new labels₂
  rw [layout₁] at layout₂
  have ids : Decl.ids (.function site name params result body) =
      site.id :: (params.flatMap Decl.ids ++ result.ids ++ body.ids) := by simp [Decl.ids]
  rw [ids] at fresh nodup ⊢
  obtain ⟨site_new, nodup⟩ := List.nodup_cons.1 nodup
  have nodup_params :=
    (List.nodup_append.1 (List.nodup_append.1 nodup).1).1.sublist (ids_sublist params)
  have sub_params : params.map Decl.id ⊆ params.flatMap Decl.ids := (ids_sublist params).subset
  have apart : (params.map Decl.id).Disjoint body.ids := fun x hx hb =>
    List.disjoint_of_nodup_append nodup (List.mem_append_left _ (sub_params hx)) hb
  have fresh₂ : p₂.tables.Fresh (params.map Decl.id) := by
    rw [tables₂]
    exact fresh.mono fun x hx => by simp [sub_params hx]
  obtain ⟨grows₃, frame₃, small, places₃⟩ :=
    placeParameters_eq_ok hp (Nat.zero_le _) fresh₂ nodup_params
  rw [Nat.zero_add] at small
  have outer : p₃.frame = p.frame := by rw [frame₃, frame₂, frame₁]
  have frame_eq := create_eq_ok small hframe
  have fresh₄ : p₃.tables.Fresh body.ids := grows₃.outside.fresh (by
    rw [tables₂]
    exact fresh.mono fun x hx => by simp [hx]) apart
  have inner := ih hb (by rw [frame_eq]) fresh₄
  have le₅ := inner.grows.outside.le fresh₄
  obtain ⟨localsSize, frame₅⟩ := inner.grows.frame
  dsimp only at frame₅
  rw [frame_eq] at frame₅
  have label₅ : p₅.frame.label = l := by rw [frame₅]
  have grows₅ : Grows (params.flatMap Decl.ids ++ result.ids ++ body.ids) p₂
      { p₅ with frame := p.frame } := by
    refine (grows₃.mono fun x hx => by simp [sub_params hx]).trans ?_
    rw [← outer]
    exact inner.grows.within.mono (List.subset_append_right _ _)
  have no_frame : p₅.tables.frame site.id = none := by
    have kept := (grows₅.outside site.id site_new).2.2
    rw [tables₂] at kept
    exact kept.trans (fresh site.id (by simp)).2.2
  have closed : Grows (site.id :: (params.flatMap Decl.ids ++ result.ids ++ body.ids)) p
      (p₅.close site.id p₃.frame) := by
    rw [outer]
    exact grows₅.close tables₂ labels₂ layout₂ new no_frame label₅
  refine ⟨closed, fun {t} ht => ?_, fun {t} ht => ?_⟩
  · have le : p₅.tables.Le t := by
      refine ⟨ht.access, ht.owner, fun {id f} hf => ht.frame ?_⟩
      have ne : id ≠ site.id := by
        rintro rfl
        cases no_frame.symm.trans hf
      exact (frame_close no_frame _ _).trans ((if_neg ne).trans hf)
    have own : t.frame site.id = some p₅.frame :=
      ht.frame ((frame_close no_frame _ _).trans (if_pos rfl))
    refine ⟨⟨p₅.frame, own, ?_⟩, ?_, inner.facts le⟩
    · have places := inner.places le
      refine ⟨by rw [frame₅], by simp [frame₅, Decl.level], ?_, ?_, label₅ ▸ named⟩
      · have here := (places₃.le (le₅.trans le))
        simpa [frame₅, Decl.level, Word.bytes] using here
      · simpa [frame_eq, frame₅, stopOf, Decl.level] using places
    · rw [Decl.everywhereList_iff]
      intro q hq
      cases q with
      | param => trivial
      | _ => cases areParams _ hq
  · rw [outer]
    rfl

/-- Reading a plain expression is reading its parts. -/
theorem expr_plain {e : Expr} (plain : e.isPlain = true) : expr ctx e = exprs ctx e.parts := by
  cases e <;> simp [Expr.isPlain, expr, exprs, Expr.parts] at plain ⊢

variable (ctx signatures) in
/-- Reading an expression in a function at this depth gives its variables their places. -/
def ReadsExpr (e : Expr) : Prop :=
  ∀ ⦃Γ : Env⦄ ⦃p p' : Plan⦄, expr ctx e p = .ok () p' → e.Everywhere (complete signatures) Γ →
    p.frame.depth = Γ.length → p.tables.Fresh e.ids → e.ids.Nodup →
    Reads ctx e.ids e.locals (fun t => e.Everywhere (placed ctx t) Γ) Γ.length p p'

variable (ctx signatures) in
/-- Reading a declaration whose block has its places; the depth is that of a function. -/
def ReadsDecl (d : Decl) : Prop :=
  ∀ ⦃Γ : Env⦄ ⦃depth : Nat⦄ ⦃p p' : Plan⦄, decl ctx depth d p = .ok () p' →
    d.Everywhere (complete signatures) Γ → (d.isFunction = true → depth = Γ.length + 1) →
    (d.isVar = true → p.frame.depth = Γ.length) → p.tables.Fresh (innerIds d) → (innerIds d).Nodup →
    Reads ctx (innerIds d) d.locals (fun t => d.Everywhere (placed ctx t) Γ) Γ.length p p'

theorem exprs_reads {es : List Expr} (each : ∀ e ∈ es, ReadsExpr ctx signatures e)
    (h : exprs ctx es p = .ok () p') (hc : Expr.EverywhereList (complete signatures) Γ es)
    (depth : p.frame.depth = Γ.length) (fresh : p.tables.Fresh (Expr.idsList es))
    (nodup : (Expr.idsList es).Nodup) :
    Reads ctx (Expr.idsList es) (Expr.localsList es)
      (fun t => Expr.EverywhereList (placed ctx t) Γ es) Γ.length p p' := by
  induction es generalizing p with
  | nil =>
    cases h
    exact .refl fun _ => trivial
  | cons e es ih =>
    simp only [exprs, bind_eq_ok] at h
    obtain ⟨_, _, he, hes⟩ := h
    have first := each e (by simp) he hc.1 depth (fresh.mono (List.subset_append_left _ _))
      (List.nodup_append.1 nodup).1
    exact first.seq nodup fresh fun fresh' => ih (fun e he => each e (by simp [he])) hes hc.2
      (first.grows.same_depth.trans depth) fresh' (List.nodup_append.1 nodup).2.1

theorem decls_read {ds : List Decl} (each : ∀ d ∈ ds, ReadsDecl ctx signatures d)
    (h : decls ctx depth ds p = .ok () p') (hc : Decl.EverywhereList (complete signatures) Γ ds)
    (functions : ∀ d ∈ ds, d.isFunction = true → depth = Γ.length + 1)
    (vars : ∀ d ∈ ds, d.isVar = true → p.frame.depth = Γ.length)
    (fresh : p.tables.Fresh (ds.flatMap innerIds)) (nodup : (ds.flatMap innerIds).Nodup) :
    Reads ctx (ds.flatMap innerIds) (Decl.localsList ds)
      (fun t => Decl.EverywhereList (placed ctx t) Γ ds) Γ.length p p' := by
  induction ds generalizing p with
  | nil =>
    cases h
    exact .refl fun _ => trivial
  | cons d ds ih =>
    simp only [decls, bind_eq_ok] at h
    obtain ⟨_, _, hd, hds⟩ := h
    rw [List.flatMap_cons] at fresh nodup ⊢
    have first := each d (by simp) hd hc.1 (functions d (by simp)) (vars d (by simp))
      (fresh.mono (List.subset_append_left _ _)) (List.nodup_append.1 nodup).1
    exact first.seq nodup fresh fun fresh' => ih (fun d hd => each d (by simp [hd])) hds hc.2
      (fun d hd => functions d (by simp [hd]))
      (fun d hd hv => first.grows.same_depth.trans (vars d (by simp [hd]) hv)) fresh'
      (List.nodup_append.1 nodup).2.1

theorem plain_reads {e : Expr} (plain : e.isPlain = true)
    (parts : ∀ c ∈ e.parts, ReadsExpr ctx signatures c) : ReadsExpr ctx signatures e := by
  intro Γ p p' h hc depth fresh nodup
  rw [expr_plain plain] at h
  rw [Expr.ids_plain plain] at fresh nodup ⊢
  rw [Expr.locals_plain plain]
  refine (exprs_reads parts h ((Expr.everywhere_plain plain).1 hc).2 depth
    (fresh.mono (List.subset_cons_self _ _)) (List.nodup_cons.1 nodup).2).cons _ fun t hf => ?_
  refine (Expr.everywhere_plain plain).2 ⟨?_, hf⟩
  cases e <;> trivial

theorem scoped_reads {site : Site} {ds : List Decl} {b : Expr}
    (items : ∀ d ∈ ds, ReadsDecl ctx signatures d) (body : ReadsExpr ctx signatures b) :
    ReadsExpr ctx signatures (.scoped site ds b) := by
  intro Γ p _ h hc depth fresh nodup
  simp only [expr, bind_eq_ok, get_apply] at h
  obtain ⟨_, _, ⟨⟩, _, p₁, hv, _, p₂, hd, hb⟩ := h
  rw [depth] at hv hd
  have nodup := (List.nodup_cons.1 nodup).2
  have fresh := fresh.mono (List.subset_cons_self _ _)
  simp only [Decl.idsList_eq] at nodup fresh
  have perm := (innerIds_perm ds).append_right b.ids
  have nodup := perm.nodup_iff.2 nodup
  have fresh := fresh.mono perm.subset
  have nodup₂ := (List.nodup_append.1 nodup).1
  have fresh₂ := fresh.mono (List.subset_append_left _ _)
  obtain ⟨grows, places⟩ := placeLocals_eq_ok ds hv (fresh₂.mono (List.subset_append_left _ _))
    (List.nodup_append.1 nodup₂).1
  have first : Reads ctx (varIds ds) (varIds ds) (fun _ => True) Γ.length p p₁ :=
    ⟨grows, fun _ => trivial, fun ht => places.le ht⟩
  have second := first.seq nodup₂ fresh₂ fun fresh' => decls_read items hd hc.2.1 (fun _ _ _ => rfl)
    (fun _ _ _ => first.grows.same_depth.trans depth) fresh' (List.nodup_append.1 nodup₂).2.1
  have third := second.seq nodup fresh fun fresh' => body hb hc.2.2
    (second.grows.same_depth.trans depth) fresh' (List.nodup_append.1 nodup).2.1
  refine third.mono ?_ fun _ hf => ⟨trivial, hf.1.2, hf.2⟩
  rw [Expr.ids, Decl.idsList_eq]
  exact List.Subset.trans perm.subset (List.subset_cons_self _ _)

theorem all_read : (∀ e, ReadsExpr ctx signatures e) ∧ ∀ d, ReadsDecl ctx signatures d := by
  apply byParts
  · intro e items parts
    by_cases plain : e.isPlain = true
    · exact plain_reads plain parts
    cases e with
    | absent | hole =>
      intro _ _ _ h
      simp [expr, throw_apply] at h
    | name site x =>
      intro Γ p p' h _ depth fresh _
      obtain ⟨grows, frame, d, owner, access, access', bound, howner, haccess, hreach, hid⟩ :=
        nameRef_eq_ok h fresh
      rw [depth] at hreach
      exact ⟨grows, fun ht => ⟨d, owner, access, access', bound, ht.owner howner, ht.access haccess,
        hreach, ht.access hid⟩, fun _ => by rw [frame]; rfl⟩
    | «scoped» => exact scoped_reads items (parts _ (List.mem_singleton.2 rfl))
    | _ => exact absurd rfl plain
  · intro d _ body
    cases d with
    | var _ _ type init =>
      intro _ _ _ _ h hc _ depth fresh nodup
      cases init with
      | none =>
        cases h
        exact .refl fun _ => trivial
      | some init =>
        exact (body _ rfl h hc.2 (depth rfl) (fresh.mono (List.subset_append_right _ _))
          (List.nodup_append.1 nodup).2.1).mono (List.subset_append_right _ _) fun _ hf =>
          ⟨trivial, hf⟩
    | function =>
      intro _ _ _ _ h hc depth _ fresh nodup
      obtain ⟨_, -, -, -, areParams⟩ := hc.1
      rw [depth rfl] at h
      have inner := (List.nodup_append.1 (List.nodup_cons.1 nodup).2).2.1
      exact function_reads h areParams fresh nodup fun hb depth fresh' =>
        body _ rfl hb hc.2.2 depth fresh' inner
    | _ =>
      intro _ _ _ _ h
      cases h
      exact fun _ _ _ _ _ => .refl fun _ => trivial

/-! ## The layout of a program -/

/-- Static data for a variable of the top level. -/
def GlobalFor (types : NodeTable Ty) (t : Tables) (d : Decl) (g : Global) : Prop :=
  ∃ site x type init, d = .var site x type init ∧ g.label = x ∧
    t.access site.id = some (.global x) ∧ t.owner site.id = some 0 ∧
    ∃ w, SizedBy types site.id w ∧ g.size = w * Word.bytes

theorem GlobalFor.le {types : NodeTable Ty} {t' : Tables} (le : t.Le t') {d : Decl} {g : Global}
    (h : GlobalFor types t d g) : GlobalFor types t' d g := by
  obtain ⟨site, x, type, init, hd, hl, access, owner, size⟩ := h
  exact ⟨site, x, type, init, hd, hl, le.access access, le.owner owner, size⟩

/-- Placing globals changes their entries and the list of globals. -/
theorem placeGlobals_eq_ok : (ds : List Decl) → {p p' : Plan} →
    placeGlobals ctx ds p = .ok () p' → p.tables.Fresh (varIds ds) → (varIds ds).Nodup →
    Tables.Outside (varIds ds) p.tables p'.tables ∧ p'.frame = p.frame ∧ p'.labels = p.labels ∧
      p'.tables.frame = p.tables.frame ∧ ∃ gs, p'.layout.globals = p.layout.globals ++ gs ∧
      List.Forall₂ (GlobalFor ctx.types p'.tables) (ds.filter Decl.isVar) gs
  | [], p, p', h, _, _ => by
    cases h
    exact ⟨.refl _ _, rfl, rfl, rfl, [], by simp, .nil⟩
  | .var site x type init :: ds, p, p', h, fresh, nodup => by
    simp only [placeGlobals, bind_eq_ok, modify_apply, checked_eq_ok, Word.mul_eq_ok] at h
    obtain ⟨w, _, hw, _, q, ⟨⟨-, rfl⟩, rfl⟩, _, _, ⟨⟩, _, p₂, hp, h⟩ := h
    obtain ⟨sized, rfl⟩ := wordsOf_eq_ok hw
    have ids : varIds (.var site x type init :: ds) = site.id :: varIds ds := rfl
    rw [ids] at fresh nodup ⊢
    obtain ⟨grows, frame, access, owner⟩ := place_eq_ok hp (fresh.mono (by simp))
    have frames : p₂.tables.frame = q.tables.frame := by
      cases hp
      rfl
    have labels : p₂.labels = q.labels := by
      cases hp
      rfl
    have outside : Tables.Outside [site.id] q.tables p₂.tables := grows.outside
    have fresh₂ : p₂.tables.Fresh (varIds ds) :=
      outside.fresh (fresh.mono (List.subset_cons_self _ _))
        (List.disjoint_left.2 (by simpa using (List.nodup_cons.1 nodup).1))
    obtain ⟨outside', frame', labels', frames', gs, globals, all⟩ :=
      placeGlobals_eq_ok ds h fresh₂ (List.nodup_cons.1 nodup).2
    have le := outside'.le fresh₂
    refine ⟨(outside.mono (by simp)).trans (outside'.mono (List.subset_cons_self _ _)),
      frame'.trans frame, labels'.trans labels, frames'.trans frames,
      { label := x, size := w * Word.bytes } :: gs, ?_, ?_⟩
    · obtain ⟨_, _, layout⟩ := grows.layout
      rw [globals, layout]
      simp
    · exact .cons ⟨site, x, type, init, rfl, rfl, le.access access, le.owner owner, w,
        sized, rfl⟩ all
  | .absent _ :: ds, p, p', h, fresh, nodup | .alias _ _ _ :: ds, p, p', h, fresh, nodup
  | .param _ _ _ :: ds, p, p', h, fresh, nodup
  | .function _ _ _ _ _ :: ds, p, p', h, fresh, nodup => placeGlobals_eq_ok ds h fresh nodup

/-- What a layout says about a program. -/
structure Describes (types : NodeTable Ty) (layout : Layout) (t : Tables) (source : Source) :
    Prop where
  access : t.access = layout.accesses.get?
  frame : t.frame = layout.frames.get?
  globals : List.Forall₂ (GlobalFor types t) (source.definitions.filter Decl.isVar) layout.globals
  init : FrameOf types t layout.init Frame.initLabel 1 source.init
  labels : ∀ {id id' f f'}, t.frame id = some f → t.frame id' = some f' →
    f.label = f'.label → id = id'
  notInit : ∀ {id f}, t.frame id = some f → f.label ≠ Frame.initLabel

end PinsBackend.Layout

namespace PinsBackend.Syntax

open Layout

theorem flatMap_sublist {f : Decl → List NodeId} {ds es : List Decl} (h : ds.Sublist es) :
    (ds.flatMap f).Sublist (es.flatMap f) := by
  induction h with
  | slnil => exact .slnil
  | cons d _ ih => exact ih.trans (List.sublist_append_right _ _)
  | cons_cons d _ ih => exact (List.Sublist.refl _).append ih

/-- The nodes of the top level, in the order in which they are read. -/
theorem read_nodup {ds : List Decl} (nodup : (ds.flatMap Decl.ids).Nodup) :
    (varIds ds ++ (ds.filter Decl.isVar).flatMap innerIds ++
      (ds.filter Decl.isFunction).flatMap innerIds).Nodup := by
  have functions : (ds.filter Decl.isFunction).Sublist (ds.filter fun d => !d.isVar) := by
    have same : (ds.filter fun d => !d.isVar).filter Decl.isFunction =
        ds.filter Decl.isFunction := by
      rw [List.filter_filter]
      refine List.filter_congr fun d _ => ?_
      cases d <;> rfl
    exact same ▸ List.filter_sublist
  have perm : ((ds.filter Decl.isVar).flatMap innerIds ++
      (ds.filter fun d => !d.isVar).flatMap innerIds).Perm (ds.flatMap innerIds) := by
    rw [← List.flatMap_append]
    exact (List.filter_append_perm _ ds).flatMap_right _
  have all := ((perm.append_left (varIds ds)).trans (innerIds_perm ds)).nodup_iff.2 nodup
  rw [List.append_assoc]
  exact all.sublist ((List.Sublist.refl _).append ((List.Sublist.refl _).append
    (flatMap_sublist functions)))

theorem tables_start : ({} : Plan).tables = ⟨fun _ => none, fun _ => none, fun _ => none⟩ := by
  simp only [Plan.tables, Tables.mk.injEq]
  refine ⟨funext NodeTable.get?_empty, ?_, funext NodeTable.get?_empty⟩
  funext id
  simp

/-- A layout of a program without gaps describes the program. -/
theorem Source.layout_describes {source : Source} {signatures : NodeTable Signature}
    {bindings : NodeTable Binding} {types : NodeTable Ty} {layout : Layout}
    (hc : source.Everywhere (complete signatures))
    (nodup : (source.definitions.flatMap Decl.ids).Nodup)
    (h : source.layout bindings types = .ok layout) :
    ∃ t, Describes types layout t source ∧ source.Everywhere (placed { bindings, types } t) := by
  unfold Source.layout at h
  split at h
  · rename_i plan hp
    cases h
    simp only [Layout.program, bind_eq_ok, modify_apply] at hp
    obtain ⟨_, p₁, hg, _, p₂, hv, _, _, ⟨⟩, hf⟩ := hp
    have nodup := read_nodup nodup
    have nodup₂ := (List.nodup_append.1 nodup).1
    have fresh (ids : List NodeId) : ({} : Plan).tables.Fresh ids := by
      rw [tables_start]
      exact fun _ _ => ⟨rfl, rfl, rfl⟩
    obtain ⟨outside₁, frame₁, labels₁, frames₁, gs, globals₁, all⟩ :=
      placeGlobals_eq_ok _ hg (fresh _) (List.nodup_append.1 nodup₂).1
    have fresh₁ : p₁.tables.Fresh ((source.definitions.filter Decl.isVar).flatMap innerIds) :=
      outside₁.fresh (fresh _) (List.disjoint_of_nodup_append nodup₂)
    have isVar {d : Decl} (hd : d ∈ source.definitions.filter Decl.isVar) : d.isVar = true :=
      (List.mem_filter.1 hd).2
    have vars := decls_read (fun d _ => all_read.2 d) hv hc.vars
      (fun d hd hfun => by
        have := isVar hd
        cases d <;> simp_all [Decl.isVar, Decl.isFunction])
      (fun _ _ _ => by rw [frame₁]; rfl) fresh₁ (List.nodup_append.1 nodup₂).2.1
    have outside₂ : Tables.Outside (varIds source.definitions ++
        (source.definitions.filter Decl.isVar).flatMap innerIds) ({} : Plan).tables p₂.tables :=
      (outside₁.mono (List.subset_append_left _ _)).trans
        (vars.grows.outside.mono (List.subset_append_right _ _))
    have isFunction {d : Decl} (hd : d ∈ source.definitions.filter Decl.isFunction) :
        d.isFunction = true := (List.mem_filter.1 hd).2
    have fresh₂ : p₂.tables.Fresh ((source.definitions.filter Decl.isFunction).flatMap innerIds) :=
      outside₂.fresh (fresh _) (List.disjoint_of_nodup_append nodup)
    have functions := decls_read (fun d _ => all_read.2 d) hf hc.functions (fun _ _ _ => rfl)
      (fun d hd hv => by simp [Decl.isVar_of_isFunction (isFunction hd)] at hv) fresh₂
      (List.nodup_append.1 nodup).2.1
    have le₂ : p₂.tables.Le plan.tables := functions.grows.outside.le fresh₂
    have le₁ : p₁.tables.Le plan.tables := (vars.grows.outside.le fresh₁).trans le₂
    obtain ⟨_, _, layout₂⟩ := vars.grows.layout
    obtain ⟨_, _, layout₃⟩ := functions.grows.layout
    obtain ⟨localsSize, frame₂⟩ := vars.grows.frame
    rw [frame₁] at frame₂
    have none {id : NodeId} : p₁.tables.frame id = none := by rw [frames₁, tables_start]
    have start : Consistent p₁ := ⟨fun hf => by simp [none] at hf, fun hf => by simp [none] at hf⟩
    have consistent₂ := vars.grows.consistent start
    have consistent := functions.grows.consistent ⟨consistent₂.known, consistent₂.distinct⟩
    refine ⟨plan.tables, ⟨rfl, rfl, ?_, ?_, consistent.distinct, ?_⟩, ?_⟩
    · have same : plan.layout.globals = gs := by rw [layout₃, layout₂, globals₁]; rfl
      exact same ▸ all.imp fun _ _ hd => hd.le le₁
    · have same : plan.layout.init = p₂.frame := by rw [layout₃]
      have places := vars.places le₂
      rw [frame₁] at places
      rw [same, frame₂] at *
      exact ⟨rfl, rfl, rfl, places, rfl⟩
    · intro id f hf heq
      have old : Frame.initLabel ∈ p₁.labels := by simp [labels₁]
      rcases functions.grows.news hf with hf | ⟨-, new⟩
      · rcases vars.grows.news hf with hf | ⟨-, new⟩
        · simp [none] at hf
        · exact new (heq ▸ old)
      · exact new (heq ▸ vars.grows.labels old)
    · intro d hd
      by_cases hvar : d.isVar = true
      · rw [Source.envOf, if_pos hvar]
        exact Decl.everywhereList_iff.1 (vars.facts le₂) d (List.mem_filter.2 ⟨hd, hvar⟩)
      · rw [Source.envOf, if_neg hvar]
        cases d with
        | function =>
          exact Decl.everywhereList_iff.1 (functions.facts (.refl _)) _
            (List.mem_filter.2 ⟨hd, rfl⟩)
        | var => exact absurd rfl hvar
        | absent | param => trivial
        | «alias» => trivial
  · cases h

end PinsBackend.Syntax
