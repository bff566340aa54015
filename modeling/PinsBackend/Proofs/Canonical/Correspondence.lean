import Mathlib.Data.List.Forall2
import PinsBackend.Proofs.Ir.Splitting
import PinsBackend.Machine.Linear
import PinsBackend.Machine.Nested

/-! How the chunks of linear code correspond to those of the tree code they come from, and where
labels stand in them. -/
namespace PinsBackend.Ir

/-- The linear form of a chunk, with the temporary from which on splitting takes fresh ones. -/
structure Chunk.Linearized (c : Chunk Stmt) (c' : Chunk (List Stmt)) (limit : Temp) : Prop where
  frame : c'.frame = c.frame
  two_le : Temp.firstFree ≤ limit
  below : c.body.effects.Below limit
  split : ∃ s n, Canonical.stmt c.body limit = .ok s n ∧ c'.body = s.code

theorem Canonical.firstFree_below {body : Stmt} {n : Temp} (h : firstFree body = .ok n) :
    Temp.firstFree ≤ n ∧ body.effects.Below n := by
  unfold firstFree Stmt.maxTemp? at h
  split at h
  · next none =>
    simp only [Except.ok.injEq] at h
    simp only [List.max?_eq_none_iff, List.append_eq_nil_iff] at none
    simp [← h, Effects.Below, none]
  · next t some =>
    split at h
    · simp only [Except.ok.injEq] at h
      have le := (List.max?_eq_some_iff.1 some).2
      have bound : ∀ u ∈ body.effects.reads ++ body.effects.writes, u < n := by
        intro u hu
        have next : t + 1 ≤ n := h ▸ Nat.le_max_left _ _
        exact Nat.lt_of_le_of_lt (le u hu) next
      refine ⟨h ▸ Nat.le_max_right _ _, fun u hu => bound u ?_, fun u hu => bound u ?_⟩
      · exact List.mem_append_left _ hu
      · exact List.mem_append_right _ hu
    · simp at h

variable {c : Chunk Stmt} {c' : Chunk (List Stmt)} {l : String} {p : TreeProgram}
  {q : LinearProgram}

theorem Chunk.linearized_of_canonical (h : c.canonical = .ok c') :
    ∃ limit, c.Linearized c' limit := by
  simp only [Chunk.canonical, except_bind_eq_ok] at h
  obtain ⟨body, hbody, hc⟩ := h
  simp only [pure, Except.pure, Except.ok.injEq] at hc
  simp only [Canonical.linearize, except_bind_eq_ok] at hbody
  obtain ⟨limit, hlimit, hsplit⟩ := hbody
  have ⟨two, below⟩ := Canonical.firstFree_below hlimit
  subst hc
  split at hsplit
  · next s n hs =>
    simp only [Except.ok.injEq] at hsplit
    exact ⟨limit, rfl, two, below, s, n, hs, hsplit.symm⟩
  · simp at hsplit

theorem mapM_forall₂ {α β ε : Type} {f : α → Except ε β} {as : List α} {bs : List β}
    (h : as.mapM f = .ok bs) : List.Forall₂ (fun a b => f a = .ok b) as bs := by
  induction as generalizing bs with
  | nil =>
    simp only [List.mapM_nil, pure, Except.pure, Except.ok.injEq] at h
    exact h ▸ .nil
  | cons a as ih =>
    simp only [List.mapM_cons, except_bind_eq_ok] at h
    obtain ⟨b, hb, bs', hbs, heq⟩ := h
    simp only [pure, Except.pure, Except.ok.injEq] at heq
    exact heq ▸ .cons hb (ih hbs)

theorem exists_of_mem_left {α β : Type} {R : α → β → Prop} {as : List α} {bs : List β}
    (h : List.Forall₂ R as bs) {a : α} (ha : a ∈ as) : ∃ b ∈ bs, R a b := by
  induction h with
  | nil => cases ha
  | cons first _ ih =>
    rcases List.mem_cons.1 ha with rfl | ha
    · exact ⟨_, List.mem_cons_self .., first⟩
    · obtain ⟨b, hb, hr⟩ := ih ha
      exact ⟨b, List.mem_cons_of_mem _ hb, hr⟩

theorem foldl_forall₂ {cs : List (Chunk Stmt)} {cs' : List (Chunk (List Stmt))}
    (h : List.Forall₂ (fun c c' => Chunk.canonical c = .ok c') cs cs') {o : Option (Chunk Stmt)}
    {o' : Option (Chunk (List Stmt))} (ho : Option.Rel (fun c c' => c.canonical = .ok c') o o') :
    Option.Rel (fun c c' => c.canonical = .ok c')
      (cs.foldl (fun found c => if c.frame.label = l then some c else found) o)
      (cs'.foldl (fun found c => if c.frame.label = l then some c else found) o') := by
  induction h generalizing o o' with
  | nil => exact ho
  | @cons c c' cs cs' hc _ ih =>
    have frame : c'.frame = c.frame := by
      obtain ⟨_, hlin⟩ := Chunk.linearized_of_canonical hc
      exact hlin.frame
    simp only [List.foldl_cons, frame]
    split
    · exact ih (.some hc)
    · exact ih ho

/-- The linear chunks are those of the tree chunks, in their order. -/
theorem TreeProgram.canonical_chunks (h : p.canonical = .ok q) :
    List.Forall₂ (fun c c' => Chunk.canonical c = .ok c') (p.init :: p.chunks)
      (q.init :: q.chunks) := by
  simp only [TreeProgram.canonical, except_bind_eq_ok] at h
  obtain ⟨init, hinit, chunks, hchunks, hq⟩ := h
  simp only [pure, Except.pure, Except.ok.injEq] at hq
  subst hq
  exact .cons hinit (mapM_forall₂ hchunks)

/-- A label calls corresponding chunks, or none. -/
theorem TreeProgram.chunk?_canonical (h : p.canonical = .ok q) (l : String) :
    Option.Rel (fun c c' => Chunk.canonical c = .ok c') (p.chunk? l) (q.chunk? l) :=
  foldl_forall₂ (canonical_chunks h) .none

theorem TreeProgram.chunk?_of_canonical (h : p.canonical = .ok q) (hc : p.chunk? l = some c) :
    ∃ c', q.chunk? l = some c' ∧ c.canonical = .ok c' := by
  have rel := chunk?_canonical h l
  rw [hc] at rel
  cases hq : q.chunk? l with
  | none =>
    rw [hq] at rel
    cases rel
  | some c' =>
    rw [hq] at rel
    obtain ⟨split⟩ := rel
    exact ⟨c', rfl, split⟩

theorem TreeProgram.isSome_chunk?_canonical (h : p.canonical = .ok q) (l : String) :
    (q.chunk? l).isSome = (p.chunk? l).isSome := by
  have rel := chunk?_canonical h l
  cases hp : p.chunk? l with
  | none =>
    rw [hp] at rel
    cases hq : q.chunk? l with
    | none => rfl
    | some c' =>
      rw [hq] at rel
      cases rel
  | some c =>
    obtain ⟨c', hq, -⟩ := chunk?_of_canonical h hp
    rw [hq]
    rfl

theorem TreeProgram.canonical_globals (h : p.canonical = .ok q) :
    q.globals = p.globals ∧ q.entry = p.entry := by
  simp only [TreeProgram.canonical, except_bind_eq_ok] at h
  obtain ⟨init, hinit, chunks, hchunks, hq⟩ := h
  simp only [pure, Except.pure, Except.ok.injEq] at hq
  subst hq
  exact ⟨rfl, rfl⟩

theorem Program.mem_of_chunk? {Body : Type} {p : Program Body} {c : Chunk Body}
    (h : p.chunk? l = some c) : c ∈ p.init :: p.chunks ∧ c.frame.label = l := by
  have found : ∀ (cs : List (Chunk Body)) (o : Option (Chunk Body)),
      cs.foldl (fun found c => if c.frame.label = l then some c else found) o = some c →
      o = some c ∨ (c ∈ cs ∧ c.frame.label = l) := by
    intro cs
    induction cs with
    | nil => intro o ho; exact .inl ho
    | cons d ds ih =>
      intro o ho
      rcases ih _ ho with hd | ⟨hm, hl⟩
      · by_cases hlabel : d.frame.label = l
        · simp only [hlabel, ↓reduceIte, Option.some.injEq] at hd
          exact .inr ⟨by simp [hd], hd ▸ hlabel⟩
        · simp only [hlabel, ↓reduceIte] at hd
          exact .inl hd
      · exact .inr ⟨List.mem_cons_of_mem _ hm, hl⟩
  rcases found _ _ h with h | h
  · cases h
  · exact h

/-! ## Labels -/

/-- The labels that linear code defines. -/
def labelsOf (code : List Stmt) : List String := (code.flatMap Stmt.events).filterMap Event.label?

theorem labelsOf_append (a b : List Stmt) : labelsOf (a ++ b) = labelsOf a ++ labelsOf b := by
  simp [labelsOf]

theorem labelsOf_code (s : Stmt) : labelsOf s.code = s.labels := by
  rw [labelsOf, Stmt.events_code, Stmt.labels]

/-- Linear code passes what the tree code passes. -/
theorem Chunk.Linearized.events {limit : Temp} (h : c.Linearized c' limit) :
    c'.body.flatMap Stmt.events = c.body.events := by
  obtain ⟨s, n, hs, hbody⟩ := h.split
  rw [hbody, Stmt.events_code, (Canonical.stmt_splits c.body hs h.below).events]

theorem Chunk.Linearized.labels {limit : Temp} (h : c.Linearized c' limit) :
    labelsOf c'.body = c.body.labels := by
  rw [labelsOf, h.events, Stmt.labels]

theorem mem_labelsOf_of_seek {code found : List Stmt} (h : Linear.seek l code = some found) :
    l ∈ labelsOf code := by
  induction code generalizing found with
  | nil => simp [Linear.seek] at h
  | cons s rest ih =>
    have split : labelsOf (s :: rest) = labelsOf [s] ++ labelsOf rest := labelsOf_append [s] rest
    rw [split, List.mem_append]
    simp only [Linear.seek] at h
    split at h
    · next hrest => exact .inr (ih hrest)
    · split at h
      · next hlabel =>
        cases s <;> simp only [Stmt.isLabel, Bool.false_eq_true, beq_iff_eq] at hlabel
        subst hlabel
        exact .inl (by simp [labelsOf, Stmt.events, Event.label?])
      · cases h

/-- A label that is defined once is found where it stands. -/
theorem seek_of_suffix {code rest : List Stmt} (hn : (labelsOf code).Nodup)
    (h : (.label l :: rest) <:+ code) : Linear.seek l code = some (.label l :: rest) := by
  induction code with
  | nil => simp at h
  | cons s code ih =>
    rw [show s :: code = [s] ++ code from rfl, labelsOf_append, List.nodup_append] at hn
    rcases List.suffix_cons_iff.1 h with heq | hsuffix
    · injection heq with hs hrest
      subst hs hrest
      have absent : Linear.seek l rest = none := by
        cases found : Linear.seek l rest with
        | none => rfl
        | some _ =>
          have hmem := mem_labelsOf_of_seek found
          have head : l ∈ labelsOf [.label l] := by simp [labelsOf, Stmt.events, Event.label?]
          exact absurd rfl (hn.2.2 l head l hmem)
      simp [Linear.seek, absent, Stmt.isLabel]
    · simp [Linear.seek, ih hn.2.1 hsuffix]

theorem nested_seek_eq_some {all target : List Stmt} (h : Nested.seek l all = some target) :
    ∃ before rest, all = before ++ .label l :: rest ∧ target = .label l :: rest := by
  induction all with
  | nil => simp [Nested.seek] at h
  | cons s ss ih =>
    simp only [Nested.seek] at h
    split at h
    · next hlabel =>
      cases s <;> simp only [Stmt.isLabel, Bool.false_eq_true, beq_iff_eq] at hlabel
      subst hlabel
      exact ⟨[], ss, rfl, by simpa [eq_comm] using h⟩
    · obtain ⟨before, rest, rfl, rfl⟩ := ih h
      exact ⟨s :: before, rest, rfl, rfl⟩

namespace Canonical

theorem stmts_append {a b : List Stmt} {n n' : Temp} {l : List Stmt} :
    stmts (a ++ b) n = .ok l n' ↔
      ∃ a' m b', stmts a n = .ok a' m ∧ stmts b m = .ok b' n' ∧ l = a' ++ b' := by
  induction a generalizing n l with
  | nil =>
    simp only [List.nil_append, stmts, pure_eq_ok]
    constructor
    · intro h; exact ⟨[], n, l, ⟨rfl, rfl⟩, h, rfl⟩
    · rintro ⟨_, _, _, ⟨rfl, rfl⟩, h, rfl⟩
      exact h
  | cons s a ih =>
    simp only [List.cons_append, stmts, bind_eq_ok, pure_eq_ok]
    constructor
    · rintro ⟨s', m, hs, l', n'', hl, rfl, rfl⟩
      obtain ⟨a', m', b', ha, hb, rfl⟩ := ih.1 hl
      exact ⟨s' :: a', m', b', ⟨s', m, hs, a', m', ha, rfl, rfl⟩, hb, rfl⟩
    · rintro ⟨_, _, b', ⟨s', m, hs, a', m', ha, rfl, rfl⟩, hb, rfl⟩
      exact ⟨s', m, hs, a' ++ b', n', ih.2 ⟨a', m', b', ha, hb, rfl⟩, rfl, rfl⟩

mutual

/-- Splitting a statement is splitting what it flattens to. -/
theorem stmts_flatten : (s : Stmt) → ∀ {n s' n'}, stmt s n = .ok s' n' →
    ∃ ss', stmts s.flatten n = .ok ss' n' ∧ Stmt.codeList ss' = s'.code
  | .seq ss, n, s', n', h => by
    simp only [stmt, bind_eq_ok, pure_eq_ok] at h
    obtain ⟨ss', m, hss, rfl, rfl⟩ := h
    exact stmts_flattenList ss hss
  | .move _ _, n, s', n', h | .eval _, n, s', n', h | .jump _, n, s', n', h
  | .cjump _ _ _, n, s', n', h | .label _, n, s', n', h => by
    refine ⟨[s'], ?_, by simp⟩
    simp only [Stmt.flatten, stmts, bind_eq_ok, pure_eq_ok]
    exact ⟨s', n', h, [], n', ⟨rfl, rfl⟩, rfl, rfl⟩

theorem stmts_flattenList : (ss : List Stmt) → ∀ {n ss' n'}, stmts ss n = .ok ss' n' →
    ∃ fs', stmts (Stmt.flattenList ss) n = .ok fs' n' ∧ Stmt.codeList fs' = Stmt.codeList ss'
  | [], n, ss', n', h => ⟨ss', h, rfl⟩
  | s :: ss, n, ss', n', h => by
    simp only [stmts, bind_eq_ok, pure_eq_ok] at h
    obtain ⟨s', m, hs, rest, m', hss, rfl, rfl⟩ := h
    obtain ⟨fs, hfs, hcode⟩ := stmts_flatten s hs
    obtain ⟨gs, hgs, hcode'⟩ := stmts_flattenList ss hss
    refine ⟨fs ++ gs, stmts_append.2 ⟨fs, m, gs, hfs, hgs, rfl⟩, ?_⟩
    rw [Stmt.codeList_append, hcode, hcode', Stmt.codeList_cons]

end

end Canonical
end PinsBackend.Ir
