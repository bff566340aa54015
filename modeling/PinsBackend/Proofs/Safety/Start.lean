import PinsBackend.Proofs.Safety.Calls

/-! How a run starts.

Static data gets its addresses from 0 upward, if there is room for it. All cells are zero then, and
no function is active. -/
namespace PinsBackend.Safety

open Ir Kinds
open Meaning (Place Datum Activation Store)
open Syntax (Env Level)

/-! ## Static data -/

theorem lookup_filter_ne {α β : Type} [DecidableEq α] {l : List (α × β)} {a b : α} (ne : a ≠ b) :
    (l.filter (·.1 ≠ b)).lookup a = l.lookup a := by
  induction l with
  | nil => rfl
  | cons x l ih =>
    obtain ⟨c, y⟩ := x
    by_cases hc : c = b
    · subst hc
      have differ : (a == c) = false := beq_eq_false_iff_ne.2 ne
      simp only [List.filter_cons, ne_eq, not_true_eq_false, decide_false,
        Bool.false_eq_true, if_false, List.lookup_cons, differ]
      exact ih
    · have keep : decide (¬ c = b) = true := decide_eq_true hc
      simp only [List.filter_cons, ne_eq, keep, if_true, List.lookup_cons]
      cases (a == c)
      · exact ih
      · rfl

/-- The size of static data fits a word or not; if it does, there is room or not. -/
theorem allocateStatic_cases (label : String) {size : Int} (nonneg : 0 ≤ size)
    (aligned : Word.bytes ∣ size) :
    (∃ o, ∀ m, Memory.allocateStatic label size m = .error (.overflow o) m) ∨
    ∀ m : Memory, m.Stacked →
      (m.staticTop + size ≤ m.sp →
        Memory.allocateStatic label size m = .ok m.staticTop (m.reserved label size)) ∧
      (m.sp < m.staticTop + size →
        ∃ a b, Memory.allocateStatic label size m = .error (.fault (.outOfMemory a b)) m) := by
  have largest : max size 0 = size := Int.max_eq_left nonneg
  cases hround : Word.roundUp size with
  | error o => exact .inl ⟨o, fun m => Memory.allocateStatic_overflow label (by rwa [largest])⟩
  | ok k =>
    obtain rfl := Memory.roundUp_eq aligned hround
    have rounds : Word.roundUp (max k 0) = .ok k := by rwa [largest]
    exact .inr fun m stacked => ⟨Memory.allocateStatic_ok label stacked rounds,
      fun full => ⟨_, _, Memory.allocateStatic_full label stacked rounds full⟩⟩

/-- Static data is refused for all sizes of memory that have room for what comes before, or it gets
its addresses if there is room for all. -/
theorem allocateGlobals_cases {S : Storage} {ds : List NodeId} {gs : List Global}
    (data : List.Forall₂ (fun d g => g.label = S.label d ∧ g.size = S.count d * Word.bytes) ds gs)
    (names : (gs.map Global.label).Nodup) {start stop : Int}
    (tiled : Tiled S.start S.count stop start ds) :
    (∃ limit o, ∀ m : Memory, m.Stacked → m.staticTop = start →
      (limit ≤ m.sp → ∃ m', Memory.allocateGlobals gs m = .error (.overflow o) m') ∧
      (m.sp < limit → ∃ a b m', Memory.allocateGlobals gs m =
        .error (.fault (.outOfMemory a b)) m')) ∨
    ∀ m : Memory, m.Stacked → m.staticTop = start →
      (stop ≤ m.sp → ∃ labels, Memory.allocateGlobals gs m =
          .ok () { m with staticTop := stop, labels } ∧
        (∀ d ∈ ds, labels.lookup (S.label d) = some (S.start d)) ∧
        ∀ l, l ∉ gs.map Global.label → labels.lookup l = m.labels.lookup l) ∧
      (m.sp < stop → ∃ a b m', Memory.allocateGlobals gs m =
        .error (.fault (.outOfMemory a b)) m') := by
  induction data generalizing start with
  | nil =>
    refine .inr fun m stacked hm => ⟨fun _ => ⟨m.labels, ?_, by simp, by simp⟩, fun full => ?_⟩
    · rw [← show start = stop from tiled, ← hm]
      rfl
    · have := stacked.room
      have : start = stop := tiled
      omega
  | @cons d g ds gs first data ih =>
    obtain ⟨hlabel, hsize⟩ := first
    obtain ⟨rfl, tiled⟩ := tiled
    rw [List.map_cons, List.nodup_cons] at names
    have nonneg : 0 ≤ g.size := by
      rw [hsize]
      exact Int.mul_nonneg (by omega) (by decide)
    have below := tiled.le
    rw [← hsize] at tiled below
    rcases allocateStatic_cases g.label nonneg (hsize ▸ Int.dvd_mul_left ..) with
      ⟨o, refused⟩ | allocated
    · refine .inl ⟨S.start d, o, fun m stacked hm => ⟨fun _ => ⟨m, ?_⟩, fun full => ?_⟩⟩
      · simp [Memory.allocateGlobals, bind_apply, refused]
      · have := stacked.room
        omega
    · -- the memory after the first piece
      have next {m : Memory} (stacked : m.Stacked) (hm : m.staticTop = S.start d)
          (room : S.start d + g.size ≤ m.sp) : (m.reserved g.label g.size).Stacked ∧
            Memory.allocateGlobals (g :: gs) m =
              Memory.allocateGlobals gs (m.reserved g.label g.size) := by
        refine ⟨⟨?_, ?_, stacked.le, stacked.fits, stacked.aligned⟩, ?_⟩
        · have := stacked.nonneg
          show 0 ≤ m.staticTop + g.size
          omega
        · show m.staticTop + g.size ≤ m.sp
          omega
        · simp [Memory.allocateGlobals, bind_apply, (allocated m stacked).1 (hm ▸ room)]
      have outOfMemory {m : Memory} (stacked : m.Stacked) (hm : m.staticTop = S.start d)
          (full : m.sp < S.start d + g.size) :
          ∃ a b m', Memory.allocateGlobals (g :: gs) m = .error (.fault (.outOfMemory a b)) m' := by
        obtain ⟨a, b, h⟩ := (allocated m stacked).2 (hm ▸ full)
        exact ⟨a, b, m, by simp [Memory.allocateGlobals, bind_apply, h]⟩
      have top {m : Memory} (hm : m.staticTop = S.start d) :
          (m.reserved g.label g.size).staticTop = S.start d + g.size := by
            rw [Memory.reserved, ← hm]
      rcases ih names.2 tiled with ⟨limit, o, refused⟩ | goes
      · refine .inl ⟨max limit (S.start d + g.size), o, fun m stacked hm =>
          ⟨fun room => ?_, fun full => ?_⟩⟩
        · obtain ⟨stacked', h⟩ := next stacked hm (by omega)
          rw [h]
          exact (refused _ stacked' (top hm)).1 (by show limit ≤ m.sp; omega)
        · by_cases room : S.start d + g.size ≤ m.sp
          · obtain ⟨stacked', h⟩ := next stacked hm room
            rw [h]
            exact (refused _ stacked' (top hm)).2 (by show m.sp < limit; omega)
          · exact outOfMemory stacked hm (by omega)
      · refine .inr fun m stacked hm => ⟨fun room => ?_, fun full => ?_⟩
        · obtain ⟨stacked', h⟩ := next stacked hm (by omega)
          obtain ⟨labels, ok, found, others⟩ := (goes _ stacked' (top hm)).1 room
          refine ⟨labels, h.trans ok, fun e he => ?_, fun l hl => ?_⟩
          · rcases List.mem_cons.1 he with rfl | he
            · rw [← hlabel, others _ names.1]
              simp [Memory.reserved, hm]
            · exact found e he
          · simp only [List.map_cons, List.mem_cons, not_or] at hl
            rw [others l hl.2]
            have differ : (l == g.label) = false := beq_eq_false_iff_ne.2 hl.1
            simp only [Memory.reserved, List.lookup_cons, differ]
            exact lookup_filter_ne hl.1
        · by_cases room : S.start d + g.size ≤ m.sp
          · obtain ⟨stacked', h⟩ := next stacked hm room
            rw [h]
            exact (goes _ stacked' (top hm)).2 full
          · exact outOfMemory stacked hm (by omega)

/-! ## The first state -/

section

variable {words : Nat} {sink : Sink} {machine : Machine}

theorem ofCapacity_size (words : Nat) : (Memory.ofCapacity words).size = words * Word.bytes := by
  simp [Memory.size, Memory.ofCapacity]

theorem ofCapacity_stacked (fits : Word.Fits (words * Word.bytes)) :
    (Memory.ofCapacity words).Stacked := by
  have nonneg : 0 ≤ (words : Int) * Word.bytes := Int.mul_nonneg (by omega) (by decide)
  refine ⟨Int.le_refl 0, nonneg, ?_, ?_, Int.dvd_mul_left ..⟩
  · rw [ofCapacity_size]
    exact Int.le_refl _
  · rwa [ofCapacity_size]

theorem load_ofCapacity {m : Memory} (same : m.words = (Memory.ofCapacity words).words) {a : Int}
    (valid : m.Valid a) : m.load a = .ok .zero := by
  have lt := Memory.index_lt valid
  rw [same] at lt
  simp only [Memory.load, Memory.index?_of_valid valid, Option.bind_some, same]
  simp only [Memory.ofCapacity, Array.size_replicate] at lt ⊢
  simp [lt]

end

section

variable {K : Context} {frame : Level → Frame} {init : Level} {C : LinearProgram} {loose : Prop}

/-- Without activations there are the cells of globals only. -/
theorem Cell.global {S : Storage} {p : Place} (cell : Cell S [] p) :
    p.owner = none ∧ p.decl ∈ S.globals := by
  have block := cell.block
  obtain ⟨owner, decl, offset⟩ := p
  cases owner with
  | none => exact ⟨rfl, block⟩
  | some k =>
    obtain ⟨a, ha, -⟩ := block
    cases ha

/-- Before a run, the cells of globals are zero. -/
theorem typed_start (sound : Sound K frame init C) (strings : Loose K init → loose) (host : Host) :
    Typed K.storage loose { host } := by
  refine ⟨⟨sound.tiled, fun h => by cases h⟩, (fun h => by cases h), fun {p} cell => ?_⟩
  obtain ⟨-, mem⟩ := cell.global
  obtain ⟨-, k, content⟩ := sound.words _ mem
  rw [content]
  exact hasKind_zero fun string => strings ⟨p.decl, string ▸ content, .inl mem⟩

/-- Memory in which static data has its addresses and the stack is empty. -/
theorem represents_start (sound : Sound K frame init C) {words : Nat}
    (fits : Word.Fits (words * Word.bytes)) (host : Host)
    (room : K.storage.static ≤ words * Word.bytes) {labels : List (String × Int)}
    (found : ∀ d ∈ K.storage.globals, labels.lookup (K.storage.label d) =
      some (K.storage.start d)) :
    Represents K.storage (words * Word.bytes) { host }
      { Memory.ofCapacity words with staticTop := K.storage.static, labels } := by
  have laid : Laid K.storage [] := ⟨sound.tiled, fun h => by cases h⟩
  have low : edge K.storage (words * Word.bytes) [] 0 = words * Word.bytes := by simp [edge]
  refine ⟨ofCapacity_size words, fits, low.symm, low.symm, rfl, low ▸ room, found,
    (fun h => by cases h), fun {p} cell => ?_⟩
  obtain ⟨nonneg, lt, aligned⟩ := address_global (words * Word.bytes) laid cell cell.global.1
  have inside : address K.storage (words * Word.bytes) [] p < words * Word.bytes := by
    simp only [Word.bytes] at *
    omega
  exact load_ofCapacity rfl ⟨nonneg, aligned, (ofCapacity_size words).symm ▸ inside⟩

/-- Static data is laid out alike in two memories, unless it does not fit the smaller one. -/
theorem allocate_alike (sound : Sound K frame init C) {words words' : Nat} (le : words ≤ words')
    (fits : Word.Fits (words * Word.bytes)) (fits' : Word.Fits (words' * Word.bytes))
    (host : Host) :
    (∃ a b m, Memory.allocateGlobals C.globals (.ofCapacity words) =
      .error (.fault (.outOfMemory a b)) m) ∨
    (∃ o m m', Memory.allocateGlobals C.globals (.ofCapacity words) = .error (.overflow o) m ∧
      Memory.allocateGlobals C.globals (.ofCapacity words') = .error (.overflow o) m') ∨
    ∃ m m', Memory.allocateGlobals C.globals (.ofCapacity words) = .ok () m ∧
      Memory.allocateGlobals C.globals (.ofCapacity words') = .ok () m' ∧
      Represents K.storage (words * Word.bytes) { host } m ∧
      Represents K.storage (words' * Word.bytes) { host } m' := by
  have stacked := ofCapacity_stacked fits
  have stacked' := ofCapacity_stacked fits'
  have more : (words : Int) * Word.bytes ≤ words' * Word.bytes := by
    simp only [Word.bytes]
    omega
  rcases allocateGlobals_cases sound.data sound.names sound.tiled with ⟨limit, o, refused⟩ | goes
  · by_cases room : limit ≤ (words : Int) * Word.bytes
    · obtain ⟨m, full⟩ := (refused _ stacked rfl).1 room
      obtain ⟨m', full'⟩ := (refused _ stacked' rfl).1 (Int.le_trans room more)
      exact .inr (.inl ⟨o, m, m', full, full'⟩)
    · exact .inl ((refused _ stacked rfl).2 (Int.not_le.1 room))
  · by_cases room : K.storage.static ≤ (words : Int) * Word.bytes
    · obtain ⟨labels, ok, found, -⟩ := (goes _ stacked rfl).1 room
      obtain ⟨labels', ok', found', -⟩ := (goes _ stacked' rfl).1 (Int.le_trans room more)
      exact .inr (.inr ⟨_, _, ok, ok', represents_start sound fits host room found,
        represents_start sound fits' host (Int.le_trans room more) found'⟩)
    · exact .inl ((goes _ stacked rfl).2 (Int.not_le.1 room))

end

end PinsBackend.Safety
