import PinsBackend.Proofs.Kinds.Compiled
import PinsBackend.Proofs.Machine.Words
import PinsBackend.Proofs.Meaning.Evaluator

/-! How memory holds a store.

Static data lies at the start of memory. The records of activations lie below each other from its
end, the oldest first, and each begins with its static link. `Represents` says that every cell has
its word there; writing a cell, opening a record and closing it keep that. -/
namespace PinsBackend.Safety

open Kinds (Tiled Recorded)
open Meaning (Place Datum Activation Store)
open Syntax (Level)

/-! ## Addresses -/

section

variable (S : Storage) (top : Int) (stack : List Activation)

/-- The lowest address of the records of the first `n` activations. -/
def edge (n : Nat) : Int := top - ((stack.take n).map fun a => S.size a.level).sum

/-- The address of a cell. -/
def address (p : Place) : Int :=
  (match p.owner with
    | none => S.start p.decl
    | some k => edge S top stack (k + 1) + S.offset p.decl) + p.offset * Word.bytes

/-- The word that stands for a datum. -/
def shown : Datum → Value
  | .word v => v
  | .place p => .ofInt (address S top stack p)

/-- The word that stands for a static link. -/
def linkWord : Option Nat → Value
  | none => .zero
  | some k => .ofInt (edge S top stack (k + 1))

/-- The variable of a place has storage. -/
def Block (p : Place) : Prop :=
  match p.owner with
  | none => p.decl ∈ S.globals
  | some k => ∃ a, stack[k]? = some a ∧ p.decl ∈ a.level.variables

/-- A place is inside its variable. -/
structure Cell (p : Place) : Prop where
  block : Block S stack p
  lt : p.offset < S.count p.decl

/-- Variables tile static data and the records of the activations. -/
structure Laid : Prop where
  globals : Tiled S.start S.count S.static 0 S.globals
  records : ∀ {k : Nat} {a : Activation}, stack[k]? = some a →
    Tiled S.offset S.count (S.size a.level) Word.bytes a.level.variables

end

/-- A datum that belongs to the first `n` activations, or to the top level. -/
def Bounded (n : Nat) (d : Datum) : Prop := ∀ p, d = .place p → ∀ k ∈ p.owner, k < n

theorem Bounded.word (n : Nat) (v : Value) : Bounded n (.word v) := nofun

theorem Bounded.mono {n m : Nat} {d : Datum} (h : Bounded n d) (le : n ≤ m) : Bounded m d :=
  fun p hp k hk => Nat.lt_of_lt_of_le (h p hp k hk) le

section

variable {S : Storage} {top : Int} {stack more : List Activation} {k : Nat} {a : Activation}
  {p : Place}

theorem edge_zero : edge S top stack 0 = top := by simp [edge]

theorem edge_succ (h : stack[k]? = some a) :
    edge S top stack (k + 1) = edge S top stack k - S.size a.level := by
  simp only [edge, List.take_add_one, h, Option.toList_some, List.map_append, List.sum_append,
    List.map_cons, List.map_nil, List.sum_cons, List.sum_nil]
  omega

theorem edge_append {n : Nat} (le : n ≤ stack.length) :
    edge S top (stack ++ more) n = edge S top stack n := by
  simp [edge, List.take_append_of_le_length le]

theorem address_append (alive : ∀ k ∈ p.owner, k < stack.length) :
    address S top (stack ++ more) p = address S top stack p := by
  unfold address
  cases h : p.owner with
  | none => rfl
  | some k =>
    have lt := alive k h
    simp only [edge_append (Nat.succ_le_of_lt lt)]

theorem shown_append {d : Datum} (h : Bounded stack.length d) :
    shown S top (stack ++ more) d = shown S top stack d := by
  cases d with
  | word v => rfl
  | place p => simp only [shown, address_append (h p rfl)]

theorem linkWord_append {link : Option Nat} (h : ∀ k ∈ link, k < stack.length) :
    linkWord S top (stack ++ more) link = linkWord S top stack link := by
  cases link with
  | none => rfl
  | some k =>
    have lt := h k rfl
    simp only [linkWord, edge_append (Nat.succ_le_of_lt lt)]

theorem Block.append (h : Block S stack p) : Block S (stack ++ more) p := by
  unfold Block at *
  split
  · simpa [*] using h
  · next k hk =>
    rw [hk] at h
    obtain ⟨a, ha, mem⟩ := h
    exact ⟨a, by rw [List.getElem?_append_left (List.getElem?_eq_some_iff.1 ha).1, ha], mem⟩

theorem Block.lt (h : Block S stack p) : ∀ k ∈ p.owner, k < stack.length := by
  intro k hk
  obtain hk : p.owner = some k := hk
  rw [Block, hk] at h
  obtain ⟨a, ha, -⟩ := h
  exact (List.getElem?_eq_some_iff.1 ha).1

/-- A block of a longer stack, if it belongs to the part of it. -/
theorem Block.of_append (h : Block S (stack ++ more) p) (alive : ∀ k ∈ p.owner, k < stack.length) :
    Block S stack p := by
  unfold Block at *
  split
  · simpa [*] using h
  · next k hk =>
    rw [hk] at h
    obtain ⟨a, ha, mem⟩ := h
    exact ⟨a, by rw [← ha, List.getElem?_append_left (alive k hk)], mem⟩

theorem Cell.append (h : Cell S stack p) : Cell S (stack ++ more) p :=
  ⟨h.block.append, h.lt⟩

theorem Laid.append_iff : Laid S (stack ++ [a]) ↔ Laid S stack ∧
    Tiled S.offset S.count (S.size a.level) Word.bytes a.level.variables := by
  constructor
  · refine fun h => ⟨⟨h.globals, fun {k b} hb => ?_⟩, ?_⟩
    · exact h.records (k := k)
        (by rw [List.getElem?_append_left (List.getElem?_eq_some_iff.1 hb).1, hb])
    · exact h.records (k := stack.length) (by simp)
  · rintro ⟨h, ha⟩
    refine ⟨h.globals, fun {k b} hb => ?_⟩
    rcases Nat.lt_or_ge k stack.length with lt | ge
    · rw [List.getElem?_append_left lt] at hb
      exact h.records hb
    · rw [List.getElem?_append_right ge, List.getElem?_singleton] at hb
      split at hb
      · cases hb
        exact ha
      · cases hb

/-! ## Bounds -/

variable (top) (laid : Laid S stack)

include laid

theorem size_pos (h : stack[k]? = some a) : Word.bytes ≤ S.size a.level := (laid.records h).le

theorem size_aligned (h : stack[k]? = some a) :
    Word.bytes ∣ S.size a.level := (laid.records h).aligned (Int.dvd_refl _)

omit laid in
theorem edge_past (h : stack[k]? = none) : edge S top stack (k + 1) = edge S top stack k := by
  have ge := List.getElem?_eq_none_iff.1 h
  simp only [edge, List.take_of_length_le (Nat.le_succ_of_le ge), List.take_of_length_le ge]

theorem edge_le {m n : Nat} (le : m ≤ n) : edge S top stack n ≤ edge S top stack m := by
  induction n, le using Nat.le_induction with
  | base => exact Int.le_refl _
  | succ n _ ih =>
    cases h : stack[n]? with
    | none => rwa [edge_past top h]
    | some a =>
      have pos := size_pos laid h
      have step : edge S top stack (n + 1) = edge S top stack n - S.size a.level := edge_succ h
      simp only [Word.bytes] at pos
      omega

theorem edge_aligned (aligned : Word.bytes ∣ top) (n : Nat) : Word.bytes ∣ edge S top stack n := by
  induction n with
  | zero => rwa [edge_zero]
  | succ n ih =>
    cases h : stack[n]? with
    | none => rwa [edge_past top h]
    | some a =>
      rw [edge_succ h]
      exact Int.dvd_sub ih (size_aligned laid h)

/-- Cells of globals lie in static data. -/
theorem address_global (cell : Cell S stack p) (h : p.owner = none) :
    0 ≤ address S top stack p ∧ address S top stack p + Word.bytes ≤ S.static ∧
      Word.bytes ∣ address S top stack p := by
  have mem : p.decl ∈ S.globals := by simpa [Block, h] using cell.block
  obtain ⟨low, high, aligned⟩ := laid.globals.inside mem
  have lt := cell.lt
  have dvd := Int.dvd_add (aligned ⟨0, by simp⟩) (Int.dvd_mul_left (p.offset : Int) Word.bytes)
  simp only [address, h]
  refine ⟨?_, ?_, dvd⟩ <;> simp only [Word.bytes] at * <;> omega

/-- Other cells lie in the record of their activation, behind the static link. -/
theorem address_local (cell : Cell S stack p) (h : p.owner = some k) :
    edge S top stack (k + 1) + Word.bytes ≤ address S top stack p ∧
      address S top stack p + Word.bytes ≤ edge S top stack k ∧
      (Word.bytes ∣ top → Word.bytes ∣ address S top stack p) := by
  obtain ⟨a, ha, mem⟩ : ∃ a, stack[k]? = some a ∧ p.decl ∈ a.level.variables := by
    simpa [Block, h] using cell.block
  obtain ⟨low, high, aligned⟩ := (laid.records ha).inside mem
  have lt := cell.lt
  have step : edge S top stack (k + 1) = edge S top stack k - S.size a.level := edge_succ ha
  have dvd := Int.dvd_add (aligned (Int.dvd_refl _)) (Int.dvd_mul_left (p.offset : Int) Word.bytes)
  simp only [address, h]
  refine ⟨?_, ?_, fun ht => ?_⟩
  · simp only [Word.bytes] at *
    omega
  · simp only [Word.bytes] at *
    omega
  · rw [Int.add_assoc]
    exact Int.dvd_add (edge_aligned top laid ht _) dvd

/-- Different cells have different addresses. -/
theorem address_injective (room : S.static ≤ edge S top stack stack.length) {q : Place}
    (hp : Cell S stack p) (hq : Cell S stack q)
    (same : address S top stack p = address S top stack q) :
    p = q := by
  -- a cell of a global is below every record
  have apart {p q : Place} (hp : Cell S stack p) (hq : Cell S stack q)
    (h : p.owner = none) {k : Nat}
      (h' : q.owner = some k) : address S top stack p ≠ address S top stack q := by
    have lt := hq.block.lt k h'
    have below : edge S top stack stack.length ≤ edge S top stack (k + 1) := edge_le top laid lt
    have low := (address_global top laid hp h).2.1
    have high := (address_local top laid hq h').1
    simp only [Word.bytes] at *
    omega
  -- in one tiling, the variable and then the position are the same
  have unique {place : NodeId → Int} {stop start : Int} {ds : List NodeId}
      (tiled : Tiled place S.count stop start ds) (mp : p.decl ∈ ds) (mq : q.decl ∈ ds)
      (eq : place p.decl + p.offset * Word.bytes = place q.decl + q.offset * Word.bytes) :
      p.decl = q.decl ∧ p.offset = q.offset := by
    have ltp := hp.lt
    have ltq := hq.lt
    have decl : p.decl = q.decl := by
      by_contra ne
      have := tiled.apart mp mq ne
      simp only [Word.bytes] at *
      omega
    refine ⟨decl, ?_⟩
    rw [decl] at eq
    simp only [Word.bytes] at eq
    omega
  have parts : p.owner = q.owner ∧ p.decl = q.decl ∧ p.offset = q.offset := by
    cases ho : p.owner with
    | none =>
      cases ho' : q.owner with
      | some k => exact absurd same (apart hp hq ho ho')
      | none =>
        refine ⟨rfl, unique laid.globals ?_ ?_ ?_⟩
        · simpa [Block, ho] using hp.block
        · simpa [Block, ho'] using hq.block
        · simpa only [address, ho, ho'] using same
    | some k =>
      cases ho' : q.owner with
      | none => exact absurd same.symm (apart hq hp ho' ho)
      | some j =>
        have lowp := address_local top laid hp ho
        have lowq := address_local top laid hq ho'
        have owner : k = j := by
          rcases Nat.lt_trichotomy k j with lt | eq | lt
          · have := edge_le top laid lt
            simp only [Word.bytes, Nat.succ_eq_add_one] at *
            omega
          · exact eq
          · have := edge_le top laid lt
            simp only [Word.bytes, Nat.succ_eq_add_one] at *
            omega
        subst owner
        obtain ⟨a, ha, mp⟩ : ∃ a, stack[k]? = some a ∧ p.decl ∈ a.level.variables := by
          simpa [Block, ho] using hp.block
        obtain ⟨b, hb, mq⟩ : ∃ a, stack[k]? = some a ∧ q.decl ∈ a.level.variables := by
          simpa [Block, ho'] using hq.block
        obtain rfl : a = b := by
          rw [ha] at hb
          exact Option.some.inj hb
        refine ⟨rfl, unique (laid.records ha) mp mq ?_⟩
        simp only [address, ho, ho'] at same
        omega
  obtain ⟨owner, decl, offset⟩ := parts
  cases p
  cases q
  simp_all

/-- No cell lies where a static link is. -/
theorem address_ne_link (room : S.static ≤ edge S top stack stack.length) (hp : Cell S stack p)
    (hk : k < stack.length) : edge S top stack (k + 1) ≠ address S top stack p := by
  cases h : p.owner with
  | none =>
    have low := (address_global top laid hp h).2.1
    have : edge S top stack stack.length ≤ edge S top stack (k + 1) := edge_le top laid hk
    simp only [Word.bytes] at *
    omega
  | some j =>
    have := address_local top laid hp h
    rcases Nat.lt_or_ge k j with lt | ge
    · have : edge S top stack j ≤ edge S top stack (k + 1) := edge_le top laid lt
      simp only [Word.bytes] at *
      omega
    · have : edge S top stack (k + 1) ≤ edge S top stack (j + 1) := edge_le top laid (by omega)
      simp only [Word.bytes] at *
      omega

end

/-! ## Stores in memory -/

/-- A memory of `top` bytes holds the store. -/
structure Represents (S : Storage) (top : Int) (σ : Store) (m : Memory) : Prop where
  size : m.size = top
  fits : Word.Fits top
  fp : m.fp = edge S top σ.stack σ.stack.length
  sp : m.sp = edge S top σ.stack σ.stack.length
  staticTop : m.staticTop = S.static
  room : S.static ≤ edge S top σ.stack σ.stack.length
  labels : ∀ d ∈ S.globals, m.address? (S.label d) = some (S.start d)
  links : ∀ {k : Nat} {a : Activation}, σ.stack[k]? = some a →
    m.load (edge S top σ.stack (k + 1)) = .ok (linkWord S top σ.stack a.link)
  cells : ∀ {p : Place}, Cell S σ.stack p →
    m.load (address S top σ.stack p) = .ok (shown S top σ.stack (σ.cells p))

/-- Links and cells refer to older activations only. -/
structure Scoped (S : Storage) (σ : Store) : Prop where
  links : ∀ {k : Nat} {a : Activation}, σ.stack[k]? = some a → ∀ j ∈ a.link, j < k
  cells : ∀ {p : Place}, Cell S σ.stack p → Bounded (p.owner.getD 0) (σ.cells p)

theorem toInt_ofInt {n : Int} (h : Word.Fits n) : (Int64.ofInt n).toInt = n := by
  obtain ⟨low, high⟩ := h
  exact Int64.toInt_ofInt_of_le (by omega) (by omega)

section

variable {p : Place}

variable {S : Storage} {top : Int} {σ : Store} {m : Memory}

theorem Represents.aligned (h : Represents S top σ m) : Word.bytes ∣ top :=
  h.size ▸ Int.dvd_mul_left ..

variable (h : Represents S top σ m) (laid : Laid S σ.stack)

include h laid

theorem Represents.stacked : m.Stacked where
  nonneg := h.staticTop ▸ laid.globals.le
  room := by
    rw [h.staticTop, h.sp]
    exact h.room
  le := by
    have le := edge_le top laid (Nat.zero_le σ.stack.length)
    rwa [edge_zero, ← h.sp, ← h.size] at le
  fits := h.size ▸ h.fits
  aligned := h.sp ▸ edge_aligned top laid h.aligned _

/-- Cells have words. -/
theorem Represents.valid (cell : Cell S σ.stack p) : m.Valid (address S top σ.stack p) := by
  have := h.stacked laid
  have nonneg := this.nonneg
  have le := this.le
  have room := h.room
  rw [h.size, h.sp] at le
  rw [h.staticTop] at nonneg
  cases ho : p.owner with
  | none =>
    obtain ⟨low, high, aligned⟩ := address_global top laid cell ho
    refine ⟨low, aligned, ?_⟩
    rw [h.size]
    simp only [Word.bytes] at *
    omega
  | some k =>
    obtain ⟨low, high, aligned⟩ := address_local top laid cell ho
    have below := edge_le top laid (Nat.succ_le_of_lt (cell.block.lt k ho))
    have above := edge_le top laid (Nat.zero_le k)
    rw [edge_zero] at above
    refine ⟨?_, aligned h.aligned, ?_⟩
    · simp only [Word.bytes, Nat.succ_eq_add_one] at *
      omega
    · rw [h.size]
      simp only [Word.bytes] at *
      omega

theorem Represents.fits_edge {k : Nat} (hk : k ≤ σ.stack.length) :
    Word.Fits (edge S top σ.stack k) := by
  have nonneg := (h.stacked laid).nonneg
  have room := h.room
  have fits := h.fits
  have below := edge_le top laid hk
  have above := edge_le top laid (Nat.zero_le k)
  rw [edge_zero] at above
  rw [h.staticTop] at nonneg
  simp only [Word.Fits] at *
  omega

theorem Represents.fits_address (cell : Cell S σ.stack p) :
    Word.Fits (address S top σ.stack p) := by
  have valid := h.valid laid cell
  have nonneg := valid.nonneg
  have lt := valid.lt
  have fits := h.fits
  rw [h.size] at lt
  simp only [Word.Fits] at *
  omega

/-- A cell is written where it lies. -/
theorem Represents.store (cell : Cell S σ.stack p) (d : Datum) :
    ∃ m', Memory.store (address S top σ.stack p) (shown S top σ.stack d) m = .ok () m' ∧
      Represents S top (σ.set p d) m' := by
  obtain ⟨m', hstore, alike, here, others⟩ :=
    Memory.store_of_valid (h.valid laid cell) (shown S top σ.stack d)
  refine ⟨m', hstore, alike.size.trans h.size, h.fits, alike.fp.trans h.fp, alike.sp.trans h.sp,
    alike.staticTop.trans h.staticTop, h.room, fun d hd => ?_, fun {k a} ha => ?_, fun {q} hq => ?_⟩
  · rw [← h.labels d hd, Memory.address?, Memory.address?, alike.labels]
  · have lt := (List.getElem?_eq_some_iff.1 ha).1
    exact (others _ (address_ne_link top laid h.room cell lt)).trans (h.links ha)
  · by_cases eq : q = p
    · subst eq
      simpa [Store.set] using here
    · have apart : address S top σ.stack q ≠ address S top σ.stack p :=
        fun same => eq (address_injective top laid h.room hq cell same)
      simp only [Store.set, eq, if_false]
      rw [← h.cells hq]
      exact others _ apart

/-- The youngest record is closed by bringing the registers of the caller back. -/
theorem Represents.closed (older : Scoped S σ) {front : List Activation} {a : Activation}
    (hs : σ.stack = front ++ [a]) :
    Represents S top σ.closed
      (m.restore ⟨edge S top σ.stack front.length, edge S top σ.stack front.length⟩) := by
  have closed : σ.closed.stack = front := by simp [Store.closed, hs]
  have edges {n : Nat} (hn : n ≤ front.length) :
      edge S top σ.stack n = edge S top front n := by rw [hs, edge_append hn]
  have room : S.static ≤ edge S top front front.length := by
    have le := edge_le top laid (Nat.le_of_lt (show front.length < σ.stack.length by simp [hs]))
    rw [← edges (Nat.le_refl _)]
    exact Int.le_trans h.room le
  refine ⟨h.size, h.fits, ?_, ?_, h.staticTop, by rwa [closed], h.labels, fun {k b} hb => ?_,
    fun {p} hp => ?_⟩
  · rw [closed, ← edges (Nat.le_refl _)]
    rfl
  · rw [closed, ← edges (Nat.le_refl _)]
    rfl
  · rw [closed] at hb ⊢
    have lt := (List.getElem?_eq_some_iff.1 hb).1
    have here : σ.stack[k]? = some b := by rw [hs, List.getElem?_append_left lt, hb]
    have kept := h.links here
    rwa [edges lt, hs, linkWord_append fun j hj =>
      Nat.lt_trans (older.links here j hj) lt] at kept
  · rw [closed] at hp ⊢
    have here : Cell S σ.stack p := hs ▸ hp.append
    have bounded : Bounded front.length (σ.cells p) := by
      refine (older.cells here).mono ?_
      cases ho : p.owner with
      | none => exact Nat.zero_le _
      | some k => exact Nat.le_of_lt (hp.block.lt k ho)
    have kept := h.cells here
    rwa [hs, address_append hp.block.lt, shown_append bounded] at kept

end

/-! ## Opening a record -/

/-- An argument is found at the place of its parameter. -/
theorem lookup_zip {α β : Type} [BEq α] [LawfulBEq α] {as : List α} {bs : List β} {i : Nat} {a : α}
    (ha : as[i]? = some a) (unique : ∀ j, as[j]? = some a → j = i) :
    (as.zip bs).lookup a = bs[i]? := by
  induction as generalizing bs i with
  | nil => simp at ha
  | cons a' as ih =>
    cases bs with
    | nil => simp
    | cons b bs =>
      cases i with
      | zero =>
        obtain rfl : a' = a := by simpa using ha
        simp
      | succ i =>
        have ne : (a == a') = false := by
          rw [beq_eq_false_iff_ne]
          rintro rfl
          have := unique 0 (by simp)
          omega
        simp only [List.zip_cons_cons, List.lookup_cons, ne, List.getElem?_cons_succ]
        refine ih (by simpa using ha) fun j hj => ?_
        have := unique (j + 1) (by simpa using hj)
        omega

theorem lookup_zip_of_not_mem {α β : Type} [BEq α] [LawfulBEq α] {as : List α} {bs : List β} {a : α}
    (h : a ∉ as) : (as.zip bs).lookup a = none := by
  rw [List.lookup_eq_none_iff]
  intro x hx
  have mem : x.1 ∈ as := (List.of_mem_zip (a := x.1) (b := x.2) hx).1
  rw [bne_iff_ne]
  rintro rfl
  exact h mem

/-- In a record, parameters come right behind the static link and hold one word each. -/
theorem param_offset {S : Storage} {frame : Frame} {l : Level} (record : Recorded S frame l) :
    (∀ (i : Nat) d, l.params[i]? = some d → S.offset d = (i + 1) * Word.bytes) ∧
      ∀ d ∈ l.locals, (l.params.length + 1) * Word.bytes ≤ S.offset d := by
  obtain ⟨mid, params, locals⟩ := record.tiled.split
  obtain ⟨rfl, places⟩ := params.words record.params
  constructor
  · intro i d hd
    rw [places i d hd]
    simp only [Word.bytes]
    omega
  · intro d hd
    have := (locals.inside hd).1
    simp only [Word.bytes] at *
    omega

theorem Bounded.lookup {n : Nat} {ds : List NodeId} {args : List Datum}
    (h : ∀ d ∈ args, Bounded n d) (x : NodeId) :
    Bounded n (((ds.zip args).lookup x).getD (.word .zero)) := by
  cases found : (ds.zip args).lookup x with
  | none => exact .word n .zero
  | some d =>
    obtain ⟨before, after, split, -⟩ := List.lookup_eq_some_iff.1 found
    have mem : (x, d) ∈ ds.zip args := by simp [split]
    exact h d (List.of_mem_zip mem).2

section

variable {args : List Datum}

variable {S : Storage} {top : Int} {σ : Store} {m m' : Memory} {frame : Frame} {level : Level}

/-- The words of older variables lie outside a record that is opened now. -/
theorem Represents.outside (h : Represents S top σ m) (laid : Laid S σ.stack) {n : Int}
    (room : S.static ≤ edge S top σ.stack σ.stack.length - n) {p : Place}
    (cell : Cell S σ.stack p) :
    address S top σ.stack p < m.sp - n ∨ m.sp ≤ address S top σ.stack p := by
  rw [h.sp]
  cases ho : p.owner with
  | none =>
    left
    have high := (address_global top laid cell ho).2.1
    simp only [Word.bytes] at high
    omega
  | some j =>
    right
    have low := (address_local top laid cell ho).1
    have := edge_le top laid (Nat.succ_le_of_lt (cell.block.lt j ho))
    simp only [Word.bytes, Nat.succ_eq_add_one] at *
    omega

/-- In a new record parameters hold their arguments and other variables hold zeros. -/
theorem opened_variable (record : Recorded S frame level) {link : Value} {stack : List Activation}
    (arity : args.length = level.params.length) (aligned : Word.bytes ∣ m.sp)
    (opened : m.Opened m' (S.size level) (link :: args.map (shown S top stack))) {d : NodeId}
    (mem : d ∈ level.variables) {i : Nat} (lt : i < S.count d) :
    m'.load (m.sp - S.size level + S.offset d + i * Word.bytes) =
      .ok (shown S top stack (((level.params.zip args).lookup d).getD (.word .zero))) := by
  obtain ⟨positions, behind⟩ := param_offset record
  by_cases hparam : d ∈ level.params
  · obtain ⟨j, hj⟩ := List.mem_iff_getElem?.1 hparam
    have unique (n : Nat) (hn : level.params[n]? = some d) : n = j := by
      have := (positions n _ hn).symm.trans (positions j _ hj)
      simp only [Word.bytes] at this
      omega
    have single := record.params _ hparam
    obtain rfl : i = 0 := by omega
    have bound : j < args.length := arity ▸ (List.getElem?_eq_some_iff.1 hj).1
    have hd : args[j]? = some args[j] := List.getElem?_eq_getElem bound
    rw [lookup_zip hj unique, hd, Option.getD_some, positions j _ hj]
    have written := opened.arguments (j + 1) (shown S top stack args[j]) (by simp [hd])
    rw [← written]
    congr 1
    push_cast
    omega
  · have hlocal : d ∈ level.locals := by simpa [Level.variables, hparam] using mem
    rw [lookup_zip_of_not_mem hparam]
    have low := behind _ hlocal
    obtain ⟨-, high, dvd⟩ := record.tiled.inside mem
    have size := record.tiled.aligned (Int.dvd_refl _)
    refine opened.zeros _ ?_ ?_ ?_
    · simp only [List.length_cons, List.length_map, arity, Word.bytes] at *
      omega
    · simp only [Word.bytes] at *
      omega
    · exact Int.dvd_add (Int.dvd_add (Int.dvd_sub aligned size) (dvd (Int.dvd_refl _)))
        (Int.dvd_mul_left ..)

/-- A call finds room for its record and puts the link and the arguments into it. -/
theorem Represents.opened (h : Represents S top σ m) (laid : Laid S σ.stack) (older : Scoped S σ)
    (record : Recorded S frame level) {link : Option Nat} (hlink : ∀ j ∈ link, j < σ.stack.length)
    (hargs : ∀ d ∈ args, Bounded σ.stack.length d) (arity : args.length = level.params.length)
    (size : frame.size = .ok (S.size level)) {k : Int} (round : Word.roundUp (S.size level) = .ok k)
    (room : S.static ≤ edge S top σ.stack σ.stack.length - S.size level) :
    ∃ m', Memory.enter frame (linkWord S top σ.stack link :: args.map (shown S top σ.stack)) m =
        .ok m.registers m' ∧ Represents S top (σ.opened level link args) m' := by
  have pos : Word.bytes ≤ S.size level := record.tiled.le
  have aligned : Word.bytes ∣ S.size level := record.tiled.aligned (Int.dvd_refl _)
  have fit : ((linkWord S top σ.stack link :: args.map (shown S top σ.stack)).length : Int) *
    Word.bytes
      ≤ S.size level := by
    obtain ⟨mid, params, locals⟩ := record.tiled.split
    have total := (params.words record.params).1
    have le := locals.le
    simp only [List.length_cons, List.length_map, arity, Word.bytes] at *
    omega
  obtain ⟨m', henter, opened⟩ := Memory.enter_ok size (h.stacked laid)
    (by simp only [Word.bytes] at pos; omega) aligned round
    (by rw [h.staticTop, h.sp]; exact room) fit
  refine ⟨m', henter, ?_⟩
  have stack : (σ.opened level link args).stack = σ.stack ++ [⟨level, link⟩] := rfl
  have last : (σ.stack ++ [(⟨level, link⟩ : Activation)])[σ.stack.length]? =
    some ⟨level, link⟩ := by simp
  have edges {n : Nat} (hn : n ≤ σ.stack.length) :
      edge S top (σ.stack ++ [⟨level, link⟩]) n = edge S top σ.stack n := edge_append hn
  have base : edge S top (σ.stack ++ [⟨level, link⟩]) (σ.stack.length + 1) =
      m.sp - S.size level := by
    rw [edge_succ last, edges (Nat.le_refl _), h.sp]
  have total : (σ.stack ++ [(⟨level, link⟩ : Activation)]).length = σ.stack.length + 1 := by simp
  refine ⟨opened.size.trans h.size, h.fits, ?_, ?_, opened.staticTop.trans h.staticTop, ?_, ?_,
    fun {j b} hb => ?_, fun {p} hp => ?_⟩
  · rw [stack, total, base, opened.fp]
  · rw [stack, total, base, opened.sp]
  · rw [stack, total, base, h.sp]
    exact room
  · intro d hd
    rw [← h.labels d hd, Memory.address?, Memory.address?, opened.labels]
  · rw [stack] at hb ⊢
    rcases Nat.lt_or_ge j σ.stack.length with lt | ge
    · rw [List.getElem?_append_left lt] at hb
      rw [edges (Nat.succ_le_of_lt lt), linkWord_append fun i hi =>
        Nat.lt_trans (older.links hb i hi) lt, ← h.links hb]
      refine opened.others _ (.inr ?_)
      rw [h.sp]
      exact edge_le top laid lt
    · have bound := (List.getElem?_eq_some_iff.1 hb).1
      obtain rfl : j = σ.stack.length := by omega
      rw [last] at hb
      cases hb
      rw [base, linkWord_append hlink]
      simpa using opened.arguments 0 _ rfl
  · rw [stack] at hp ⊢
    by_cases ho : p.owner = some σ.stack.length
    · obtain ⟨a, ha, mem⟩ : ∃ a, (σ.stack ++ [(⟨level, link⟩ : Activation)])[σ.stack.length]? =
        some a ∧
          p.decl ∈ a.level.variables := by simpa only [Block, ho] using hp.block
      rw [last] at ha
      cases ha
      have place : address S top (σ.stack ++ [⟨level, link⟩]) p =
          m.sp - S.size level + S.offset p.decl + p.offset * Word.bytes := by
        simp only [address, ho, base]
      have cells : (σ.opened level link args).cells p =
          ((level.params.zip args).lookup p.decl).getD (.word .zero) := by simp [Store.opened, ho]
      rw [place, cells, shown_append (.lookup hargs _)]
      exact opened_variable record arity (h.stacked laid).aligned opened mem hp.lt
    · -- older variables keep their words
      have alive : ∀ j ∈ p.owner, j < σ.stack.length := by
        intro j hj
        have lt := hp.block.lt j hj
        have ne : j ≠ σ.stack.length := by
          rintro rfl
          exact ho hj
        rw [total] at lt
        omega
      have cell : Cell S σ.stack p := ⟨hp.block.of_append alive, hp.lt⟩
      have same : (σ.opened level link args).cells p = σ.cells p := by simp [Store.opened, ho]
      have bounded : Bounded σ.stack.length (σ.cells p) := by
        refine (older.cells cell).mono ?_
        cases owner : p.owner with
        | none => exact Nat.zero_le _
        | some j => exact Nat.le_of_lt (alive j owner)
      rw [same, address_append alive, shown_append bounded, ← h.cells cell]
      exact opened.others _ (h.outside laid room cell)

end

end PinsBackend.Safety
