import PinsBackend.Proofs.Machine.Memory

/-! What operations on memory do to its words, in terms of what `load` finds there. -/
namespace PinsBackend

namespace Word

/-- The least multiple of the word size that is at least `n`. -/
def rounded (n : Int) : Int := (n + bytes - 1) / bytes * bytes

theorem roundUp_eq_ok {n k : Int} : roundUp n = .ok k ↔ Fits (n + bytes) ∧ k = rounded n := by
  simp only [roundUp, except_bind_eq_ok, add_eq_ok, pure, Except.pure, Except.ok.injEq, rounded]
  constructor
  · rintro ⟨_, ⟨fits, rfl⟩, rfl⟩
    exact ⟨fits, rfl⟩
  · rintro ⟨fits, rfl⟩
    exact ⟨_, ⟨fits, rfl⟩, rfl⟩

theorem rounded_bounds (n : Int) : n ≤ rounded n ∧ rounded n < n + bytes ∧ bytes ∣ rounded n := by
  simp only [rounded, bytes]
  omega

theorem rounded_eq {n : Int} (aligned : bytes ∣ n) : rounded n = n := by
  simp only [rounded, bytes] at *
  omega

theorem fits_of_le_blockLimit {words : Nat} (h : words ≤ blockLimit) : Fits (words * bytes) := by
  simp only [Fits, bytes, blockLimit] at *
  omega

end Word

namespace Memory

/-- Every memory that storage can hold can be had. -/
theorem checkCapacity_eq_ok {words : Nat} :
    checkCapacity words = .ok () ↔ words ≤ Word.blockLimit := by
  simp only [checkCapacity, except_bind_eq_ok, Word.mul_eq_ok, Word.block]
  constructor
  · rintro ⟨_, -, small⟩
    by_cases le : words ≤ Word.blockLimit
    · exact le
    · simp [le] at small
  · intro le
    have count : Word.ofCount words = words := Int.bmod_eq_of_le (by omega) (by
      simp only [Word.blockLimit] at le
      omega)
    exact ⟨_, ⟨count ▸ Word.fits_of_le_blockLimit le, rfl⟩, if_pos le⟩

/-- An address that has a word. -/
structure Valid (m : Memory) (a : Int) : Prop where
  nonneg : 0 ≤ a
  aligned : Word.bytes ∣ a
  lt : a < m.size

/-- Memories that differ in their words only. -/
structure Alike (m m' : Memory) : Prop where
  size : m'.size = m.size
  fp : m'.fp = m.fp
  sp : m'.sp = m.sp
  staticTop : m'.staticTop = m.staticTop
  labels : m'.labels = m.labels

theorem Alike.refl (m : Memory) : Alike m m := ⟨rfl, rfl, rfl, rfl, rfl⟩

theorem Alike.trans {m₁ m₂ m₃ : Memory} (h : Alike m₁ m₂) (h' : Alike m₂ m₃) : Alike m₁ m₃ :=
  ⟨h'.size.trans h.size, h'.fp.trans h.fp, h'.sp.trans h.sp, h'.staticTop.trans h.staticTop,
    h'.labels.trans h.labels⟩

section

variable {m : Memory} {a b : Int}

theorem index?_of_valid (h : m.Valid a) : m.index? a = some (a / Word.bytes).toNat :=
  if_pos ⟨h.nonneg, Int.emod_eq_zero_of_dvd h.aligned, h.lt⟩

theorem valid_of_index? {i : Nat} (h : m.index? a = some i) :
    m.Valid a ∧ i = (a / Word.bytes).toNat := by
  unfold index? at h
  split at h
  · next hv => exact ⟨⟨hv.1, Int.dvd_of_emod_eq_zero hv.2.1, hv.2.2⟩, by simpa using h.symm⟩
  · cases h

theorem index_lt (h : m.Valid a) : (a / Word.bytes).toNat < m.words.size := by
  have lt := h.lt
  have := h.nonneg
  simp only [size, Word.bytes] at lt ⊢
  omega

theorem size_set (i : Nat) (v : Value) :
    ({ m with words := m.words.setIfInBounds i v } : Memory).size = m.size := by
  simp [size]

theorem load_set_self (h : m.Valid a) (v : Value) :
    ({ m with words := m.words.setIfInBounds (a / Word.bytes).toNat v } : Memory).load a =
      .ok v := by
  have valid :
    ({ m with words := m.words.setIfInBounds (a / Word.bytes).toNat v } : Memory).Valid a :=
    ⟨h.nonneg, h.aligned, by rw [size_set]; exact h.lt⟩
  have lt := index_lt h
  simp [load, index?_of_valid valid, lt]

theorem load_set_of_ne (h : m.Valid a) (v : Value) (ne : b ≠ a) :
    ({ m with words := m.words.setIfInBounds (a / Word.bytes).toNat v } : Memory).load b =
      m.load b := by
  have index :
    ({ m with words := m.words.setIfInBounds (a / Word.bytes).toNat v } : Memory).index? b
      = m.index? b := by
    unfold index?
    rw [size_set]
  unfold load
  rw [index]
  cases hb : m.index? b with
  | none => rfl
  | some i =>
    obtain ⟨valid, rfl⟩ := valid_of_index? hb
    -- addresses of words that differ have different places
    have apart : (a / Word.bytes).toNat ≠ (b / Word.bytes).toNat := by
      have ha := h.aligned
      have hb := valid.aligned
      have := h.nonneg
      have := valid.nonneg
      simp only [Word.bytes] at ha hb ⊢
      omega
    simp [Array.getElem?_setIfInBounds_ne apart]

/-- A word is written, and all others stay. -/
theorem store_of_valid (h : m.Valid a) (v : Value) :
    ∃ m', store a v m = .ok () m' ∧ Alike m m' ∧ m'.load a = .ok v ∧
      ∀ b, b ≠ a → m'.load b = m.load b := by
  refine ⟨_, by rw [store, index?_of_valid h], ⟨size_set .., rfl, rfl, rfl, rfl⟩, load_set_self h v,
    fun b ne => load_set_of_ne h v ne⟩

/-- Words are written one after the other, and all others stay. -/
theorem storeAll_of_valid (vs : List Value) (nonneg : 0 ≤ a) (aligned : Word.bytes ∣ a)
    (le : a + vs.length * Word.bytes ≤ m.size) :
    ∃ m', storeAll a vs m = .ok () m' ∧ Alike m m' ∧
      (∀ (i : Nat) v, vs[i]? = some v → m'.load (a + i * Word.bytes) = .ok v) ∧
      ∀ b, b < a ∨ a + vs.length * Word.bytes ≤ b → m'.load b = m.load b := by
  induction vs generalizing a m with
  | nil => exact ⟨m, rfl, .refl m, by simp, fun b _ => rfl⟩
  | cons v vs ih =>
    simp only [List.length_cons, Word.bytes, Int.natCast_add, Int.cast_ofNat_Int] at le aligned
    have valid : m.Valid a := ⟨nonneg, aligned, by omega⟩
    obtain ⟨m₁, hstore, alike, here, others⟩ := store_of_valid valid v
    obtain ⟨m', hrest, alike', later, kept⟩ := ih (m := m₁) (a := a + Word.bytes)
      (by simp only [Word.bytes]; omega) (Int.dvd_add aligned (Int.dvd_refl _))
      (by rw [alike.size]; simp only [Word.bytes]; omega)
    refine ⟨m', by rw [storeAll, bind_apply, hstore]; exact hrest, alike.trans alike', ?_, ?_⟩
    · rintro (_ | i) w hw
      · obtain rfl : v = w := by simpa using hw
        rw [← here, kept _ (.inl (by simp only [Word.bytes]; omega))]
        simp
      · rw [← later i w (by simpa using hw)]
        congr 1
        simp only [Word.bytes]
        omega
    · intro b hb
      simp only [List.length_cons, Word.bytes] at hb kept
      rw [kept b (by omega), others b (by omega)]

theorem clear_eq_storeAll (n : Nat) (a : Int) :
    clear a n = storeAll a (List.replicate n .zero) := by
  induction n generalizing a with
  | zero => rfl
  | succ n ih =>
    rw [clear, List.replicate_succ, storeAll]
    congr 1
    funext _
    exact ih ..

end

/-! ## Activation records -/

/-- Memory after the record of a call was opened: it holds the argument words and then zeros. -/
structure Opened (m m' : Memory) (n : Int) (args : List Value) : Prop where
  size : m'.size = m.size
  fp : m'.fp = m.sp - n
  sp : m'.sp = m.sp - n
  staticTop : m'.staticTop = m.staticTop
  labels : m'.labels = m.labels
  arguments : ∀ (i : Nat) v, args[i]? = some v → m'.load (m.sp - n + i * Word.bytes) = .ok v
  zeros : ∀ b, m.sp - n + args.length * Word.bytes ≤ b → b < m.sp → Word.bytes ∣ b →
    m'.load b = .ok .zero
  others : ∀ b, b < m.sp - n ∨ m.sp ≤ b → m'.load b = m.load b

theorem Opened.count {m m' : Memory} {n : Int} {args : List Value} (h : Opened m m' n args) :
    m'.words.size = m.words.size := by
  have size := h.size
  simp only [Memory.size, Word.bytes] at size
  omega

/-- The stack pointer of a memory in which it may move down to static data. -/
structure Stacked (m : Memory) : Prop where
  nonneg : 0 ≤ m.staticTop
  room : m.staticTop ≤ m.sp
  le : m.sp ≤ m.size
  fits : Word.Fits m.size
  aligned : Word.bytes ∣ m.sp

section

variable {m : Memory} {n k : Int}

theorem reserve_overflow {o : Overflow} (h : Word.roundUp (max n 0) = .error o) :
    reserve n m = .error (.overflow o) m := by
  simp [reserve, bind_apply, checked, h]

variable (hm : m.Stacked) (h : Word.roundUp (max n 0) = .ok k)

include hm h

/-- A record is refused only if it would reach static data. -/
theorem reserve_full (full : m.sp - k < m.staticTop) :
    reserve n m = .error (.fault (.stackOverflow (m.sp - k))) m := by
  have fits : Word.Fits (m.sp - k) := by
    have := hm.fits
    have := hm.le
    have := hm.room
    have := hm.nonneg
    obtain ⟨small, rfl⟩ := Word.roundUp_eq_ok.1 h
    have := Word.rounded_bounds (max n 0)
    simp only [Word.Fits, Word.bytes] at *
    omega
  simp [reserve, bind_apply, checked, h, get_apply, Word.sub_eq_ok.2 ⟨fits, rfl⟩, full, throw_apply]

theorem reserve_ok (room : m.staticTop ≤ m.sp - k) :
    ∃ m', reserve n m = .ok (m.sp - k) m' ∧ Alike m m' ∧
      (∀ b, m.sp - k ≤ b → b < m.sp → Word.bytes ∣ b → m'.load b = .ok .zero) ∧
      ∀ b, b < m.sp - k ∨ m.sp ≤ b → m'.load b = m.load b := by
  have nonneg := hm.nonneg
  have high := hm.le
  obtain ⟨-, rounded⟩ := Word.roundUp_eq_ok.1 h
  obtain ⟨low, -, aligned⟩ := Word.rounded_bounds (max n 0)
  rw [← rounded] at low aligned
  have fits : Word.Fits (m.sp - k) := by
    have := hm.fits
    simp only [Word.Fits] at *
    omega
  obtain ⟨c, rfl⟩ := aligned
  obtain ⟨j, hj⟩ := hm.aligned
  have count : Word.bytes * c / Word.bytes = c := by simp [Word.bytes]
  have total : (c.toNat : Int) = c := by
    simp only [Word.bytes] at low
    omega
  obtain ⟨m', hstore, alike, written, others⟩ :=
    storeAll_of_valid (m := m) (a := m.sp - Word.bytes * c)
    (List.replicate c.toNat .zero) (by omega) ⟨j - c, by rw [hj, Int.mul_sub]⟩
    (by simp only [List.length_replicate, Word.bytes] at *; omega)
  refine ⟨m', ?_, alike, ?_, ?_⟩
  · simp [reserve, bind_apply, checked, h, get_apply, Word.sub_eq_ok.2 ⟨fits, rfl⟩,
      Int.not_lt.2 room, count, clear_eq_storeAll, map_apply, hstore]
  · intro b low high hb
    obtain ⟨q, rfl⟩ := hb
    have place := written (q - (j - c)).toNat .zero (by
      rw [List.getElem?_replicate, if_pos]
      simp only [Word.bytes] at *
      omega)
    rw [← place]
    congr 1
    simp only [Word.bytes] at *
    omega
  · intro b hb
    apply others b
    simp only [List.length_replicate, Word.bytes] at *
    omega

end

section

variable {m : Memory} {n k : Int} (hm : m.Stacked) (h : Word.roundUp (max n 0) = .ok k)

include hm h

theorem pushFrame_full (full : m.sp - k < m.staticTop) :
    pushFrame n m = .error (.fault (.stackOverflow (m.sp - k))) m := by
  rw [pushFrame, bind_apply, reserve_full hm h full]

/-- A frame is pushed if it stays above static data. -/
theorem pushFrame_ok (room : m.staticTop ≤ m.sp - k) :
    ∃ m', pushFrame n m = .ok (m.sp - k) m' ∧ Opened m m' k [] := by
  obtain ⟨m', reserved, alike, zeros, others⟩ := reserve_ok hm h room
  refine ⟨{ m' with fp := m.sp - k, sp := m.sp - k }, ?_, alike.size, rfl, rfl, alike.staticTop,
    alike.labels,
    by simp, fun b low high aligned => zeros b (by simpa using low) high aligned, others⟩
  rw [pushFrame, bind_apply, reserved]
  rfl

end

/-! ## Static data -/

/-- Memory with one more piece of static data. -/
def reserved (m : Memory) (label : String) (size : Int) : Memory :=
  { m with
    staticTop := m.staticTop + size
    labels := (label, m.staticTop) :: m.labels.filter (·.1 ≠ label) }

section

variable {m : Memory} {n k : Int} (label : String)

theorem allocateStatic_overflow {o : Overflow} (h : Word.roundUp (max n 0) = .error o) :
    allocateStatic label n m = .error (.overflow o) m := by
  simp [allocateStatic, bind_apply, checked, h]

variable (hm : m.Stacked) (h : Word.roundUp (max n 0) = .ok k)

include hm

theorem available : Word.sub m.sp m.staticTop = .ok (m.sp - m.staticTop) := by
  refine Word.sub_eq_ok.2 ⟨?_, rfl⟩
  have := hm.nonneg
  have := hm.room
  have := hm.le
  have := hm.fits
  simp only [Word.Fits] at *
  omega

include h

theorem allocateStatic_ok (room : m.staticTop + k ≤ m.sp) :
    allocateStatic label n m = .ok m.staticTop (m.reserved label k) := by
  have enough : ¬ m.sp - m.staticTop < k := by omega
  simp [allocateStatic, bind_apply, checked, h, get_apply, available hm, enough,
    modify_apply, reserved, map_apply]

theorem allocateStatic_full (full : m.sp < m.staticTop + k) :
    allocateStatic label n m = .error (.fault (.outOfMemory k (m.sp - m.staticTop))) m := by
  have scarce : m.sp - m.staticTop < k := by omega
  simp [allocateStatic, bind_apply, checked, h, get_apply, available hm, scarce, throw_apply]

end

/-! ## Calls -/

theorem roundUp_eq {n k : Int} (aligned : Word.bytes ∣ n) (h : Word.roundUp n = .ok k) : k = n := by
  rw [(Word.roundUp_eq_ok.1 h).2, Word.rounded_eq aligned]

section

variable {m : Memory} {frame : Frame} {n : Int} {args : List Value} (size : frame.size = .ok n)

include size

theorem enter_overflow {o : Overflow} (nonneg : 0 ≤ n) (h : Word.roundUp n = .error o) :
    enter frame args m = .error (.overflow o) m := by
  have refused : reserve n m = .error (.overflow o) m :=
    reserve_overflow (by rwa [Int.max_eq_left nonneg])
  simp [enter, bind_apply, checked, size, refused]

theorem enter_full (hm : m.Stacked) (nonneg : 0 ≤ n) (aligned : Word.bytes ∣ n) {k : Int}
    (h : Word.roundUp n = .ok k) (full : m.sp - n < m.staticTop) :
    enter frame args m = .error (.fault (.stackOverflow (m.sp - n))) m := by
  obtain rfl := roundUp_eq aligned h
  have refused := reserve_full hm (by rwa [Int.max_eq_left nonneg]) full
  simp [enter, bind_apply, checked, size, refused]

/-- A call opens its record if the record stays above static data. -/
theorem enter_ok (hm : m.Stacked) (nonneg : 0 ≤ n) (aligned : Word.bytes ∣ n) {k : Int}
    (h : Word.roundUp n = .ok k) (room : m.staticTop ≤ m.sp - n)
    (le : args.length * Word.bytes ≤ n) :
    ∃ m', enter frame args m = .ok m.registers m' ∧ Opened m m' n args := by
  obtain rfl := roundUp_eq aligned h
  obtain ⟨m₁, hreserve, alike, zeros, others⟩ :=
    reserve_ok hm (by rwa [Int.max_eq_left nonneg]) room
  have low := hm.nonneg
  have high := hm.le
  obtain ⟨m', hstore, alike', written, kept⟩ :=
    storeAll_of_valid (m := { m₁ with fp := m.sp - k, sp := m.sp - k }) (a := m.sp - k) args
      (by omega)
      (Int.dvd_sub hm.aligned aligned)
      (by
        have := alike.size
        simp only [Memory.size] at *
        omega)
  have registers : m₁.registers = m.registers := by
    simp [Memory.registers, alike.fp, alike.sp]
  refine ⟨m', ?_, ⟨alike'.size.trans alike.size, alike'.fp, alike'.sp,
    alike'.staticTop.trans alike.staticTop, alike'.labels.trans alike.labels, written, ?_, ?_⟩⟩
  · simp [enter, bind_apply, checked, size, hreserve, switch, map_apply, hstore, registers]
  · intro b hlow hhigh hb
    rw [kept b (.inr hlow)]
    exact zeros b (by simp only [Word.bytes] at hlow; omega) hhigh hb
  · intro b hb
    rw [kept b (by simp only [Word.bytes] at *; omega)]
    exact others b hb

end

end Memory
end PinsBackend
