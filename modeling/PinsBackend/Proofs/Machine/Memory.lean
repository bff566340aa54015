import PinsBackend.Machine.Memory
import PinsBackend.Proofs.Monad

/-! What operations on memory leave as it was, and why they stop. -/
namespace PinsBackend

/-- Holds of the ways in which an operation on memory stops. -/
def Halt.OfMemory : Halt Fault → Prop
  | .overflow _ => True
  | .fault (.invalidAddress _) => True
  | .fault (.stackOverflow _) => True
  | .fault (.outOfMemory _ _) => True
  | _ => False

namespace Memory

variable {v : Value} {vs : List Value} {saved : Registers} {label : String} {gs : List Global}

variable {m m' : Memory} {address size a : Int} {frame : Frame} {args : List Value}

theorem checked_eq_ok {α : Type} {x : Except Overflow α} {a : α} (h : checked x m = .ok a m') :
    x = .ok a ∧ m' = m := by
  unfold checked at h
  split at h <;> simp_all

theorem store_eq_ok (h : store address v m = .ok () m') :
    ∃ i, m.index? address = some i ∧ m' = { m with words := m.words.setIfInBounds i v } := by
  unfold store at h
  split at h
  · next i hi => exact ⟨i, hi, by simpa [eq_comm] using h⟩
  · simp at h

theorem store_keeps (h : store address v m = .ok () m') :
    m'.labels = m.labels ∧ m'.registers = m.registers := by
  obtain ⟨i, -, rfl⟩ := store_eq_ok h
  exact ⟨rfl, rfl⟩

theorem clear_eq_ok {n : Nat} (h : clear address n m = .ok () m') :
    ∃ words, m' = { m with words } := by
  induction n generalizing address m with
  | zero =>
    obtain ⟨-, rfl⟩ := pure_eq_ok.1 h
    exact ⟨_, rfl⟩
  | succ n ih =>
    simp only [clear, bind_eq_ok] at h
    obtain ⟨_, m₁, hstore, hrest⟩ := h
    obtain ⟨i, -, rfl⟩ := store_eq_ok hstore
    obtain ⟨words, rfl⟩ := ih hrest
    exact ⟨words, rfl⟩

theorem storeAll_eq_ok (h : storeAll address vs m = .ok () m') :
    ∃ words, m' = { m with words } := by
  induction vs generalizing address m with
  | nil =>
    obtain ⟨-, rfl⟩ := pure_eq_ok.1 h
    exact ⟨_, rfl⟩
  | cons v vs ih =>
    simp only [storeAll, bind_eq_ok] at h
    obtain ⟨_, m₁, hstore, hrest⟩ := h
    obtain ⟨i, -, rfl⟩ := store_eq_ok hstore
    obtain ⟨words, rfl⟩ := ih hrest
    exact ⟨words, rfl⟩

/-- Room for an activation record is below the stack pointer and above static data. -/
theorem reserve_eq_ok {sp : Int} (h : reserve size m = .ok sp m') :
    ∃ k words, Word.roundUp (max size 0) = .ok k ∧ sp = m.sp - k ∧ m.staticTop ≤ sp ∧
      m' = { m with words } := by
  simp only [reserve, bind_eq_ok] at h
  obtain ⟨k, m₁, hsize, m₂, _, hget, h⟩ := h
  obtain ⟨rounded, rfl⟩ := checked_eq_ok hsize
  rw [get_apply] at hget
  cases hget
  obtain ⟨sp', m₂, hsp, m₃, _, hget, h⟩ := h
  obtain ⟨below, rfl⟩ := checked_eq_ok hsp
  rw [get_apply] at hget
  cases hget
  split at h
  · simp [throw_apply, bind_apply] at h
  · next room =>
    simp only [bind_eq_ok, pure_eq_ok] at h
    obtain ⟨_, m₄, hclear, rfl, rfl⟩ := h
    obtain ⟨words, rfl⟩ := clear_eq_ok hclear
    exact ⟨k, words, rounded, (Word.sub_eq_ok.1 below).2, Int.not_lt.1 room, rfl⟩

/-- Both registers address the record of a call, which lies right below the one before it. -/
theorem enter_eq_ok (h : enter frame args m = .ok saved m') :
    ∃ size k words, frame.size = .ok size ∧ Word.roundUp (max size 0) = .ok k ∧
      m.staticTop ≤ m.sp - k ∧
      saved = m.registers ∧ m' = { m with words, fp := m.sp - k, sp := m.sp - k } := by
  simp only [enter, bind_eq_ok] at h
  obtain ⟨size, m₁, hsize, sp, m₂, hreserve, regs, m₃, hswitch, _, m₄, hstore, hpure⟩ := h
  obtain ⟨sized, rfl⟩ := checked_eq_ok hsize
  obtain ⟨k, words, rounded, rfl, room, rfl⟩ := reserve_eq_ok hreserve
  simp only [switch, EStateM.Result.ok.injEq] at hswitch
  obtain ⟨rfl, rfl⟩ := hswitch
  obtain ⟨rfl, rfl⟩ := pure_eq_ok.1 hpure
  obtain ⟨words', rfl⟩ := storeAll_eq_ok hstore
  exact ⟨size, k, words', sized, rounded, room, rfl, rfl⟩

/-- A call gets the registers back that it saved, and static data stays where it is. -/
theorem enter_keeps (h : enter frame args m = .ok saved m') :
    saved = m.registers ∧ m'.labels = m.labels := by
  obtain ⟨size, k, words, -, -, -, rfl, rfl⟩ := enter_eq_ok h
  exact ⟨rfl, rfl⟩

/-- Static data is reserved from the top of static data upward, below the stack. -/
theorem allocateStatic_eq_ok (h : allocateStatic label size m = .ok a m') :
    ∃ k, Word.roundUp (max size 0) = .ok k ∧ m.staticTop + k ≤ m.sp ∧ a = m.staticTop ∧
      m' =
        { m with
          staticTop := m.staticTop + k
          labels := (label, m.staticTop) :: m.labels.filter (·.1 ≠ label) } := by
  simp only [allocateStatic, bind_eq_ok] at h
  obtain ⟨k, m₁, hsize, m₂, _, hget, h⟩ := h
  obtain ⟨rounded, rfl⟩ := checked_eq_ok hsize
  rw [get_apply] at hget
  cases hget
  obtain ⟨available, m₂, hsub, h⟩ := h
  obtain ⟨left, rfl⟩ := checked_eq_ok hsub
  obtain ⟨-, rfl⟩ := Word.sub_eq_ok.1 left
  split at h
  · simp [throw_apply, bind_apply] at h
  · next room =>
    simp only [bind_apply, modify_apply, pure_apply, EStateM.Result.ok.injEq] at h
    obtain ⟨rfl, rfl⟩ := h
    exact ⟨k, rounded, by omega, rfl, rfl⟩

/-! ## Failures -/

variable {m m' : Memory} {halt : Halt Fault}

theorem checked_eq_error {α : Type} {x : Except Overflow α} (h : checked x m = .error halt m') :
    ∃ o, halt = .overflow o := by
  cases x with
  | ok a => cases h
  | error o =>
    cases h
    exact ⟨o, rfl⟩

theorem store_eq_error (h : store a v m = .error halt m') :
    halt = .fault (.invalidAddress a) ∧ m' = m := by
  unfold store at h
  split at h
  · cases h
  · cases h
    exact ⟨rfl, rfl⟩

theorem clear_eq_error {n : Nat} (h : clear a n m = .error halt m') :
    ∃ b, halt = .fault (.invalidAddress b) := by
  induction n generalizing a m with
  | zero => cases h
  | succ n ih =>
    rcases bind_eq_error.1 h with h | ⟨_, m₁, -, h⟩
    · exact ⟨a, (store_eq_error h).1⟩
    · exact ih h

theorem storeAll_eq_error (h : storeAll a vs m = .error halt m') :
    ∃ b, halt = .fault (.invalidAddress b) := by
  induction vs generalizing a m with
  | nil => cases h
  | cons v vs ih =>
    rcases bind_eq_error.1 h with h | ⟨_, m₁, -, h⟩
    · exact ⟨a, (store_eq_error h).1⟩
    · exact ih h

/-- There is no room for a record if a size overflows, if memory ends, or if it would reach into
static data. -/
theorem reserve_eq_error (h : reserve size m = .error halt m') :
    (∃ o, halt = .overflow o) ∨ (∃ b, halt = .fault (.invalidAddress b)) ∨
      ∃ sp, sp < m.staticTop ∧ halt = .fault (.stackOverflow sp) ∧ m' = m := by
  rcases bind_eq_error.1 h with h | ⟨k, m₁, rounded, stopped⟩
  · exact .inl (checked_eq_error h)
  obtain ⟨-, rfl⟩ := checked_eq_ok rounded
  simp only [bind_apply, get_apply] at stopped
  split at stopped
  · next sp m₁ left =>
    obtain ⟨-, rfl⟩ := checked_eq_ok left
    split at stopped
    · next below =>
      cases stopped
      exact .inr (.inr ⟨sp, below, rfl, rfl⟩)
    · rcases bind_eq_error.1 stopped with stopped | ⟨_, m₂, -, stopped⟩
      · exact .inr (.inl (clear_eq_error stopped))
      · cases stopped
  · next refused =>
    cases stopped
    exact .inl (checked_eq_error refused)

theorem enter_eq_error (h : enter frame args m = .error halt m') :
    (∃ o, halt = .overflow o) ∨ (∃ b, halt = .fault (.invalidAddress b)) ∨
      ∃ sp, sp < m.staticTop ∧ halt = .fault (.stackOverflow sp) ∧ m' = m := by
  rcases bind_eq_error.1 h with h | ⟨size, m₁, sized, stopped⟩
  · exact .inl (checked_eq_error h)
  obtain ⟨-, rfl⟩ := checked_eq_ok sized
  rcases bind_eq_error.1 stopped with stopped | ⟨sp, m₂, -, stopped⟩
  · exact reserve_eq_error stopped
  rcases bind_eq_error.1 stopped with stopped | ⟨caller, m₃, -, stopped⟩
  · cases stopped
  rcases bind_eq_error.1 stopped with stopped | ⟨_, m₄, -, stopped⟩
  · exact .inr (.inl (storeAll_eq_error stopped))
  · cases stopped

theorem allocateStatic_eq_error (h : allocateStatic label size m = .error halt m') :
    (∃ o, halt = .overflow o) ∨
      ∃ needed available, halt = .fault (.outOfMemory needed available) := by
  rcases bind_eq_error.1 h with h | ⟨k, m₁, -, h⟩
  · exact .inl (checked_eq_error h)
  simp only [bind_apply, get_apply] at h
  split at h
  · split at h
    · cases h
      exact .inr ⟨_, _, rfl⟩
    · cases h
  · next refused =>
    cases h
    exact .inl (checked_eq_error refused)

theorem allocateGlobals_eq_error (h : allocateGlobals gs m = .error halt m') :
    (∃ o, halt = .overflow o) ∨
      ∃ needed available, halt = .fault (.outOfMemory needed available) := by
  induction gs generalizing m with
  | nil => cases h
  | cons g gs ih =>
    rcases bind_eq_error.1 h with h | ⟨_, m₁, -, h⟩
    · exact allocateStatic_eq_error h
    · exact ih h

theorem ofMemory_store (h : store a v m = .error halt m') : halt.OfMemory := by
  rw [(store_eq_error h).1]
  trivial

theorem ofMemory_enter (h : enter frame args m = .error halt m') : halt.OfMemory := by
  rcases enter_eq_error h with ⟨o, rfl⟩ | ⟨b, rfl⟩ | ⟨sp, -, rfl, -⟩ <;> trivial

theorem ofMemory_allocateGlobals (h : allocateGlobals gs m = .error halt m') : halt.OfMemory := by
  rcases allocateGlobals_eq_error h with ⟨o, rfl⟩ | ⟨n, k, rfl⟩ <;> trivial

end Memory
end PinsBackend
