/-! Machine words and the arithmetic of sizes.

Sizes, offsets and addresses are byte counts that have to fit a signed 64-bit word. The checked
operations refuse an exact result that does not fit; the arithmetic of running programs, which
wraps, is not here. -/
namespace PinsBackend

/-- The operation on sizes whose exact result does not fit a machine word, or a size that no
storage has. -/
inductive Overflow where
  | add
  | subtract
  | multiply
  /-- A block of storage that cannot exist. -/
  | capacity
  deriving DecidableEq, Repr

def Overflow.message : Overflow → String
  | .add => "attempt to add with overflow"
  | .subtract => "attempt to subtract with overflow"
  | .multiply => "attempt to multiply with overflow"
  | .capacity => "capacity overflow"

namespace Word

/-- Bytes in one memory word. -/
def bytes : Int := 8

/-- The integers a signed 64-bit word can hold. -/
def Fits (n : Int) : Prop :=
  -9223372036854775808 ≤ n ∧ n ≤ 9223372036854775807

instance (n : Int) : Decidable (Fits n) :=
  inferInstanceAs (Decidable (_ ∧ _))

def add (a b : Int) : Except Overflow Int :=
  if Fits (a + b) then .ok (a + b) else .error .add

def sub (a b : Int) : Except Overflow Int :=
  if Fits (a - b) then .ok (a - b) else .error .subtract

def mul (a b : Int) : Except Overflow Int :=
  if Fits (a * b) then .ok (a * b) else .error .multiply

/-- A count read as a signed word: counts from 2^63 on turn negative. -/
def ofCount (n : Nat) : Int :=
  Int.bmod n 18446744073709551616

/-- One more than a count. Counts are unsigned 64-bit words. -/
def succ (n : Nat) : Except Overflow Nat :=
  if n < 18446744073709551615 then .ok (n + 1) else .error .add

/-- The most values that one block of storage holds: 2^63 - 1 bytes, at 24 bytes a value. -/
def blockLimit : Nat := 384307168202282325

/-- Refuses a block of more values than storage can hold. -/
def block (count : Nat) : Except Overflow Unit :=
  if count ≤ blockLimit then .ok () else .error .capacity

/-- The least multiple of the word size that is at least `n`, for `n` not negative. -/
def roundUp (n : Int) : Except Overflow Int := do
  let past ← add n bytes
  return (past - 1) / bytes * bytes

theorem add_eq_ok {a b c : Int} : add a b = .ok c ↔ Fits (a + b) ∧ c = a + b := by
  unfold add; split <;> simp_all [eq_comm]

theorem sub_eq_ok {a b c : Int} : sub a b = .ok c ↔ Fits (a - b) ∧ c = a - b := by
  unfold sub; split <;> simp_all [eq_comm]

theorem mul_eq_ok {a b c : Int} : mul a b = .ok c ↔ Fits (a * b) ∧ c = a * b := by
  unfold mul; split <;> simp_all [eq_comm]

theorem succ_eq_ok {n m : Nat} : succ n = .ok m ↔ n < 18446744073709551615 ∧ m = n + 1 := by
  unfold succ
  split
  · next h => simp [h, eq_comm]
  · next h => simp [h]

end Word
end PinsBackend
