import Mathlib.Algebra.Ring.Int.Defs
import Mathlib.Logic.Function.Iterate
import PinsBackend.Machine.Host
import PinsBackend.Proofs.Monad

/-! The random generator.

A number drawn from an interval lies in it, however wide the interval is: the offset from the lower
bound is computed on unsigned words and added without loss. The state of the generator moves one to
one, so it never reaches zero, where it would stay, and two generators never meet. -/
namespace PinsBackend

namespace Random

variable {lo : Int64}

/-! ## Numbers of an interval -/

/-- The width of an interval is an unsigned word, also where it is no signed one. -/
theorem toNat_width {hi : Int64} (h : lo ≤ hi) :
    ((hi - lo).toUInt64.toNat : Int) = hi.toInt - lo.toInt := by
  have order := Int64.le_iff_toInt_le.1 h
  have low := lo.le_toInt
  have high := hi.toInt_lt
  have signed := (hi - lo).toBitVec.toInt_eq_toNat_bmod
  rw [Int64.toInt_toBitVec, Int64.toInt_sub, Int64.toNat_toBitVec] at signed
  have bound := (hi - lo).toUInt64.toNat_lt
  simp only [Int.bmod] at signed
  split at signed <;> split at signed <;> omega

/-- An unsigned word is added to a signed one without loss if the sum is a signed word. -/
theorem toInt_add_toInt64 {x : UInt64} (fits : lo.toInt + x.toNat < 2 ^ 63) :
    (lo + x.toInt64).toInt = lo.toInt + x.toNat := by
  have low := lo.le_toInt
  have signed : x.toInt64.toInt = (x.toNat : Int).bmod (2 ^ 64) := by
    rw [← Int64.toInt_toBitVec, UInt64.toBitVec_toInt64, BitVec.toInt_eq_toNat_bmod,
      UInt64.toNat_toBitVec]
  rw [Int64.toInt_add, signed, Int.add_bmod_bmod]
  exact Int.bmod_eq_of_le (by omega) (by omega)

theorem between_exact {hi : Int64} (h : lo ≤ hi) (x : UInt64) :
    (between lo hi x).toInt = lo.toInt + x.toNat % (hi.toInt - lo.toInt + 1) := by
  have width := toNat_width h
  have order := Int64.le_iff_toInt_le.1 h
  have low := lo.le_toInt
  have high := hi.toInt_lt
  have word := x.toNat_lt
  by_cases all : (hi - lo).toUInt64 = 0xFFFFFFFFFFFFFFFF
  · have wide : hi.toInt - lo.toInt = 0xFFFFFFFFFFFFFFFF := by
      rw [← width, all]
      rfl
    rw [between, if_pos all, wide, toInt_add_toInt64 (by omega)]
    omega
  · have narrow : (hi - lo).toUInt64.toNat + 1 < 2 ^ 64 := by
      have bound := (hi - lo).toUInt64.toNat_lt
      have other : (hi - lo).toUInt64.toNat ≠ 0xFFFFFFFFFFFFFFFF :=
        fun eq => all (UInt64.toNat_inj.1 eq)
      omega
    have offset : (x % ((hi - lo).toUInt64 + 1)).toNat =
        x.toNat % ((hi - lo).toUInt64.toNat + 1) := by
      rw [UInt64.toNat_mod, UInt64.toNat_add, UInt64.toNat_one, Nat.mod_eq_of_lt narrow]
    have inside := Nat.mod_lt x.toNat (show 0 < (hi - lo).toUInt64.toNat + 1 by omega)
    rw [between, if_neg all, toInt_add_toInt64 (by rw [offset]; omega), offset, ← width]
    norm_cast

/-! ## Moving on -/

/-- A word combined with its own shift to the right determines the word: the highest bits are as
they were, and each other bit follows from a higher one. -/
theorem xor_ushiftRight_injective {w k : Nat} (hk : 0 < k) :
    Function.Injective fun x : BitVec w => x ^^^ (x >>> k) := by
  intro x y h
  have bit (i : Nat) : x.getLsbD i = y.getLsbD i := by
    induction n : w - i using Nat.strongRecOn generalizing i with
    | _ n ih =>
      by_cases inside : i < w
      · have higher := ih (w - (k + i)) (by omega) (k + i) rfl
        have same := congrArg (·.getLsbD i) h
        simpa [higher] using same
      · rw [BitVec.getLsbD_of_ge _ _ (by omega), BitVec.getLsbD_of_ge _ _ (by omega)]
  exact BitVec.eq_of_getLsbD_eq fun i _ => bit i

/-- The same for a shift to the left, from the lowest bits upward. -/
theorem xor_shiftLeft_injective {w k : Nat} (hk : 0 < k) :
    Function.Injective fun x : BitVec w => x ^^^ (x <<< k) := by
  intro x y h
  have bit (i : Nat) (inside : i < w) : x.getLsbD i = y.getLsbD i := by
    induction i using Nat.strongRecOn with
    | _ i ih =>
      have same := congrArg (·.getLsbD i) h
      by_cases low : i < k
      · simpa [low] using same
      · have lower := ih (i - k) (by omega) (by omega)
        simp only [BitVec.getLsbD_xor, BitVec.getLsbD_shiftLeft, lower] at same
        exact Bool.xor_left_inj.1 same
  exact BitVec.eq_of_getLsbD_eq bit

theorem next_injective : Function.Injective next := by
  intro x y h
  have bits := congrArg UInt64.toBitVec h
  simp only [next, UInt64.toBitVec_xor, UInt64.toBitVec_shiftRight,
    UInt64.toBitVec_shiftLeft] at bits
  exact UInt64.toBitVec_inj.1 (xor_ushiftRight_injective (k := 12) (by decide)
    (xor_shiftLeft_injective (k := 25) (by decide)
      (xor_ushiftRight_injective (k := 27) (by decide) bits)))

theorem next_ne_zero {x : UInt64} (h : x ≠ 0) : next x ≠ 0 :=
  fun zero => h (next_injective (zero.trans (by decide)))

theorem ofSeed_ne_zero (s : Int64) : ofSeed s ≠ 0 := by
  simp only [ofSeed]
  split
  · decide
  · next h => exact h

end Random

namespace Host

/-- The host after a call, whether the call fails or not. -/
def after (h : Host) (c : Builtin × List Value) : Host := left (call c.1 c.2 h)

/-- Holds of the calls that draw a number. -/
def isDraw : Builtin × List Value → Bool
  | (.randInt, [.int _, .int _]) => true
  | _ => false

/-- What a call does to the state of the generator. -/
inductive Moves (c : Builtin × List Value) (x : UInt64) : UInt64 → Prop
  | keeps (h : isDraw c = false) : Moves c x x
  | draws (h : isDraw c = true) : Moves c x (Random.next x)
  | seeds (h : c.1 = .seed) (s : Int64) : Moves c x (Random.ofSeed s)

theorem write_random (text : String) (h : Host) :
    ∃ sink, write text h = .ok () ⟨sink, h.random⟩ ∨
      ∃ f, write text h = .error f ⟨sink, h.random⟩ := by
  simp only [write]
  cases Sink.write text h.sink with
  | ok _ sink => exact ⟨sink, .inl rfl⟩
  | error f sink => exact ⟨sink, .inr ⟨f, rfl⟩⟩

/-- Printing leaves the generator alone. -/
theorem moves_print {α β : Type} (x : Except Fault α) (text : α → String) (result : α → β)
    (h : Host) {c : Builtin × List Value} (other : isDraw c = false) :
    Moves c h.random (left ((do
      let a ← reading x
      write (text a)
      return result a : EStateM Fault Host β) h)).random := by
  cases x with
  | error f => exact .keeps other
  | ok a =>
    obtain ⟨sink, wrote | ⟨f, wrote⟩⟩ := write_random (text a) h
    · simp only [bind_apply, reading, wrote]
      exact .keeps other
    · simp only [bind_apply, reading, wrote]
      exact .keeps other

theorem after_moves (h : Host) (c : Builtin × List Value) :
    Moves c h.random (h.after c).random := by
  obtain ⟨b, args⟩ := c
  unfold after
  fun_cases call b args with
  | case1 v => exact moves_print v.asInt _ _ h (by rfl)
  | case2 v => exact moves_print v.isTruthy _ _ h (by rfl)
  | case3 s => exact moves_print (.ok s) (· ++ "\n") Value.str h (by rfl)
  | case4 n => exact .keeps rfl
  | case5 v w =>
    cases v with
    | str s => exact .keeps rfl
    | int a =>
      cases w with
      | str s => exact .keeps rfl
      | int b => exact .draws rfl
  | case6 v =>
    cases v with
    | str s => exact .keeps rfl
    | int s => exact .seeds rfl s
  | case7 b args _ _ _ _ notPair _ =>
    refine .keeps ?_
    unfold isDraw
    split
    · next eq => cases eq; exact (notPair _ _ rfl rfl).elim
    · rfl

/-- The host after calls one after the other. -/
def afterAll (h : Host) (calls : List (Builtin × List Value)) : Host := calls.foldl after h

theorem afterAll_ne_zero (calls : List (Builtin × List Value)) {h : Host} (start : h.random ≠ 0) :
    (h.afterAll calls).random ≠ 0 := by
  induction calls generalizing h with
  | nil => exact start
  | cons c calls ih =>
    refine ih ?_
    have moves := after_moves h c
    generalize (h.after c).random = x at moves
    cases moves with
    | keeps _ => exact start
    | draws _ => exact Random.next_ne_zero start
    | seeds _ s => exact Random.ofSeed_ne_zero s

/-- Without a new seed the state moves on once for each number drawn. -/
theorem random_afterAll {calls : List (Builtin × List Value)} (unseeded : ∀ c ∈ calls, c.1 ≠ .seed)
    (h : Host) :
    (h.afterAll calls).random = Random.next^[calls.countP isDraw] h.random := by
  induction calls generalizing h with
  | nil => rfl
  | cons c calls ih =>
    obtain ⟨first, rest⟩ := List.forall_mem_cons.1 unseeded
    have moves := after_moves h c
    rw [afterAll, List.foldl_cons, ← afterAll, ih rest]
    generalize (h.after c).random = x at moves
    cases moves with
    | keeps other => rw [List.countP_cons_of_neg (by simp [other])]
    | draws isDraw => rw [List.countP_cons_of_pos isDraw, Function.iterate_succ_apply]
    | seeds isSeed _ => exact absurd isSeed first

/-- A number drawn between two bounds, in either order, lies between them. It is the lower bound and
the output of the generator modulo the size of the interval, as integers; the interval of all words
takes the output as it is. -/
theorem draws_stay_in_range (h : Host) (a b : Int64) :
    ∃ r : Int64,
      call .randInt [.int a, .int b] h = .ok (.int r) { h with random := Random.next h.random } ∧
      min a.toInt b.toInt ≤ r.toInt ∧ r.toInt ≤ max a.toInt b.toInt ∧
      r.toInt = min a.toInt b.toInt + (Random.output (Random.next h.random)).toNat %
        (max a.toInt b.toInt - min a.toInt b.toInt + 1) ∧
      (a = Int64.minValue → b = Int64.maxValue →
        r.toInt = a.toInt + (Random.output (Random.next h.random)).toNat) := by
  generalize hx : Random.output (Random.next h.random) = x
  have called : call .randInt [.int a, .int b] h =
      .ok (.int (if a ≤ b then Random.between a b x else Random.between b a x))
        { h with random := Random.next h.random } := by
    rw [← hx]
    rfl
  have number : (if a ≤ b then Random.between a b x else Random.between b a x).toInt =
      min a.toInt b.toInt + x.toNat % (max a.toInt b.toInt - min a.toInt b.toInt + 1) := by
    by_cases order : a ≤ b
    · have le := Int64.le_iff_toInt_le.1 order
      rw [if_pos order, Random.between_exact order, Int.min_eq_left le, Int.max_eq_right le]
    · have le : b ≤ a := Int64.le_of_lt (Int64.not_le.1 order)
      have le' := Int64.le_iff_toInt_le.1 le
      rw [if_neg order, Random.between_exact le, Int.min_eq_right le', Int.max_eq_left le']
  have size : 0 < max a.toInt b.toInt - min a.toInt b.toInt + 1 := by omega
  have nonneg := Int.emod_nonneg x.toNat (Int.ne_of_gt size)
  have less := Int.emod_lt_of_pos x.toNat size
  refine ⟨_, called, by omega, by omega, number, ?_⟩
  rintro rfl rfl
  have size : max Int64.minValue.toInt Int64.maxValue.toInt - min Int64.minValue.toInt
    Int64.maxValue.toInt + 1 =
      2 ^ 64 := by decide
  have word := x.toNat_lt
  rw [number, size, Int.emod_eq_of_lt (by omega) (by omega)]
  rfl

theorem draws_stay_in_range_allWords :
    ∃ r : Int64, call .randInt [.int Int64.minValue, .int Int64.maxValue] {} =
        .ok (.int r) { random := Random.next Random.start } ∧
      r.toInt = Int64.minValue.toInt + (Random.output (Random.next Random.start)).toNat := by
  obtain ⟨r, called, -, -, -, all⟩ := draws_stay_in_range {} Int64.minValue Int64.maxValue
  exact ⟨r, called, all rfl rfl⟩

/-- Whatever is called from a new host on, the generator never comes to zero. States move one to
one, so two hosts in different states are in different states after equally many draws, if neither
is given a new seed. -/
theorem generator_never_degenerates :
    (∀ (sink : Sink) calls, (afterAll { sink } calls).random ≠ 0) ∧
    Function.Injective Random.next ∧
    ∀ (h h' : Host) calls calls', (∀ c ∈ calls ++ calls', c.1 ≠ .seed) →
      calls.countP isDraw = calls'.countP isDraw → h.random ≠ h'.random →
      (h.afterAll calls).random ≠ (h'.afterAll calls').random := by
  refine ⟨fun sink calls => afterAll_ne_zero calls (show Random.start ≠ 0 by decide),
    Random.next_injective, ?_⟩
  intro h h' calls calls' unseeded equally differ
  obtain ⟨unseeded, unseeded'⟩ := List.forall_mem_append.1 unseeded
  rw [random_afterAll unseeded, random_afterAll unseeded', equally]
  exact fun same => differ (Random.next_injective.iterate _ same)

/-- The seed that would give zero, and two hosts that draw from different intervals. -/
theorem generator_never_degenerates_cancelledSeed :
    Random.start.toInt64.toUInt64 ^^^ Random.start = 0 ∧
    (afterAll {} [(.seed, [.int Random.start.toInt64])]).random ≠ 0 ∧
    (afterAll {} [(.randInt, [.int 1, .int 6]), (.randInt, [.int 3])]).random ≠
      (afterAll { random := 1 }
        [(.printInt, [.int 4]), (.randInt, [.int (-2), .int 3])]).random := by
  obtain ⟨nonzero, -, apart⟩ := generator_never_degenerates
  exact ⟨by decide, nonzero {} _, apart {} { random := 1 } _ _ (by decide) (by decide) (by decide)⟩

end Host
end PinsBackend
