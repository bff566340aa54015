import PinsBackend.Proofs.Monad
import PinsBackend.Ty

/-! Types of values.

A value has an atomic type or is an array of values. Its extent is the number of words it takes.
Types that differ in aliases only cannot be told apart by what is observed of them. -/
namespace PinsBackend.Ty

/-- Holds of the types of variables: atomic types and arrays of at least one element. -/
def isData : Ty → Bool
  | .logical | .integer | .string => true
  | .array n element => decide (0 < n) && element.isData
  | .alias _ target => target.isData
  | .void | .function _ _ | .error => false

/-- The words of a value. -/
def extent : Ty → Nat
  | .logical | .integer | .string => 1
  | .array n element => n.toNat * element.extent
  | .alias _ target => target.extent
  | .void | .function _ _ | .error => 0

/-- The same type, up to aliases. -/
def Same (a b : Ty) : Prop := a.structural = b.structural

variable {a b : Ty}

theorem isCompatible_iff : a.isCompatible b = true ↔ a.Same b := by
  simp [isCompatible, Same]

theorem Same.refl (a : Ty) : a.Same a := rfl

/-! ## Observations up to aliases -/

mutual

/-- A structural form has no alias left to replace. -/
theorem structural_structural : (t : Ty) → t.structural.structural = t.structural
  | .alias _ target => structural_structural target
  | .array _ element => by rw [structural, structural, structural_structural element]
  | .function params result => by
    rw [structural, structural, structuralList_structuralList params, structural_structural result]
  | .logical | .integer | .string | .void | .error => rfl

theorem structuralList_structuralList : (ts : List Ty) →
    structuralList (structuralList ts) = structuralList ts
  | [] => rfl
  | t :: ts => by
    rw [structuralList, structuralList, structural_structural t, structuralList_structuralList ts]

end

/-- What is observed of a type is not changed by a name given to it, nor by names given to the parts
of an array or of a function. -/
structure SeesThrough {α : Type} (f : Ty → α) : Prop where
  named : ∀ x t, f (.alias x t) = f t
  array : ∀ n t, f t.structural = f t → f (.array n t.structural) = f (.array n t)
  function : ∀ ps r, f (.function (structuralList ps) r.structural) = f (.function ps r)

namespace SeesThrough

variable {α : Type} {f : Ty → α}

theorem structural (h : SeesThrough f) : (t : Ty) → f t.structural = f t
  | .alias x target => (h.structural target).trans (h.named x target).symm
  | .array n element => h.array n element (h.structural element)
  | .function ps r => h.function ps r
  | .logical | .integer | .string | .void | .error => rfl

theorem same (h : SeesThrough f) (same : a.Same b) : f a = f b := by
  rw [← h.structural a, same, h.structural]

end SeesThrough

theorem Same.isAtomic (h : a.Same b) : a.isAtomic = b.isAtomic :=
  SeesThrough.same ⟨fun _ _ => rfl, fun _ _ _ => rfl, fun _ _ => rfl⟩ h

theorem Same.isInteger (h : a.Same b) : a.isInteger = b.isInteger :=
  SeesThrough.same ⟨fun _ _ => rfl, fun _ _ _ => rfl, fun _ _ => rfl⟩ h

theorem Same.isLogical (h : a.Same b) : a.isLogical = b.isLogical :=
  SeesThrough.same ⟨fun _ _ => rfl, fun _ _ _ => rfl, fun _ _ => rfl⟩ h

theorem Same.isArray (h : a.Same b) : a.isArray = b.isArray :=
  SeesThrough.same ⟨fun _ _ => rfl, fun _ _ _ => rfl, fun _ _ => rfl⟩ h

theorem Same.isError (h : a.Same b) : a.isError = b.isError :=
  SeesThrough.same ⟨fun _ _ => rfl, fun _ _ inner => inner, fun _ _ => rfl⟩ h

theorem Same.isData (h : a.Same b) : a.isData = b.isData := by
  refine SeesThrough.same ⟨fun _ _ => rfl, ?_, fun _ _ => rfl⟩ h
  intro n t inner
  rw [Ty.isData, Ty.isData, inner]

theorem Same.extent (h : a.Same b) : a.extent = b.extent := by
  refine SeesThrough.same ⟨fun _ _ => rfl, ?_, fun _ _ => rfl⟩ h
  intro n t inner
  rw [Ty.extent, Ty.extent, inner]

theorem Same.sizeInWords (h : a.Same b) : a.sizeInWords = b.sizeInWords := by
  refine SeesThrough.same ⟨fun _ _ => rfl, ?_, fun _ _ => rfl⟩ h
  intro n t inner
  rw [Ty.sizeInWords, Ty.sizeInWords, inner]

/-- The parts of an array are seen as they are only if the element type is, too. -/
theorem seesThrough_arrayParts? :
    SeesThrough fun t => t.arrayParts?.map fun (n, element) => (n, element.structural) where
  named _ _ := rfl
  array n t _ := by simp only [arrayParts?, unaliased, Option.map_some, structural_structural]
  function _ _ := rfl

theorem Same.arrayParts? (h : a.Same b) :
    Option.Rel (fun p q => p.1 = q.1 ∧ p.2.Same q.2) a.arrayParts? b.arrayParts? := by
  have parts := seesThrough_arrayParts?.same h
  cases left : a.arrayParts? with
  | none =>
    cases right : b.arrayParts? with
    | none => exact .none
    | some q => simp [left, right] at parts
  | some p =>
    cases right : b.arrayParts? with
    | none => simp [left, right] at parts
    | some q =>
      simp only [left, right, Option.map_some, Option.some.injEq, Prod.mk.injEq] at parts
      exact .some parts

/-! ## Values -/

theorem isError_of_isData : {t : Ty} → t.isData = true → t.isError = false
  | .logical, _ | .integer, _ | .string, _ => rfl
  | .array _ element, h => isError_of_isData (t := element) (Bool.and_eq_true_iff.1 h).2
  | .alias _ target, h => isError_of_isData (t := target) h

theorem extent_of_isAtomic : {t : Ty} → t.isAtomic = true → t.extent = 1
  | .logical, _ | .integer, _ | .string, _ => rfl
  | .alias _ target, h => extent_of_isAtomic (t := target) h

theorem isArray_of_isAtomic : {t : Ty} → t.isAtomic = true → t.isArray = false
  | .logical, _ | .integer, _ | .string, _ => rfl
  | .alias _ target, h => isArray_of_isAtomic (t := target) h

theorem isAtomic_of_isData : {t : Ty} → t.isData = true → t.isArray = false → t.isAtomic = true
  | .logical, _, _ | .integer, _, _ | .string, _, _ => rfl
  | .alias _ target, h, ha => isAtomic_of_isData (t := target) h ha

theorem isData_of_isAtomic : {t : Ty} → t.isAtomic = true → t.isData = true
  | .logical, _ | .integer, _ | .string, _ => rfl
  | .alias _ target, h => isData_of_isAtomic (t := target) h

theorem extent_pos : {t : Ty} → t.isData = true → 0 < t.extent
  | .logical, _ | .integer, _ | .string, _ => Nat.one_pos
  | .alias x target, h => extent_pos (t := target) h
  | .array n element, h => by
    obtain ⟨pos, data⟩ := Bool.and_eq_true_iff.1 h
    have pos : 0 < n := by simpa using pos
    exact Nat.mul_pos (by omega) (extent_pos data)

/-- What storage is taken for a value is what the value takes. -/
theorem sizeInWords_eq :
    {t : Ty} → {w : Int} → t.isData = true → t.sizeInWords = .ok w → w = t.extent
  | .logical, _, _, h | .integer, _, _, h | .string, _, _, h => by
    cases h
    rfl
  | .alias x target, _, data, h => sizeInWords_eq (t := target) data h
  | .array n element, w, data, h => by
    obtain ⟨pos, data⟩ := Bool.and_eq_true_iff.1 data
    have pos : 0 < n := by simpa using pos
    simp only [sizeInWords, except_bind_eq_ok, Word.mul_eq_ok] at h
    obtain ⟨w', hw, -, rfl⟩ := h
    rw [sizeInWords_eq data hw, extent, Int.natCast_mul, Int.toNat_of_nonneg (by omega)]

/-- Storage is found for a value whose bytes can be counted. -/
theorem sizeInWords_eq_ok : {t : Ty} → t.isData = true → Word.Fits (t.extent * Word.bytes) →
    t.sizeInWords = .ok (t.extent : Int)
  | .logical, _, _ | .integer, _, _ | .string, _, _ => rfl
  | .alias x target, data, fits => sizeInWords_eq_ok (t := target) data fits
  | .array n element, data, fits => by
    obtain ⟨pos, data⟩ := Bool.and_eq_true_iff.1 data
    have pos : 0 < n := by simpa using pos
    have one : (element.extent : Int) ≤ n * element.extent := by
      have := Int.mul_le_mul_of_nonneg_right (show 1 ≤ n by omega)
        (Int.natCast_nonneg element.extent)
      omega
    have whole : ((Ty.array n element).extent : Int) = n * element.extent := by
      rw [extent, Int.natCast_mul, Int.toNat_of_nonneg (by omega)]
    rw [whole] at fits ⊢
    simp only [Word.Fits, Word.bytes] at fits
    have inner : Word.Fits (element.extent * Word.bytes) := by
      simp only [Word.Fits, Word.bytes]
      omega
    simp only [sizeInWords, except_bind_eq_ok, Word.mul_eq_ok]
    refine ⟨element.extent, sizeInWords_eq_ok data inner, ?_, rfl⟩
    simp only [Word.Fits]
    omega

theorem arrayParts?_eq_some : {t : Ty} → {n : Int} → {element : Ty} →
    t.arrayParts? = some (n, element) → t.isData = true →
    0 < n ∧ element.isData = true ∧ t.extent = n.toNat * element.extent ∧ t.isArray = true
  | .alias x target, _, _, h, data => arrayParts?_eq_some (t := target) h data
  | .array n element, _, _, h, data => by
    cases h
    obtain ⟨pos, data⟩ := Bool.and_eq_true_iff.1 data
    exact ⟨by simpa using pos, data, rfl, rfl⟩
  | .logical, _, _, h, _ | .integer, _, _, h, _ | .string, _, _, h, _ => by
    simp [arrayParts?, unaliased] at h

/-! ## Compatible types -/

/-- Checks and layout depend on the structural form only. It is a fixed point, and no check can tell
apart two compatible types, wherever the aliases stand: they take the same storage, or the size of
both overflows, and both are arrays of one length with compatible elements, or neither is an array.
-/
theorem compatible_types_observed_alike :
    (∀ t : Ty, t.structural.structural = t.structural) ∧
    ∀ t u : Ty, t.isCompatible u = true →
      t.isAtomic = u.isAtomic ∧ t.isInteger = u.isInteger ∧ t.isLogical = u.isLogical ∧
      t.isArray = u.isArray ∧ t.isError = u.isError ∧ t.sizeInWords = u.sizeInWords ∧
      Option.Rel (fun p q => p.1 = q.1 ∧ p.2.isCompatible q.2 = true) t.arrayParts?
        u.arrayParts? := by
  constructor
  · exact structural_structural
  · intro t u compatible
    have same : t.Same u := isCompatible_iff.1 compatible
    refine ⟨same.isAtomic, same.isInteger, same.isLogical, same.isArray, same.isError,
      same.sizeInWords, ?_⟩
    simp only [isCompatible_iff]
    exact same.arrayParts?

/-- A named type of rows with a named type of cells. -/
def namedRows (rows : Int) : Ty :=
  .alias "grid" (.array rows (.alias "row" (.array 4 (.alias "cell" .integer))))

/-- Three rows take twelve words, and the rows that would fill every address are too many, with
names as without. -/
theorem compatible_types_observed_alike_namedRows :
    (namedRows 3).isCompatible (.array 3 (.array 4 .integer)) = true ∧
    (namedRows 3).sizeInWords = .ok 12 ∧
    Option.Rel (fun p q => p.1 = q.1 ∧ p.2.isCompatible q.2 = true) (namedRows 3).arrayParts?
      (some (3, .array 4 .integer)) ∧
    (namedRows 2305843009213693952).isCompatible (.array 2305843009213693952 (.array 4 .integer)) =
      true ∧
    (namedRows 2305843009213693952).sizeInWords = .error .multiply := by
  have few : (namedRows 3).isCompatible (.array 3 (.array 4 .integer)) = true := by decide
  have many : (namedRows 2305843009213693952).isCompatible
    (.array 2305843009213693952 (.array 4 .integer)) =
      true := by decide
  obtain ⟨-, -, -, -, -, size, parts⟩ := compatible_types_observed_alike.2 _ _ few
  obtain ⟨-, -, -, -, -, overflow, -⟩ := compatible_types_observed_alike.2 _ _ many
  exact ⟨few, size.trans rfl, parts, many, overflow.trans rfl⟩

end PinsBackend.Ty
