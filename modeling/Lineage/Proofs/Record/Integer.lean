import Lineage.Record.Documents
import Lineage.Proofs.Number.Exact
/-!
# Integers of a type

The range check of an integer type is made on doubles. Its bounds are exact (`rational?_lower`,
`rational?_upper`), so a value is read as an integer exactly if it is one of the type
(`ofValue?_integer_iff`).
-/
namespace Lineage

open Number

namespace IntegerType

variable {t : IntegerType} {x : Float} {i : Int}

theorem rational?_lower (t : IntegerType) : rational? t.lower = some (t.least : ℚ) := by
  rw [rational?_eq_int_iff]
  cases t <;> decide +kernel

/-- The bound is past the greatest integer by one, whether it was rounded up or added to. -/
theorem rational?_upper (t : IntegerType) :
    rational? t.upper = some ((t.greatest + 1 : Int) : ℚ) := by
  rw [rational?_eq_int_iff]
  cases t <;> decide +kernel

/-- The range check lets the integers of the type through, and nothing else. -/
theorem holds_iff : t.holds x = true ↔
    ∃ i : Int, rational? x = some (i : ℚ) ∧ t.least ≤ i ∧ i ≤ t.greatest := by
  have hrange : ∀ {i : Int}, rational? x = some (i : ℚ) →
      (t.lower ≤ x ∧ x < t.upper ↔ t.least ≤ i ∧ i ≤ t.greatest) := fun hx => by
    rw [le_iff_int t.rational?_lower hx, lt_iff_int hx t.rational?_upper, Int.lt_add_one_iff]
  rw [holds, Bool.and_eq_true, Bool.and_eq_true, decide_eq_true_iff, decide_eq_true_iff, and_assoc,
    isWhole_iff]
  constructor
  · rintro ⟨⟨i, hx⟩, hi⟩
    exact ⟨i, hx, (hrange hx).1 hi⟩
  · rintro ⟨i, hx, hi⟩
    exact ⟨⟨i, hx⟩, (hrange hx).2 hi⟩

/-- What is in the range is not moved to an end of it. -/
theorem convert_of_rational? (hx : rational? x = some (i : ℚ)) (hl : t.least ≤ i)
    (hg : i ≤ t.greatest) : t.convert x = i := by
  have hnan : x.isNaN = false := isNaN_of_isFinite (isFinite_of_rational? hx)
  rw [convert, hnan, truncate_of_rational? hx, Int.min_eq_right hg, Int.max_eq_right hl]
  rfl

/-- A number is an integer of the type exactly if its exact value is one within the bounds. -/
theorem ofNumber?_eq_some_iff : t.ofNumber? x = some i ↔
    rational? x = some (i : ℚ) ∧ t.least ≤ i ∧ i ≤ t.greatest := by
  unfold ofNumber?
  constructor
  · intro h
    split at h
    · next hx =>
      obtain ⟨j, hj, hl, hg⟩ := holds_iff.1 hx
      rw [convert_of_rational? hj hl hg, Option.some.injEq] at h
      exact h ▸ ⟨hj, hl, hg⟩
    · cases h
  · rintro ⟨hx, hl, hg⟩
    rw [if_pos (holds_iff.2 ⟨i, hx, hl, hg⟩), convert_of_rational? hx hl hg]

end IntegerType

namespace FieldType

/-- A value is read as an integer of a type exactly if it is a number that denotes the integer, and
the integer is in the range of the type. What is converted is in the range already. -/
theorem ofValue?_integer_iff (t : IntegerType) :
    (∀ v k, (integer t).ofValue? v = some k ↔
      ∃ x, v = .number x ∧ rational? x = some (k : ℚ) ∧ t.least ≤ k ∧ k ≤ t.greatest) ∧
    ∀ x, t.holds x = true →
      t.least ≤ truncate x ∧ truncate x ≤ t.greatest ∧ t.convert x = truncate x := by
  refine ⟨fun v k => ?_, fun x hx => ?_⟩
  · cases v with
    | number x =>
      refine IntegerType.ofNumber?_eq_some_iff.trans ⟨fun h => ⟨x, rfl, h⟩, ?_⟩
      rintro ⟨_, ⟨⟩, h⟩
      exact h
    | bool b => exact iff_of_false nofun nofun
    | text s => exact iff_of_false nofun nofun
  · obtain ⟨i, hi, hl, hg⟩ := IntegerType.holds_iff.1 hx
    rw [IntegerType.convert_of_rational? hi hl hg, truncate_of_rational? hi]
    exact ⟨hl, hg, rfl⟩

/-- The last double below `2 ^ 63` is read, and is converted as it is. -/
theorem ofValue?_integer_iff_last :
    (integer .signed64).ofValue? (.number (ofInt 9223372036854774784)) =
      some 9223372036854774784 ∧
    IntegerType.signed64.convert (ofInt 9223372036854774784) =
      truncate (ofInt 9223372036854774784) := by
  have hx : rational? (ofInt 9223372036854774784) = some ((9223372036854774784 : Int) : ℚ) :=
    rational?_eq_int_iff.2 (by decide +kernel)
  have hholds : IntegerType.signed64.holds (ofInt 9223372036854774784) = true := by decide +kernel
  exact ⟨((ofValue?_integer_iff .signed64).1 _ _).2 ⟨_, rfl, hx, by decide, by decide⟩,
    ((ofValue?_integer_iff .signed64).2 _ hholds).2.2⟩

/-- The greatest integer of 64 bits is rounded up, out of the range. -/
example : (integer .signed64).ofValue? (.number (ofInt IntegerType.signed64.greatest)) = none := by
  decide +kernel

end FieldType

end Lineage
