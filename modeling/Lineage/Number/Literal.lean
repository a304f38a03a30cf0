import Lineage.Text.Lines
/-!
# Numbers and their literals

A finite double is a whole number of units of `2 ^ -1074`, up to its sign. `roundDiv` rounds a
quotient to the nearest whole number, `nearest` rounds a quotient to the nearest double, and
`units` gives the exact value back.

A literal is an optional sign, digits with an optional point among or around them, and an
optional exponent. It is read as the nearest double.
-/
/-! ## Doubles as whole numbers of the least unit -/

namespace Lineage.Number

/-- The quotient rounded to the nearest whole number, halfway cases to the even one. -/
def roundDiv (num den : Nat) : Nat :=
  if 2 * (num % den) < den then num / den
  else if den < 2 * (num % den) then num / den + 1
  else num / den + num / den % 2

/-- The number of units in one. -/
def unitsPerOne : Nat := Nat.pow 2 1074

/-- The number of doubles in a binade, the doubles that share an exponent. -/
def binade : Nat := Nat.pow 2 52

/-- The value of the sign bit; magnitudes are below. -/
def signBit : Nat := Nat.pow 2 63

/-- The magnitude bits of the infinities; every finite magnitude is below. -/
def infinity : Nat := 2047 * binade

/-- The magnitude bits of the double nearest to `num / den`; past the last finite double they
reach `infinity`. A magnitude `k * 2 ^ 52 + m` stands for `m * 2 ^ k` units, so the rounded
quotient may carry into the next binade. -/
def nearest (num den : Nat) : Nat :=
  let scale := (num * unitsPerOne / den).log2 - 52
  roundDiv (num * unitsPerOne) (den * Nat.pow 2 scale) + scale * binade

/-- The magnitude bits of the double nearest to `n * 10 ^ e`. The two bounds keep the powers of
ten small where the answer is infinity or zero whatever the digits are. -/
def nearestDecimal (n : Nat) (e : Int) : Nat :=
  if n = 0 then 0
  else if 310 ≤ e then infinity
  else if n.log2 + 3 * e < -1076 then 0
  else nearest (n * Nat.pow 10 e.toNat) (Nat.pow 10 (-e).toNat)

/-- The double with the given sign and magnitude bits. -/
def ofMagnitude (negative : Bool) (bits : Nat) : Float :=
  Float.ofBits (UInt64.ofNat (min bits infinity + if negative then signBit else 0))

/-- All bits but the sign. -/
def magnitude (x : Float) : Nat := x.toBits.toNat % signBit

/-- Whether the sign bit is set. -/
def isNegative (x : Float) : Bool := decide (signBit ≤ x.toBits.toNat)

/-- The number of units that magnitude bits stand for. -/
def unitsOf (bits : Nat) : Nat :=
  (bits - (bits / binade - 1) * binade) * Nat.pow 2 (bits / binade - 1)

/-- The exact absolute value of a finite double, as a number of units. -/
def units (x : Float) : Nat := unitsOf (magnitude x)

/-- The double nearest to a whole number. -/
def ofInt (n : Int) : Float := ofMagnitude (decide (n < 0)) (nearest n.natAbs 1)

/-- Whether a double is a whole number: finite, and with no fraction. -/
def isWhole (x : Float) : Bool := decide (magnitude x < infinity ∧ units x % unitsPerOne = 0)

/-- A double without its fraction. An infinity counts as the first power of two that is past all
finite doubles. -/
def truncate (x : Float) : Int :=
  if isNegative x then -(units x / unitsPerOne : Nat) else (units x / unitsPerOne : Nat)

/-! ## Literals -/

/-- The parts of a numeric literal. -/
structure Literal where
  negative : Bool
  /-- The digits before the point. -/
  whole : Text
  /-- The digits after the point. -/
  fraction : Text
  exponent : Int

/-- A leading sign, read as whether it is a minus, and the rest. -/
def takeSign : Text → Bool × Text
  | '-' :: r => (true, r)
  | '+' :: r => (false, r)
  | t => (false, t)

/-- The leading digits and the rest. -/
def takeDigits (t : Text) : Text × Text := (t.takeWhile Char.isDigit, t.dropWhile Char.isDigit)

/-- The digits after a leading point, and the rest. -/
def takeFraction : Text → Text × Text
  | '.' :: r => takeDigits r
  | t => ([], t)

/-- The value of a digit sequence. -/
def digitsValue (ds : Text) : Nat := Nat.ofDigitChars 10 ds 0

/-- Reads a whole exponent part, which is empty or is an `e`, an optional sign and digits. -/
def exponent? : Text → Option Int
  | [] => some 0
  | c :: r =>
    if c = 'e' ∨ c = 'E' then
      let (negative, r) := takeSign r
      let (ds, r) := takeDigits r
      if ds.isEmpty ∨ ¬ r.isEmpty then none
      else some (if negative then -(digitsValue ds : Int) else digitsValue ds)
    else none

/-- Reads a whole text as a literal. -/
def Literal.ofText? (t : Text) : Option Literal :=
  let (negative, r) := takeSign t
  let (whole, r) := takeDigits r
  let (fraction, r) := takeFraction r
  if whole.isEmpty ∧ fraction.isEmpty then none
  else (exponent? r).map fun e => ⟨negative, whole, fraction, e⟩

/-- The double nearest to a literal, infinite past the last finite double. -/
def Literal.toFloat (l : Literal) : Float :=
  ofMagnitude l.negative
    (nearestDecimal (digitsValue (l.whole ++ l.fraction)) (l.exponent - l.fraction.length))

/-- Whether the whole text is a numeric literal. -/
def isLiteral (t : Text) : Bool := (Literal.ofText? t).isSome

/-- Reads a numeric literal. Words such as `inf` and literals past the last finite double are
no numbers. -/
def parse? (t : Text) : Option Float :=
  ((Literal.ofText? t).map Literal.toFloat).filter Float.isFinite

end Lineage.Number
