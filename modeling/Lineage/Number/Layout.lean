import Lineage.Number.Literal
import Lineage.Text.Lines
/-!
# Written numbers

Among the decimals `d * 10 ^ e` that are read back as a given double, the one on the coarsest grid
`10 ^ e` is written, and of two on that grid the nearer. A layout says how its digits are set: which
decimal exponents are written positionally, what follows a whole number, and how two equally near
decimals are told apart. `plain` is the layout of documents and messages.
-/
namespace Lineage.Number

/-! ## The fewest digits that read back -/

/-- Which of two equally near decimals is taken. -/
inductive Tie where
  /-- The greater one. -/
  | up
  /-- The one with an even last digit. -/
  | even
deriving DecidableEq, Repr

/-- The digits on the grid `10 ^ e` that read back as the magnitude `bits`, if there are any. Only
the two neighbours of the value on the grid can. -/
def digitsAt? (tie : Tie) (bits : Nat) (e : Int) : Option Nat :=
  let num := unitsOf bits * Nat.pow 10 (-e).toNat
  let den := Nat.pow 10 e.toNat * unitsPerOne
  let low := num / den
  if nearestDecimal low e = bits then
    if nearestDecimal (low + 1) e = bits then
      let rest := 2 * (num % den)
      if rest < den then some low
      else if den < rest then some (low + 1)
      else match tie with
        | .up => some (low + 1)
        | .even => some (low + low % 2)
    else some low
  else if nearestDecimal (low + 1) e = bits then some (low + 1)
  else none

/-- The exponent of a grid coarser than the value of the magnitude `bits`. -/
def coarsest (bits : Nat) : Int := (((unitsOf bits).log2 : Int) - 1073) * 30103 / 100000 + 1

/-- The fewest digits that read back as the magnitude `bits`, and their exponent. Seventeen
digits always do; the exact value in units closes the search. -/
def shortest (tie : Tie) (bits : Nat) : Nat × Int :=
  let found := (List.range 20).findSome? fun (i : Nat) =>
    (digitsAt? tie bits (coarsest bits - i)).map fun d => (d, coarsest bits - (i : Int))
  found.getD (unitsOf bits * Nat.pow 5 1074, -1074)

/-! ## Layouts -/

/-- How a finite double is written. -/
structure Layout where
  tie : Tie
  /-- What stands behind a whole number that is written positionally. -/
  whole : Text
  /-- Whether a number whose first digit stands for `10 ^ e` is written positionally. -/
  positional : Int → Bool

/-- Positional notation: the digits with a point `-e` places from the end, or with `e` zeros
behind them. -/
def setPoint (whole ds : Text) (e : Int) : Text :=
  if 0 ≤ e then ds ++ List.replicate e.toNat '0' ++ whole
  else
    let places := (-e).toNat
    if places < ds.length then
      ds.take (ds.length - places) ++ '.' :: ds.drop (ds.length - places)
    else '0' :: '.' :: List.replicate (places - ds.length) '0' ++ ds

/-- Scientific notation: one digit before the point, the others behind it, and an exponent with
its sign. -/
def setExponent (ds : Text) (e : Int) : Text :=
  let mantissa := match ds with
    | d :: f :: fs => d :: '.' :: f :: fs
    | ds => ds
  let sign := if e < 0 then '-' else '+'
  mantissa ++ 'e' :: sign :: Nat.toDigits 10 e.natAbs

/-- The text of a magnitude. -/
def Layout.magnitudeText (l : Layout) (bits : Nat) : Text :=
  if bits = 0 then '0' :: l.whole
  else
    let (n, e) := shortest l.tie bits
    let ds := Nat.toDigits 10 n
    let first := e + ds.length - 1
    if l.positional first then setPoint l.whole ds e else setExponent ds first

/-- The text of a finite double; a negative zero keeps its sign. -/
def Layout.text (l : Layout) (x : Float) : Text :=
  (if isNegative x then ['-'] else []) ++ l.magnitudeText (magnitude x)

/-- Documents write numbers without exponent and whole numbers without point. -/
def plain : Layout := ⟨.up, [], fun _ => true⟩

/-- The text of any double: the plain text, or the word for an infinity or no number. -/
def display (x : Float) : Text :=
  if x.isNaN then ['N', 'a', 'N']
  else if magnitude x = infinity then (if isNegative x then ['-'] else []) ++ ['i', 'n', 'f']
  else plain.text x

/-- The text of a double as a value: both zeros are written alike, since `-0` would read back as a
negated operand. -/
def format (x : Float) : Text := if x == 0 then ['0'] else display x

end Lineage.Number
