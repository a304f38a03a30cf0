import Lineage.Json.Basic
import Lineage.Number.Literal
/-!
# Reading JSON

A number is read as the digits that fit 64 bits, rounded to a double, and then multiplied or
divided by a power of ten and rounded again. Strings may hold every escape of JSON; surrogates are
paired afterwards.
-/
namespace Lineage.Json

/-! ## Numbers -/

/-- Appends digits to a whole number as long as it stays below `2 ^ 64`: the number, and how many
digits were taken. -/
def takeSignificand (n : Nat) : Text → Nat × Nat
  | [] => (n, 0)
  | d :: ds =>
    let m := 10 * n + Number.digitsValue [d]
    if m < UInt64.size then
      let (v, taken) := takeSignificand m ds
      (v, taken + 1)
    else (n, 0)

/-- The double nearest to a power of ten. -/
def tenTo (e : Nat) : Float := Number.ofMagnitude false (Number.nearestDecimal 1 e)

/-- Multiplies or divides by a power of ten, at most `10 ^ 308` at a time. -/
def scale (x : Float) (e : Int) : Float :=
  if x == 0 then x
  else if 308 < e then Number.ofMagnitude false Number.infinity
  else if 0 ≤ e then x * tenTo e.toNat
  else if -308 ≤ e then x / tenTo (-e).toNat
  else scale (x / tenTo 308) (e + 308)
termination_by (-e).toNat
decreasing_by omega

/-- The double that the digits of a number stand for. -/
def numberOf (negative : Bool) (whole fraction : Text) (exponent : Int) : Float :=
  let (n, taken) := takeSignificand 0 whole
  let (n, more) := takeSignificand n fraction
  let x := scale n.toUInt64.toFloat (exponent + (whole.length - taken : Nat) - more)
  if negative then -x else x

/-- Reads the fraction of a number, if there is one. -/
def fraction? : Text → Option (Text × Text)
  | '.' :: r =>
    let (ds, r) := Number.takeDigits r
    if ds.isEmpty then none else some (ds, r)
  | t => some ([], t)

/-- Reads the exponent of a number, if there is one. -/
def exponent? : Text → Option (Int × Text)
  | [] => some (0, [])
  | c :: r =>
    if c = 'e' ∨ c = 'E' then
      let (negative, r) := Number.takeSign r
      let (ds, r) := Number.takeDigits r
      if ds.isEmpty then none
      else some (if negative then -(Number.digitsValue ds : Int) else Number.digitsValue ds, r)
    else some (0, c :: r)

/-- Takes off a minus. -/
def takeMinus : Text → Bool × Text
  | '-' :: r => (true, r)
  | t => (false, t)

/-- Reads a number at the start of a text. -/
def number? (t : Text) : Option (Float × Text) :=
  let (negative, r) := takeMinus t
  let (whole, r) := Number.takeDigits r
  if whole.isEmpty || (whole.head? == some '0' && whole.length != 1) then none
  else match fraction? r with
    | none => none
    | some (fraction, r) => match exponent? r with
      | none => none
      | some (e, r) => some (numberOf negative whole fraction e, r)

/-! ## Strings -/

/-- The value of a hexadecimal digit. -/
def hexDigit? (c : Char) : Option Nat :=
  if c.isDigit then some (c.toNat - '0'.toNat)
  else if 'a' ≤ c ∧ c ≤ 'f' then some (c.toNat - 'a'.toNat + 10)
  else if 'A' ≤ c ∧ c ≤ 'F' then some (c.toNat - 'A'.toNat + 10)
  else none

/-- The value of four hexadecimal digits. -/
def hexDigits? (a b c d : Char) : Option Nat :=
  match hexDigit? a, hexDigit? b, hexDigit? c, hexDigit? d with
  | some a, some b, some c, some d => some (((a * 16 + b) * 16 + c) * 16 + d)
  | _, _, _, _ => none

/-- The character that an escape of one letter stands for. -/
def escape? : Char → Option Char
  | '"' => some '"'
  | '\\' => some '\\'
  | '/' => some '/'
  | 'b' => some '\x08'
  | 'f' => some '\x0C'
  | 'n' => some '\n'
  | 'r' => some '\r'
  | 't' => some '\t'
  | _ => none

/-- Reads the rest of a string behind its opening quote, as code points that may be surrogates. -/
def codePoints? : Text → Option (List Nat × Text)
  | [] => none
  | '"' :: r => some ([], r)
  | '\\' :: 'u' :: a :: b :: c :: d :: r =>
    match hexDigits? a b c d, codePoints? r with
    | some n, some (ns, r) => some (n :: ns, r)
    | _, _ => none
  | '\\' :: c :: r =>
    match escape? c, codePoints? r with
    | some e, some (ns, r) => some (e.toNat :: ns, r)
    | _, _ => none
  | c :: r =>
    if c.toNat < 0x20 then none
    else match codePoints? r with
      | some (ns, r) => some (c.toNat :: ns, r)
      | none => none

/-- The text of code points in which surrogates stand in pairs. -/
def pairSurrogates? : List Nat → Option Text
  | [] => some []
  | n :: ns =>
    if 0xD800 ≤ n ∧ n < 0xDC00 then
      match ns with
      | m :: ns =>
        if 0xDC00 ≤ m ∧ m < 0xE000 then
          (pairSurrogates? ns).map (Char.ofNat (0x10000 + (n - 0xD800) * 0x400 + (m - 0xDC00)) :: ·)
        else none
      | [] => none
    else if 0xDC00 ≤ n ∧ n < 0xE000 then none
    else (pairSurrogates? ns).map (Char.ofNat n :: ·)

/-- Reads the rest of a string behind its opening quote. -/
def string? (t : Text) : Option (Option Text × Text) :=
  (codePoints? t).map fun p => (pairSurrogates? p.1, p.2)

/-! ## Values -/

/-- Takes the blanks of JSON off the start. -/
def skipBlanks (t : Text) : Text := t.dropWhile [' ', '\t', '\n', '\r'].contains

mutual

/-- Reads a value at the start of a text, in at most `steps` calls. -/
def value? : (steps : Nat) → Text → Option (Json × Text)
  | 0, _ => none
  | steps + 1, t => match skipBlanks t with
    | 'n' :: 'u' :: 'l' :: 'l' :: r => some (null, r)
    | 't' :: 'r' :: 'u' :: 'e' :: r => some (bool true, r)
    | 'f' :: 'a' :: 'l' :: 's' :: 'e' :: r => some (bool false, r)
    | '"' :: r => (string? r).map fun p => (string p.1, p.2)
    | '[' :: r => match skipBlanks r with
      | ']' :: r => some (array [], r)
      | _ => (items? steps r).map fun p => (array p.1, p.2)
    | '{' :: r => match skipBlanks r with
      | '}' :: r => some (object [], r)
      | _ => (members? steps r).map fun p => (object p.1, p.2)
    | t => (number? t).map fun p => (number p.1, p.2)

/-- Reads the items of an array up to its end. -/
def items? : (steps : Nat) → Text → Option (List Json × Text)
  | 0, _ => none
  | steps + 1, t => match value? steps t with
    | none => none
    | some (j, r) => match skipBlanks r with
      | ']' :: r => some ([j], r)
      | ',' :: r => (items? steps r).map fun p => (j :: p.1, p.2)
      | _ => none

/-- Reads the members of an object up to its end. -/
def members? : (steps : Nat) → Text → Option (List (Option Text × Json) × Text)
  | 0, _ => none
  | steps + 1, t => match skipBlanks t with
    | '"' :: r => match string? r with
      | none => none
      | some (key, r) => match skipBlanks r with
        | ':' :: r => match value? steps r with
          | none => none
          | some (j, r) => match skipBlanks r with
            | '}' :: r => some ([(key, j)], r)
            | ',' :: r => (members? steps r).map fun p => ((key, j) :: p.1, p.2)
            | _ => none
        | _ => none
    | _ => none

end

/-- Reads a whole text as one value. Every second call takes a character at least, so twice the
length is steps enough. -/
def parse? (t : Text) : Option Json :=
  match value? (2 * t.length + 2) t with
  | some (j, r) => if (skipBlanks r).isEmpty then some j else none
  | none => none

end Lineage.Json
