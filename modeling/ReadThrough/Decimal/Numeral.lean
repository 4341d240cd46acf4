/-! # Numerals

  How a written number is read.

  - **Numeral**: sign, digits before and behind the point, and exponent, as they are written.
  - **natural?**: digits alone that stay below 2^64 are a natural number, which is read exactly.
  - **toFloat**: every numeral can be read as a floating-point number. Its digits are taken for as
    long as they make a 64-bit word, the word is rounded, and the outcome is scaled by a power
    of ten. Both steps round to nearest, so numerals of up to fifteen digits are read as the
    nearest number if their power of ten is small, and longer ones may be read as a neighbour.
-/

namespace ReadThrough.Decimal

/-- A written number. -/
structure Numeral where
  negative : Bool
  /-- The digits before the point. -/
  whole : List Nat
  /-- The digits behind the point, if there is a point. -/
  part? : Option (List Nat)
  /-- The power of ten, if one is written. -/
  exponent? : Option Int
  deriving DecidableEq, Repr

namespace Numeral

/-! ## Parts of a numeral -/

/-- The digits at the front of a text, and what follows them. -/
def splitDigits (cs : List Char) : List Nat × List Char :=
  ((cs.takeWhile Char.isDigit).map fun c => c.toNat - '0'.toNat, cs.dropWhile Char.isDigit)

/-- The number that digits make. -/
def valueOf (digits : List Nat) : Nat :=
  digits.foldl (fun n d => n * 10 + d) 0

/-- Whether a text starts with a minus sign, and what follows the sign. -/
def splitMinus : List Char → Bool × List Char
  | '-' :: cs => (true, cs)
  | cs => (false, cs)

/-- The digits behind a point, and what follows them. -/
def splitPart : List Char → Option (List Nat) × List Char
  | '.' :: cs =>
    let (digits, rest) := splitDigits cs
    (some digits, rest)
  | cs => (none, cs)

/-- The sign of a power of ten, and what follows it. -/
def splitExponentSign : List Char → Bool × List Char
  | '-' :: cs => (true, cs)
  | '+' :: cs => (false, cs)
  | cs => (false, cs)

/-- The power of ten behind its mark, and what follows it. -/
def splitExponent (cs : List Char) : Option Int × List Char :=
  match cs with
  | mark :: cs' =>
    if mark = 'e' ∨ mark = 'E' then
      let (negative, cs') := splitExponentSign cs'
      let (digits, rest) := splitDigits cs'
      let power : Int := valueOf digits
      (some (if negative then -power else power), rest)
    else (none, cs)
  | [] => (none, [])

/-- The numeral that makes up a whole text. -/
def parse? (text : String) : Option Numeral :=
  let (negative, cs) := splitMinus text.toList
  let (whole, cs) := splitDigits cs
  let (part?, cs) := splitPart cs
  let (exponent?, cs) := splitExponent cs
  if whole.isEmpty || !cs.isEmpty then none else some { negative, whole, part?, exponent? }

/-! ## Values -/

/-- The greatest natural number that is read exactly, and one more. -/
def wordSpan : Nat := Nat.pow 2 64

/-- The natural number that a numeral stands for, if it is written as one. -/
def natural? (n : Numeral) : Option Nat :=
  if n.negative || n.part?.isSome || n.exponent?.isSome then none
  else if valueOf n.whole < wordSpan then some (valueOf n.whole) else none

/-- Appends digits to a word for as long as it stays a word; the result is the word and how many
    digits are left over. -/
def appendDigits : List Nat → Nat → Nat × Nat
  | [], word => (word, 0)
  | d :: ds, word =>
    if word * 10 + d < wordSpan then appendDigits ds (word * 10 + d) else (word, ds.length + 1)

/-- The word made of the first digits of a numeral, and the power of ten that it counts. -/
def scaledWord (n : Numeral) : Nat × Int :=
  let (word, dropped) := appendDigits n.whole 0
  let part := n.part?.getD []
  -- Digits behind the point are taken even if some before it were left over.
  let (word, skipped) := appendDigits part word
  (word, (dropped : Int) - ((part.length - skipped : Nat) : Int) + n.exponent?.getD 0)

/-- The floating-point number nearest to a power of ten. -/
def tenTo (power : Nat) : Float :=
  .ofScientific 1 false power

/-- The greatest power of ten that is a finite number. -/
def greatestPower : Nat := 308

/-- A number times a power of ten. -/
def scaleUp (x : Float) (power : Nat) : Float :=
  if power ≤ greatestPower then x * tenTo power
  else if x == 0.0 then x
  else 1.0 / 0.0

/-- A number divided by a power of ten. -/
def scaleDown (x : Float) (power : Nat) : Float :=
  if power ≤ greatestPower then x / tenTo power
  else if x == 0.0 then x
  else scaleDown (x / tenTo greatestPower) (power - greatestPower)
termination_by power
decreasing_by
  simp only [greatestPower] at *
  omega

/-- The floating-point number that a numeral is read as. -/
def toFloat (n : Numeral) : Float :=
  let (word, power) := n.scaledWord
  let x := word.toUInt64.toFloat
  let y := if 0 ≤ power then scaleUp x power.toNat else scaleDown x (-power).toNat
  if n.negative then -y else y

end Numeral

end ReadThrough.Decimal
