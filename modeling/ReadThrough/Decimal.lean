/-! # Shortest Decimal Text

  The fewest decimal digits that read back as a given binary floating-point number, and how
  they are written.

  - **Binary**: the magnitude `mantissa * 2 ^ exponent` of a finite number.
  - **Digits**: `digits` is the first decimal grid, from coarse to fine, on which one of the two
    neighbours of the number reads back as that number; of two such neighbours the nearer one
    is taken, and the upper one if both are equally near.
  - **Style**: which numbers are written positionally and which with an exponent.
-/

namespace ReadThrough.Decimal

/-! ## Binary floating-point numbers -/

/-- A floating-point number taken apart. -/
inductive Parts where
  /-- Not a number. -/
  | nan
  /-- An infinity. -/
  | infinite (negative : Bool)
  /-- The number of magnitude `mantissa * 2 ^ exponent`. -/
  | finite (negative : Bool) (mantissa : Nat) (exponent : Int)
  deriving DecidableEq, Repr

/-- Takes a 64-bit floating-point word apart: a sign bit, eleven exponent bits and fifty-two
    fraction bits. -/
def Parts.ofBits (bits : UInt64) : Parts :=
  let word : Nat := bits.toNat
  let negative := word / Nat.pow 2 63 == 1
  let biased : Nat := word / Nat.pow 2 52 % Nat.pow 2 11
  let fraction : Nat := word % Nat.pow 2 52
  if biased = 2047 then
    if fraction = 0 then .infinite negative else .nan
  else if biased = 0 then .finite negative fraction (-1074)
  else .finite negative (Nat.pow 2 52 + fraction) ((biased : Int) - 1075)

/-! ## Shortest digits -/

/-- The decimal digits of a positive number: the number reads `0.digits * 10 ^ point`, where
    `digits` is taken as a string of digits without trailing zeros. -/
structure Digits where
  digits : List Char
  point : Int
  deriving DecidableEq, Repr

/-- The exponent `k` with `10 ^ (k - 1) ≤ num / den < 10 ^ k`, if `num < den`, counted down from
    `k = 0`; at most `fuel` steps. -/
def pointBelowOne (num den : Nat) : Nat → Int
  | 0 => 0
  | fuel + 1 => if num * 10 < den then pointBelowOne (num * 10) den fuel - 1 else 0

/-- The exponent `k` with `10 ^ (k - 1) ≤ num / den < 10 ^ k`. -/
def decimalPoint (num den : Nat) : Int :=
  if den ≤ num then ((Nat.toDigits 10 (num / den)).length : Int)
  else pointBelowOne num den 400

/-- Whether the grid point `d`, counted in units of `den`, reads back as the number `num` whose
    mantissa is `mantissa`: it lies at most half a unit in the last place away, where a number
    with the smallest normal mantissa has a lower neighbour twice as near, and exactly half
    way only if the mantissa is even. -/
def readsBack (mantissa num den d : Nat) : Bool :=
  let distance := if d * den ≤ num then num - d * den else d * den - num
  let scale := if d * den < num ∧ mantissa = Nat.pow 2 52 then 4 else 2
  let reach := distance * (scale * mantissa)
  reach < num || (reach == num && mantissa % 2 == 0)

/-- Looks for the first grid with a point that reads back: the grid of `count` significant
    digits, then finer ones, `fuel` of them. The answer is the point and its digit count. -/
def firstGrid (mantissa num den : Nat) (point : Int) : Nat → Nat → Nat × Nat
  | 0, count => (num / den, count)
  | fuel + 1, count =>
    let shift := (count : Int) - point
    -- In units of the grid the number reads num' / den', between its two neighbours.
    let num' := num * Nat.pow 10 shift.toNat
    let den' := den * Nat.pow 10 (-shift).toNat
    let below := num' / den'
    let above := below + 1
    let belowHits := below ≠ 0 && readsBack mantissa num' den' below
    let aboveHits := readsBack mantissa num' den' above
    if belowHits && (!aboveHits || num' - below * den' < above * den' - num') then (below, count)
    else if aboveHits then (above, count)
    else firstGrid mantissa num den point fuel (count + 1)

/-- The fewest digits that read back as the positive number `mantissa * 2 ^ exponent`. -/
def digits (mantissa : Nat) (exponent : Int) : Digits :=
  let num := mantissa * Nat.pow 2 exponent.toNat
  let den := Nat.pow 2 (-exponent).toNat
  let point := decimalPoint num den
  let (grid, count) := firstGrid mantissa num den point 17 1
  -- The upper neighbour may have one digit more than the grid asks for.
  let text := Nat.toDigits 10 grid
  { digits := (text.reverse.dropWhile (· == '0')).reverse
    point := point + ((text.length : Int) - (count : Int)) }

/-! ## Layout -/

/-- Which numbers are written positionally: those whose leading digit stands at a power of ten
    from `least` to `greatest`. -/
structure Style where
  least : Int
  greatest : Int
  deriving DecidableEq, Repr

/-- Digits in positional notation, with at least one digit on either side of the point. -/
def positional (d : Digits) : String :=
  let count := d.digits.length
  let point := d.point.toNat
  if d.point ≤ 0 then
    "0." ++ String.ofList (List.replicate (-d.point).toNat '0' ++ d.digits)
  else if count ≤ point then
    String.ofList (d.digits ++ List.replicate (point - count) '0') ++ ".0"
  else
    String.ofList (d.digits.take point) ++ "." ++ String.ofList (d.digits.drop point)

/-- Digits in exponent notation: one digit, the others behind a point if there are any, and the
    power of ten. -/
def scientific (d : Digits) : String :=
  let lead := String.ofList (d.digits.take 1)
  let rest := d.digits.drop 1
  let tail := if rest.isEmpty then "" else "." ++ String.ofList rest
  lead ++ tail ++ "e" ++ toString (d.point - 1)

/-- The text of a floating-point number. -/
def Style.write (style : Style) : Parts → String
  | .nan => "NaN"
  | .infinite negative => if negative then "-inf" else "inf"
  | .finite negative mantissa exponent =>
    let sign := if negative then "-" else ""
    if mantissa = 0 then sign ++ "0.0"
    else
      let d := digits mantissa exponent
      if style.least ≤ d.point - 1 ∧ d.point - 1 ≤ style.greatest then sign ++ positional d
      else sign ++ scientific d

end ReadThrough.Decimal
