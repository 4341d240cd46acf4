import ReadThrough.Decimal

/-! # Load Factors

  The ratio of nodes to buckets above which a bucket array doubles, as an exact fraction.

  - **LoadFactor**: a positive fraction of at most four.
  - **ofFloat**: a written ratio is cut off at four; a ratio that is not a positive finite
    number stands for three quarters.
  - **bucketsFor**, **threshold**: how many buckets a number of nodes asks for, and how many nodes
    a number of buckets holds before it has to grow.
-/

namespace ReadThrough.Table

/-- A positive ratio of at most four. -/
structure LoadFactor where
  num : Nat
  den : Nat
  num_pos : 0 < num
  den_pos : 0 < den
  le_four : num ≤ 4 * den

namespace LoadFactor

/-- Three nodes for four buckets. -/
def standard : LoadFactor :=
  { num := 3, den := 4, num_pos := by decide, den_pos := by decide, le_four := by decide }

/-- The positive fraction `num / den`, cut off at four. -/
def ofFraction (num den : Nat) (hn : 0 < num) (hd : 0 < den) : LoadFactor :=
  if h : num ≤ 4 * den then
    { num := num, den := den, num_pos := hn, den_pos := hd, le_four := h }
  else
    { num := 4, den := 1, num_pos := by decide, den_pos := by decide, le_four := by decide }

/-- The load factor that a floating-point number stands for. -/
def ofParts : Decimal.Parts → LoadFactor
  | .finite false mantissa exponent =>
    if h : 0 < mantissa then
      ofFraction (mantissa * Nat.pow 2 exponent.toNat) (Nat.pow 2 (-exponent).toNat)
        (Nat.mul_pos h (Nat.two_pow_pos _)) (Nat.two_pow_pos _)
    else standard
  | _ => standard

/-- The load factor that a written ratio stands for. -/
def ofFloat (x : Float) : LoadFactor :=
  ofParts (.ofBits x.toBits)

/-! ## Bucket counts -/

/-- No bucket array has fewer buckets. -/
def leastBuckets : Nat := 16

/-- No bucket array doubles from this count on. -/
def mostBuckets : Nat := Nat.pow 2 62

/-- The number of buckets that hold `capacity` nodes without growing: a power of two. -/
def bucketsFor (f : LoadFactor) (capacity : Nat) : Nat :=
  let wanted := (capacity * f.den + f.num - 1) / f.num
  max leastBuckets (min wanted mostBuckets).nextPowerOfTwo

/-- The number of nodes that `buckets` buckets hold before they have to grow. -/
def threshold (f : LoadFactor) (buckets : Nat) : Nat :=
  buckets * f.num / f.den

end LoadFactor

end ReadThrough.Table
