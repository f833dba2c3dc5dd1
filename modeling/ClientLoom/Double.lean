/-! # Doubles

The numbers of the binary format with 53 bits.  `Double.ofDecimal?` gives the double nearest to
a decimal number, and `Double.shortest` the decimal number with the fewest digits that is nearest
to a double among those that read back as it. -/

namespace ClientLoom

/-- The number `mantissa * 2 ^ exponent`. -/
structure Double where
  mantissa : Nat
  exponent : Int
  deriving DecidableEq, Repr

namespace Double

/-- The least exponent. -/
def leastExponent : Int := -1074

/-- The greatest exponent. -/
def greatestExponent : Int := 971

/-- The number of mantissas of 52 bits. -/
def halfMantissas : Nat := 0x10000000000000

/-- Zero. -/
def zero : Double := ⟨0, leastExponent⟩

/-- The quotient that is nearest; of two that are as near the even one. -/
def nearest (num den : Nat) : Nat :=
  let q := num / den
  let r := 2 * (num % den)
  if r < den then q else if den < r then q + 1 else if q % 2 = 0 then q else q + 1

/-- A ratio divided by a power of a base. -/
def scale (base : Nat) (num den : Nat) (e : Int) : Nat × Nat :=
  if 0 ≤ e then (num, den * Nat.pow base e.natAbs) else (num * Nat.pow base e.natAbs, den)

/-- The double nearest to a ratio, unless it is too great. -/
def ofRatio? (num den : Nat) : Option Double :=
  if num = 0 then some zero
  else
    let guess : Int := (num.log2 : Int) - (den.log2 : Int) - 52
    let (n, d) := scale 2 num den guess
    let e := max leastExponent (if n / d < halfMantissas then guess - 1 else guess)
    let (n, d) := scale 2 num den e
    let m := nearest n d
    let x : Double := if m = 2 * halfMantissas then ⟨halfMantissas, e + 1⟩ else ⟨m, e⟩
    if greatestExponent < x.exponent then none else some x

/-- The number of decimal digits. -/
def digitCount (n : Nat) : Nat := (Nat.toDigits 10 n).length

/-- The double nearest to `digits * 10 ^ exponent`, unless it is too great. -/
def ofDecimal? (digits : Nat) (exponent : Int) : Option Double :=
  let size : Int := digitCount digits + exponent
  if digits = 0 || size < -400 then some zero
  else if 400 < size then none
  else
    let (num, den) := scale 10 digits 1 (-exponent)
    ofRatio? num den

/-- A double as a ratio. -/
def ratio (x : Double) : Nat × Nat := scale 2 x.mantissa 1 (-x.exponent)

/-- The integer part. -/
def floor (x : Double) : Nat :=
  let (num, den) := x.ratio
  num / den

/-- The least power of ten above a ratio. -/
def magnitude (num den : Nat) : Int :=
  let guess : Int := (digitCount num : Int) - (digitCount den : Int)
  let (n, d) := scale 10 num den guess
  if n < d then guess else guess + 1

/-- The decimal number with `n` digits that is nearest to a double among those that read back
as it.  The next power of ten has one digit only. -/
def withDigits? (x : Double) (n : Nat) : Option (Nat × Int) :=
  let (num, den) := x.ratio
  let e := magnitude num den - n
  let (num, den) := scale 10 num den e
  let c := num / den
  let near := if 2 * (num % den) ≤ den then [c, c + 1] else [c + 1, c]
  (near.find? fun c => ofDecimal? c e == some x).map fun c =>
    if c % 10 = 0 then (c / 10, e + 1) else (c, e)

/-- The digits of a double and the power of ten that they are multiplied with. -/
def shortest (x : Double) : Nat × Int :=
  if x.mantissa = 0 then (0, 0)
  else ((List.range 17).findSome? fun n => x.withDigits? (n + 1)).getD (x.floor, 0)

/-- A digit string with a point before its last `places` digits and zeros added as needed. -/
def placePoint (places : Nat) (ds : List Char) : List Char :=
  if places = 0 then ds
  else
    let ds := List.replicate (places + 1 - ds.length) '0' ++ ds
    ds.take (ds.length - places) ++ '.' :: ds.drop (ds.length - places)

/-- The shortest text without an exponent. -/
def text (x : Double) : String :=
  let (digits, e) := x.shortest
  String.ofList
    (if e < 0 then placePoint e.natAbs (Nat.toDigits 10 digits)
      else Nat.toDigits 10 (digits * Nat.pow 10 e.natAbs))

end Double
end ClientLoom
