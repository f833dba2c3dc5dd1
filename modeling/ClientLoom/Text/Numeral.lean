import ClientLoom.Text.Hex
import ClientLoom.Width

/-! # Integers in text

`Numeral.parse` reads an integer of 64 bits.  A sign may stand in front; `0x`, `0o`, `0b` or a
plain zero tells the base; an underscore may stand between digits and behind the mark of the
base. -/

namespace ClientLoom.Text.Numeral

/-- Why a text is no integer. -/
inductive Error where
  | malformed
  | outOfRange
  deriving DecidableEq, Repr

/-- What is wrong with a text that is no integer. -/
def Error.message : Error → String
  | .malformed => "invalid syntax"
  | .outOfRange => "value out of range"

/-- The base of a numeral without its sign, and the digits behind the mark of the base. -/
def baseOf (cs : List Char) : Nat × List Char :=
  match cs with
  | '0' :: m :: d :: rest =>
      match m.toLower with
      | 'x' => (16, d :: rest)
      | 'o' => (8, d :: rest)
      | 'b' => (2, d :: rest)
      | _ => (8, m :: d :: rest)
  | '0' :: rest => (8, rest)
  | cs => (10, cs)

/-- Takes one digit into account; underscores are passed over.  Numbers of more than 64 bits are
refused as soon as they arise. -/
def addDigit (base n : Nat) (c : Char) : Except Error Nat :=
  if c = '_' then .ok n
  else
    match hexValue? c with
    | none => .error .malformed
    | some d =>
        if base ≤ d then .error .malformed
        else if Width.limit ≤ base * n + d then .error .outOfRange
        else .ok (base * n + d)

/-- Whether every underscore stands behind a digit and before one; `afterDigit` tells whether the
first place is behind a digit. -/
def underscoresFit : Bool → List Char → Bool
  | _, [] => true
  | afterDigit, '_' :: rest =>
      afterDigit && rest.head?.any (fun c => (hexValue? c).isSome) && underscoresFit false rest
  | _, _ :: rest => underscoresFit true rest

/-- The number that a text without a sign spells. -/
def magnitude (cs : List Char) : Except Error Nat := do
  let (base, digits) := baseOf cs
  if cs.isEmpty then .error .malformed
  else
    let n ← digits.foldlM (addDigit base) 0
    if underscoresFit (base != 10) digits then pure n else .error .malformed

/-- Reads an integer. -/
def parse (s : String) : Except Error Int := do
  let (negative, cs) :=
    match s.toList with
    | '-' :: cs => (true, cs)
    | '+' :: cs => (false, cs)
    | cs => (false, cs)
  let n ← magnitude cs
  if negative then (if n ≤ Width.half then pure (-(n : Int)) else .error .outOfRange)
  else if n < Width.half then pure (n : Int)
  else .error .outOfRange

end ClientLoom.Text.Numeral
