import ClientLoom.Text.Hex
import ClientLoom.Toml.Text
import ClientLoom.Toml.Value
import ClientLoom.Width

/-! # TOML values without quotes

Numbers, truth values and points in time.  `Scalar.ofToken?` gives the value of a token that
holds all characters up to the next gap, comma, bracket or comment. -/

namespace ClientLoom.Toml.Scalar

/-- Whether a character ends a value without quotes. -/
def endsToken (c : Char) : Bool :=
  isSpace c || c == ',' || c == ']' || c == '\x7d' || c == '#'

/-- The digits of a group of digits with single underscores between them. -/
def ungroup? : List Char → Option (List Char)
  | [] => none
  | [c] => if c == '_' then none else some [c]
  | c :: '_' :: d :: rest =>
      if c == '_' || d == '_' then none else (ungroup? (d :: rest)).map (c :: ·)
  | c :: d :: rest =>
      if c == '_' || d == '_' then none else (ungroup? (d :: rest)).map (c :: ·)

/-- The number that digits spell in a base. -/
def inBase? (base : Nat) (cs : List Char) : Option Nat := do
  let ds ← ungroup? cs
  ds.foldlM
    (fun acc c => (Text.hexValue? c).bind fun d => if d < base then some (acc * base + d) else none)
    0

/-- The number that decimal digits without a zero in front spell. -/
def whole? (cs : List Char) : Option Nat :=
  match cs with
  | '0' :: _ :: _ => none
  | cs => inBase? 10 cs

/-- The sign at the front, and the rest. -/
def sign : List Char → Bool × List Char
  | '-' :: cs => (true, cs)
  | '+' :: cs => (false, cs)
  | cs => (false, cs)

/-- An integer, when it fits into 64 bits. -/
def fitting? (n : Int) : Option Value :=
  if Width.fits n then some (.integer n) else none

/-- An integer. -/
def integer? (cs : List Char) : Option Value :=
  match cs with
  | '0' :: 'x' :: ds => (inBase? 16 ds).bind fun n => fitting? n
  | '0' :: 'o' :: ds => (inBase? 8 ds).bind fun n => fitting? n
  | '0' :: 'b' :: ds => (inBase? 2 ds).bind fun n => fitting? n
  | cs =>
    let (negative, ds) := sign cs
    (whole? ds).bind fun n => fitting? (if negative then -(n : Int) else n)

/-- The exponent of a decimal number; nothing stands for zero. -/
def exponent? : List Char → Option Int
  | [] => some 0
  | c :: cs =>
      if c == 'e' || c == 'E' then
        let (negative, ds) := sign cs
        (inBase? 10 ds).map fun n => if negative then -(n : Int) else n
      else none

/-- A decimal number: an integer part and a fraction or an exponent or both. -/
def decimal? (cs : List Char) : Option Value := do
  let (negative, cs) := sign cs
  if cs == "inf".toList then pure (.decimal (.infinite negative))
  else if cs == "nan".toList then pure (.decimal .undefined)
  else
    let isMark (c : Char) : Bool := c == '.' || c == 'e' || c == 'E'
    let whole ← whole? (cs.takeWhile (!isMark ·))
    match cs.dropWhile (!isMark ·) with
    | [] => none
    | '.' :: rest =>
        let part ← ungroup? (rest.takeWhile (!isMark ·))
        let n ← inBase? 10 part
        let e ← exponent? (rest.dropWhile (!isMark ·))
        let x ← Double.ofDecimal? (whole * Nat.pow 10 part.length + n) (e - part.length)
        pure (.decimal (.finite negative x))
    | rest =>
        let e ← exponent? rest
        let x ← Double.ofDecimal? whole e
        pure (.decimal (.finite negative x))

/-! ### Points in time -/

/-- The number that exactly `n` decimal digits at the front spell, and the rest. -/
def digits? (n : Nat) (cs : List Char) : Option (Nat × List Char) :=
  let ds := cs.take n
  if ds.length = n && ds.all Char.isDigit then
    some (ds.foldl (fun acc c => acc * 10 + (c.toNat - '0'.toNat)) 0, cs.drop n)
  else none

/-- The rest behind a given character. -/
def behind? (c : Char) : List Char → Option (List Char)
  | x :: cs => if x = c then some cs else none
  | [] => none

/-- The number of days of a month. -/
def daysIn (year month : Nat) : Nat :=
  if month = 2 then (if year % 4 = 0 && (year % 100 ≠ 0 || year % 400 = 0) then 29 else 28)
  else if [4, 6, 9, 11].contains month then 30
  else 31

/-- The rest behind a date. -/
def date? (cs : List Char) : Option (List Char) := do
  let (year, cs) ← digits? 4 cs
  let (month, cs) ← (behind? '-' cs).bind (digits? 2)
  let (day, cs) ← (behind? '-' cs).bind (digits? 2)
  if 1 ≤ month && month ≤ 12 && 1 ≤ day && day ≤ daysIn year month then pure cs else none

/-- The rest behind the seconds of a time of day and their fraction. -/
def seconds? (d : Dialect) (cs : List Char) : Option (List Char) := do
  let (second, cs) ← digits? 2 cs
  if (if d.leapSeconds then 60 else 59) < second then none
  else
    match cs with
    | '.' :: rest =>
        if rest.head?.any Char.isDigit then pure (rest.dropWhile Char.isDigit) else none
    | cs => pure cs

/-- The rest behind a time of day. -/
def clock? (d : Dialect) (cs : List Char) : Option (List Char) := do
  let (hour, cs) ← digits? 2 cs
  let (minute, cs) ← (behind? ':' cs).bind (digits? 2)
  if 23 < hour || 59 < minute then none
  else
    match cs with
    | ':' :: rest => seconds? d rest
    | cs => if d.shortTimes then pure cs else none

/-- Whether a text is a distance to universal time, or nothing. -/
def isZone (cs : List Char) : Bool :=
  match cs with
  | [] => true
  | ['Z'] => true
  | ['z'] => true
  | [s, a, b, ':', c, e] =>
      (s == '+' || s == '-') &&
        match digits? 2 [a, b], digits? 2 [c, e] with
        | some (h, _), some (m, _) => h ≤ 23 && m ≤ 59
        | _, _ => false
  | _ => false

/-- Whether a text is a date, a time of day or both. -/
def isTime (d : Dialect) (cs : List Char) : Bool :=
  match date? cs with
  | some [] => true
  | some (c :: rest) =>
      (c == 'T' || c == 't' || c == ' ') && (clock? d rest).any isZone
  | none => clock? d cs == some []

/-- The value of a token without quotes. -/
def ofToken? (d : Dialect) (cs : List Char) : Option Value :=
  if cs == "true".toList then some (.truth true)
  else if cs == "false".toList then some (.truth false)
  else if isTime d cs then some .time
  else
    match integer? cs with
    | some v => some v
    | none => decimal? cs

/-- A value without quotes at the front, and the rest.  A blank may stand between a date and a
time of day. -/
def read? (d : Dialect) (cs : List Char) : Option (Value × List Char) :=
  let token := cs.takeWhile (!endsToken ·)
  let rest := cs.dropWhile (!endsToken ·)
  match date? token, rest with
  | some [], ' ' :: c :: more =>
      if c.isDigit then
        let clock := (c :: more).takeWhile (!endsToken ·)
        (ofToken? d (token ++ ' ' :: clock)).map fun v =>
          (v, (c :: more).dropWhile (!endsToken ·))
      else (ofToken? d token).map fun v => (v, rest)
  | _, _ => (ofToken? d token).map fun v => (v, rest)

end ClientLoom.Toml.Scalar
