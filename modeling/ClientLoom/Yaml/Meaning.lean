import ClientLoom.Double
import ClientLoom.Text.Base64
import ClientLoom.Yaml.Node
import ClientLoom.Width
import ClientLoom.Text.Split

/-! # Meaning of scalars

A plain scalar is null, a truth value, a number, a point in time or text, by its spelling; a
quoted one is text.  A tag for one of these has to agree with the spelling, except that anything
may be taken as text. -/

namespace ClientLoom.Yaml

/-- What the spelling of a scalar stands for. -/
inductive Meaning where
  | null
  | bool (b : Bool)
  /-- a whole number; `wide` when it takes 64 bits without a sign -/
  | integer (wide : Bool)
  | decimal
  | time
  | text
  deriving DecidableEq, Repr

namespace Meaning

/-- The tag of a meaning. -/
def tag : Meaning → String
  | .null => "!!null"
  | .bool _ => "!!bool"
  | .integer _ => "!!int"
  | .decimal => "!!float"
  | .time => "!!timestamp"
  | .text => "!!str"

/-- Words with a fixed meaning. -/
def ofWord? (s : String) : Option Meaning :=
  if ["", "~", "null", "Null", "NULL"].contains s then some .null
  else if ["true", "True", "TRUE"].contains s then some (.bool true)
  else if ["false", "False", "FALSE"].contains s then some (.bool false)
  else if [".nan", ".NaN", ".NAN", ".inf", ".Inf", ".INF", "+.inf", "+.Inf", "+.INF", "-.inf",
      "-.Inf", "-.INF"].contains s then some .decimal
  else none

/-! ### Numbers -/

/-- A number without its sign. -/
def unsigned : List Char → List Char
  | '+' :: cs => cs
  | '-' :: cs => cs
  | cs => cs

/-- The value of digits in a base; `none` without digits or with a character that is none. -/
def digits? (base : Nat) (cs : List Char) : Option Nat :=
  if cs.isEmpty then none
  else
    cs.foldlM
      (fun acc c =>
        (Text.hexValue? c).bind fun d => if d < base then some (acc * base + d) else none)
      0

/-- The size of an integer in one of the spellings: decimal, or with a prefix for its base. -/
def magnitude? : List Char → Option Nat
  | '0' :: 'x' :: cs => digits? 16 cs
  | '0' :: 'X' :: cs => digits? 16 cs
  | '0' :: 'o' :: cs => digits? 8 cs
  | '0' :: 'O' :: cs => digits? 8 cs
  | '0' :: 'b' :: cs => digits? 2 cs
  | '0' :: 'B' :: cs => digits? 2 cs
  | '0' :: c :: cs => digits? 8 (c :: cs)
  | cs => digits? 10 cs

/-- Whether a spelling without underscores is an integer of 64 bits, and whether it is a wide
one. -/
def integer? (cs : List Char) : Option Bool :=
  match magnitude? (unsigned cs) with
  | none => none
  | some n =>
      match cs with
      | '-' :: _ => if n ≤ Width.half then some false else none
      | '+' :: _ => if n < Width.half then some false else none
      | _ => if n < Width.limit then some (decide (Width.half ≤ n)) else none

/-- Whether a spelling has its sign behind the mark of base two or eight. -/
def signInside (cs : List Char) : Bool :=
  let fits (base : Nat) : List Char → Bool
    | '-' :: ds => (digits? base ds).any (· ≤ Width.half)
    | '+' :: ds => (digits? base ds).any (· < Width.half)
    | _ => false
  match cs with
  | '0' :: 'b' :: rest => fits 2 rest
  | '0' :: 'o' :: rest => fits 8 rest
  | _ => false

/-- The exponent at the end of a spelling; nothing stands for zero. -/
def exponent? : List Char → Option Int
  | [] => some 0
  | c :: cs =>
      if c == 'e' || c == 'E' then
        (digits? 10 (unsigned cs)).map fun n => if cs.head? = some '-' then -(n : Int) else n
      else none

/-- The double that a decimal fraction without underscores is nearest to. -/
def double? (cs : List Char) : Option Double := do
  let cs := unsigned cs
  let whole := cs.takeWhile Char.isDigit
  let (part, rest) :=
    match cs.dropWhile Char.isDigit with
    | '.' :: rest => (rest.takeWhile Char.isDigit, rest.dropWhile Char.isDigit)
    | rest => ([], rest)
  let n ← digits? 10 (whole ++ part)
  let e ← exponent? rest
  Double.ofDecimal? n (e - part.length)

/-- Whether a spelling without underscores is a decimal fraction that is not too great. -/
def isDecimal (cs : List Char) : Bool := (double? cs).isSome

/-- Whether every underscore stands between digits; `behind` tells whether the first place is
behind a digit. -/
def underscoresFit : Bool → List Char → Bool
  | _, [] => true
  | behind, '_' :: rest => behind && rest.head?.any Char.isDigit && underscoresFit false rest
  | _, c :: rest => underscoresFit c.isDigit rest

/-! ### Points in time -/

/-- One or two digits at the front, and the rest. -/
def shortNumber? (cs : List Char) : Option (Nat × List Char) :=
  let ds := (cs.takeWhile Char.isDigit).take 2
  (digits? 10 ds).map fun n => (n, cs.drop ds.length)

/-- The rest behind a given character. -/
def behind? (c : Char) : List Char → Option (List Char)
  | x :: cs => if x = c then some cs else none
  | [] => none

/-- The number of days of a month. -/
def daysIn (year month : Nat) : Nat :=
  if month = 2 then (if year % 4 = 0 && (year % 100 ≠ 0 || year % 400 = 0) then 29 else 28)
  else if month = 4 || month = 6 || month = 9 || month = 11 then 30
  else 31

/-- A date with a year of four digits, and the rest. -/
def dateRest? (cs : List Char) : Option (List Char) := do
  let year ← digits? 10 (cs.take 4)
  if (cs.take 4).length < 4 || !(cs.take 4).all Char.isDigit then none
  else
    let cs ← behind? '-' (cs.drop 4)
    let (month, cs) ← shortNumber? cs
    let cs ← behind? '-' cs
    let (day, cs) ← shortNumber? cs
    if 1 ≤ month && month ≤ 12 && 1 ≤ day && day ≤ daysIn year month then pure cs else none

/-- A time of day with an optional fraction of a second, and the rest. -/
def clockRest? (cs : List Char) : Option (List Char) := do
  let (hour, cs) ← shortNumber? cs
  let cs ← behind? ':' cs
  let (minute, cs) ← shortNumber? cs
  let cs ← behind? ':' cs
  let (second, cs) ← shortNumber? cs
  if hour < 24 && minute < 60 && second < 60 then
    match cs with
    | c :: rest =>
        if (c == '.' || c == ',') && rest.head?.any Char.isDigit then
          pure (rest.dropWhile Char.isDigit)
        else pure cs
    | [] => pure []
  else none

/-- Whether a text is a distance to universal time. -/
def isZone (cs : List Char) : Bool :=
  match cs with
  | ['Z'] => true
  | [sign, a, b, ':', c, d] =>
      (sign == '+' || sign == '-') && (digits? 10 [a, b]).any (· ≤ 24) &&
        (digits? 10 [c, d]).any (· ≤ 60)
  | _ => false

/-- Whether a text is a date or a date with a time of day. -/
def isTime (cs : List Char) : Bool :=
  match dateRest? cs with
  | none => false
  | some [] => true
  | some (' ' :: rest) => (clockRest? (rest.dropWhile (· == ' '))).any List.isEmpty
  | some (c :: rest) => (c == 'T' || c == 't') && (clockRest? rest).any isZone

/-- The meaning of a spelling; points in time are recognised only on demand. -/
def ofText (times : Bool) (s : String) : Meaning :=
  match ofWord? s with
  | some m => m
  | none =>
    match s.toList with
    | [] => .null
    | c :: cs =>
      let plain := (c :: cs).filter (· != '_')
      if c == '.' then
        (if underscoresFit false (c :: cs) && isDecimal plain then .decimal else .text)
      else if c.isDigit || c == '+' || c == '-' then
        if times && isTime (c :: cs) then .time
        else
          match integer? plain with
          | some wide => .integer wide
          | none =>
            if isDecimal plain then .decimal
            else if signInside plain then .integer false
            else .text
      else .text

end Meaning

namespace Node

/-- The mark of a mapping whose entries are to be added. -/
def mergeMark : String := "<<"

/-- The tags that a spelling has to agree with. -/
def checkedTags : List String :=
  [Meaning.null, .bool true, .integer false, .decimal, .time].map Meaning.tag

/-- The meaning of a scalar: of a plain one its spelling decides, a quoted one is text.  Under a
tag for one of the other meanings the spelling has to agree with the tag; under any further tag
the scalar is text. -/
def meaning? (tag : String) (style : Style) (text : String) : Option Meaning :=
  if tag = "" then some (if style = .plain then Meaning.ofText true text else .text)
  else if checkedTags.contains tag then
    let m := Meaning.ofText (tag = Meaning.time.tag) text
    if m.tag = tag || (tag = Meaning.decimal.tag && m = .integer false) then some m else none
  else some .text

/-- The tag of scalars whose text is written in base 64. -/
def binaryTag : String := "!!binary"

/-- What a scalar says: its own text, or the one it is the base 64 of. -/
def content? (tag text : String) : Option String :=
  if tag = binaryTag then Text.Base64.decode? text else some text

/-- Whether a key asks for the entries of another mapping. -/
def isMerge : Node → Bool
  | .scalar _ tag style text =>
      text == mergeMark && ((tag == "" && style == .plain) || tag == "!!merge")
  | _ => false

/-- The tag of a node: the one that is written, or else the one that its form stands for. -/
def formTag : Node → String
  | .scalar line tag style text =>
      if tag ≠ "" then tag
      else if isMerge (.scalar line tag style text) then "!!merge"
      else if style = .plain then (Meaning.ofText true text).tag
      else Meaning.text.tag
  | .sequence _ tag _ => if tag = "" then "!!seq" else tag
  | .mapping _ tag _ => if tag = "" then "!!map" else tag
  | .alias _ _ _ => ""

/-- Whether the tag of a node says that it stands for nothing. -/
def isNull (n : Node) : Bool := n.formTag == Meaning.null.tag

end Node
end ClientLoom.Yaml
