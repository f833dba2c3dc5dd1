import ClientLoom.Yaml.Scalar

/-! # Tokens

The tokens of a document and the readers for anchors, tags and directives. -/

namespace ClientLoom.Yaml

/-- What a token is. -/
inductive TokenKind where
  | streamStart
  | streamEnd
  /-- `%YAML major.minor` -/
  | version (major minor : Nat)
  /-- `%TAG handle uri` -/
  | tagHandle (handle uri : String)
  | documentStart
  | documentEnd
  | blockSequenceStart
  | blockMappingStart
  | blockEnd
  | flowSequenceStart
  | flowSequenceEnd
  | flowMappingStart
  | flowMappingEnd
  | blockEntry
  | flowEntry
  | key
  | value
  | alias (name : String)
  | anchor (name : String)
  | tag (handle rest : String)
  | scalar (text : String) (style : Style)
  deriving DecidableEq, Repr

/-- A token and the line it starts on, counted from zero. -/
structure Token where
  kind : TokenKind
  line : Nat
  deriving Repr

/-! ### Anchors and aliases -/

/-- Characters other than gaps that may follow an anchor. -/
def mayFollowAnchor (c : Char) : Bool :=
  c == '?' || c == ':' || c == ',' || c == ']' || c == '\x7d' || c == '%' || c == '@' ||
    c == '\x60'

/-- The name of an anchor or an alias; the cursor stands on its indicator. -/
def readAnchor? (c : Cursor) : Option (String × Cursor) :=
  let (name, c) := c.skip.takeWhile isNameChar
  if name.isEmpty then none
  else if atGap c.rest || c.head?.any mayFollowAnchor then some (String.ofList name, c)
  else none

/-! ### Tags -/

/-- Characters of a tag, besides escapes. -/
def isTagChar (c : Char) : Bool :=
  isNameChar c || ";/?:@&=+$,.!~*'()[]".toList.contains c

/-- The number of bytes of the character whose first byte is `n`. -/
def byteWidth? (n : Nat) : Option Nat :=
  if n < 0x80 then some 1
  else if 0xC0 ≤ n && n < 0xE0 then some 2
  else if 0xE0 ≤ n && n < 0xF0 then some 3
  else if 0xF0 ≤ n && n < 0xF8 then some 4
  else none

/-- The byte that an escape such as `%7E` stands for. -/
def readByte? (c : Cursor) : Option (Nat × Cursor) :=
  if c.isAt '%' then (Text.hexNumber? 2 (c.rest.drop 1)).map fun n => (n, c.skipN 3) else none

/-- The given number of further bytes of a character, appended to the bits read so far. -/
def readBytes? : Nat → Nat → Cursor → Option (Nat × Cursor)
  | 0, bits, c => some (bits, c)
  | n + 1, bits, c => do
      let (b, c) ← readByte? c
      if 0x80 ≤ b && b < 0xC0 then readBytes? n (bits * 64 + b % 64) c else none

/-- The character that a group of escapes stands for. -/
def readEscapedChar? (c : Cursor) : Option (Char × Cursor) := do
  let (b, c) ← readByte? c
  let width ← byteWidth? b
  let bits := if width = 1 then b else b % Nat.pow 2 (7 - width)
  let (n, c) ← readBytes? (width - 1) bits c
  pure (Char.ofNat n, c)

/-- The characters of a tag; `acc` holds what was read, in reverse. -/
def readTagChars? (c : Cursor) (acc : List Char) : Option (List Char × Cursor) :=
  match c.head? with
  | none => some (acc.reverse, c)
  | some x =>
      let step :=
        if isTagChar x then some (x, c.skip)
        else if x == '%' then readEscapedChar? c
        else none
      match step with
      | some (y, c') =>
          if _ : c'.rest.length < c.rest.length then readTagChars? c' (y :: acc) else none
      | none => if x == '%' then none else some (acc.reverse, c)
termination_by c.rest.length

/-- The handle at the cursor, which stands on `!`: the mark, name characters, and a second mark
when there is one. -/
def readHandle (c : Cursor) : List Char × Cursor :=
  let (name, c) := c.skip.takeWhile isNameChar
  if c.isAt '!' then ('!' :: (name ++ ['!']), c.skip) else ('!' :: name, c)

/-- A tag in angle brackets; the cursor stands behind the opening one. -/
def readVerbatimTag? (c : Cursor) : Option (TokenKind × Cursor) := do
  let (uri, c) ← readTagChars? c []
  if uri.isEmpty || !c.isAt '>' then none else pure (.tag "" (String.ofList uri), c.skip)

/-- A tag with a handle or without one; the cursor stands on `!`. -/
def readShortTag? (c : Cursor) : Option (TokenKind × Cursor) := do
  let (handle, c) := readHandle c
  let (rest, c) ← readTagChars? c []
  if 1 < handle.length && handle.getLast? == some '!' then
    if rest.isEmpty then none else pure (.tag (String.ofList handle) (String.ofList rest), c)
  else
    let whole := handle.tail ++ rest
    if whole.isEmpty then pure (.tag "" "!", c) else pure (.tag "!" (String.ofList whole), c)

/-- A tag; a gap has to follow. -/
def readTag? (c : Cursor) : Option (TokenKind × Cursor) := do
  let (kind, c) ←
    match c.rest with
    | _ :: '<' :: _ => readVerbatimTag? ((c.load 2).skipN 2)
    | _ => readShortTag? (c.load 2)
  if atGap c.rest then pure (kind, c) else none

/-! ### Directives -/

/-- A number of one or two digits. -/
def readVersionNumber? (c : Cursor) : Option (Nat × Cursor) :=
  let (digits, c) := c.takeWhile Char.isDigit
  if digits.isEmpty || 2 < digits.length then none
  else some (digits.foldl (fun n d => n * 10 + (d.toNat - '0'.toNat)) 0, c)

/-- The value of a version directive. -/
def readVersion? (c : Cursor) : Option (TokenKind × Cursor) := do
  let (major, c) ← readVersionNumber? (c.skipWhile isBlank)
  if c.isAt '.' then
    let (minor, c) ← readVersionNumber? c.skip
    pure (.version major minor, c)
  else none

/-- The value of a tag directive. -/
def readTagHandle? (c : Cursor) : Option (TokenKind × Cursor) := do
  let c := c.skipWhile isBlank
  if !c.isAt '!' then none
  else
    let (handle, c) := readHandle c
    if handle.getLast? != some '!' || !c.head?.any isBlank then none
    else
      let (uri, c) ← readTagChars? (c.skipWhile isBlank) []
      if uri.isEmpty || !atGap c.rest then none
      else pure (.tagHandle (String.ofList handle) (String.ofList uri), c)

/-- A directive up to the end of its line; the cursor stands on `%`. -/
def readDirective? (c : Cursor) : Option (TokenKind × Cursor) := do
  let (name, c) := c.skip.takeWhile isNameChar
  if !atGap c.rest then none
  else
    let (kind, c) ←
      if name == "YAML".toList then readVersion? c
      else if name == "TAG".toList then readTagHandle? c
      else none
    let c := c.skipWhile isBlank
    let c := if c.isAt '#' then c.skipWhile (!isBreak ·) else c
    if atLineEnd c.rest then pure (kind, c.skipBreak) else none

end ClientLoom.Yaml
