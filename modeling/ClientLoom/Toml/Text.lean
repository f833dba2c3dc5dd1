import ClientLoom.Text.Hex
import ClientLoom.Text.Quoted
import ClientLoom.Text.Split

/-! # TOML strings

Reading and writing of strings.  `quoted` writes a string on one line between double quotes;
`basic?` reads one. -/

namespace ClientLoom.Toml

/-- Points in which readers of TOML differ. -/
structure Dialect where
  /-- a byte order mark may stand at the start -/
  byteOrderMark : Bool
  /-- `\x` is an escape -/
  byteEscapes : Bool
  /-- inline tables may go over several lines and end with a comma -/
  openInline : Bool
  /-- a time of day may be without seconds -/
  shortTimes : Bool
  /-- a minute may have 61 seconds -/
  leapSeconds : Bool
  /-- a table that only lies on the way to another may be defined again -/
  redefinition : Bool
  deriving DecidableEq, Repr

/-- The rules of version 1.0. -/
def Dialect.strict : Dialect := ⟨false, false, false, false, true, false⟩

/-- The rules of version 1.1, with weak checks of what is defined twice. -/
def Dialect.lenient : Dialect := ⟨true, true, true, true, false, true⟩

/-! ### Writing -/

/-- A character in a quoted string. -/
def quotedChar (c : Char) : List Char :=
  let n := c.toNat
  if c == '"' || c == '\\' then ['\\', c]
  else if n == 8 then ['\\', 'b']
  else if n == 9 then ['\\', 't']
  else if n == 10 then ['\\', 'n']
  else if n == 12 then ['\\', 'f']
  else if n == 13 then ['\\', 'r']
  else if n < 0x20 || n == 0x7F then '\\' :: 'u' :: Text.hexDigits 4 n
  else [c]

/-- A string between double quotes. -/
def quoted (s : String) : List Char := '"' :: (s.toList.flatMap quotedChar ++ ['"'])

/-! ### Reading -/

/-- Whether a character may stand in a string on one line or in a comment. -/
def isLineChar (c : Char) : Bool :=
  c == '\t' || (0x20 ≤ c.toNat && c.toNat != 0x7F && !Text.isRawByte c)

/-- The character that a short escape stands for. -/
def escape? (c : Char) : Option Char :=
  match c with
  | 'b' => some (Char.ofNat 8)
  | 't' => some '\t'
  | 'n' => some '\n'
  | 'f' => some (Char.ofNat 12)
  | 'r' => some '\r'
  | '"' => some '"'
  | '\\' => some '\\'
  | 'e' => some (Char.ofNat 27)
  | _ => none

/-- The number of hexadecimal digits that follow an escape. -/
def escapeDigits? (d : Dialect) (c : Char) : Option Nat :=
  match c with
  | 'u' => some 4
  | 'U' => some 8
  | 'x' => if d.byteEscapes then some 2 else none
  | _ => none

/-- The character of an escape and the rest, behind the backslash. -/
def readEscape? (d : Dialect) : List Char → Option (Char × List Char)
  | [] => none
  | c :: rest =>
      match escape? c with
      | some x => some (x, rest)
      | none => do
          let n ← escapeDigits? d c
          let x ← (Text.hexNumber? n rest).bind Text.charOf?
          pure (x, rest.drop n)

theorem readEscape?_length {d : Dialect} {cs rest : List Char} {x : Char}
    (h : readEscape? d cs = some (x, rest)) : rest.length < cs.length := by
  cases cs with
  | nil => simp [readEscape?] at h
  | cons c cs =>
    simp only [readEscape?] at h
    split at h
    · simp only [Option.some.injEq, Prod.mk.injEq] at h
      simp [← h.2]
    · simp only [Option.bind_eq_bind, Option.bind_eq_some_iff, Option.pure_def,
        Option.some.injEq, Prod.mk.injEq] at h
      obtain ⟨n, _, _, _, _, rfl⟩ := h
      simp only [List.length_drop, List.length_cons]
      omega

/-- The rest of a string between double quotes, behind the opening one. -/
def basic? (d : Dialect) (cs : List Char) : Option (List Char × List Char) :=
  match cs with
  | [] => none
  | '"' :: rest => some ([], rest)
  | '\\' :: rest =>
      match h : readEscape? d rest with
      | none => none
      | some (x, rest') =>
          have := readEscape?_length h
          (basic? d rest').map fun r => (x :: r.1, r.2)
  | c :: rest => if isLineChar c then (basic? d rest).map fun r => (c :: r.1, r.2) else none
termination_by cs.length

/-- The rest of a string between single quotes, behind the opening one. -/
def verbatim? : List Char → Option (List Char × List Char)
  | [] => none
  | '\'' :: rest => some ([], rest)
  | c :: rest => if isLineChar c then (verbatim? rest).map fun r => (c :: r.1, r.2) else none

/-- Whether a line break or the end of the text stands here. -/
def atLineEnd : List Char → Bool
  | [] => true
  | '\n' :: _ => true
  | '\r' :: '\n' :: _ => true
  | _ => false

/-- The text behind a line break that stands at its start. -/
def dropBreak : List Char → List Char
  | '\n' :: rest => rest
  | '\r' :: '\n' :: rest => rest
  | cs => cs

/-- Blanks and tabs. -/
def isGap (c : Char) : Bool := c == ' ' || c == '\t'

/-- Blanks, tabs and line breaks. -/
def isSpace (c : Char) : Bool := isGap c || c == '\n' || c == '\r'

/-- The rest of a string between three double quotes. -/
def multiBasic? (d : Dialect) (cs : List Char) : Option (List Char × List Char) :=
  match cs with
  | [] => none
  | '"' :: rest =>
      let quotes := (rest.takeWhile (· == '"')).length
      have : (rest.dropWhile (· == '"')).length ≤ rest.length := Text.length_dropWhile_le ..
      let behind := rest.dropWhile (· == '"')
      if quotes < 2 then
        (multiBasic? d behind).map fun r => (List.replicate (quotes + 1) '"' ++ r.1, r.2)
      else if quotes < 5 then some (List.replicate (quotes - 2) '"', behind)
      else none
  | '\\' :: rest =>
      match h : readEscape? d rest with
      | some (x, rest') =>
          have := readEscape?_length h
          (multiBasic? d rest').map fun r => (x :: r.1, r.2)
      | none =>
          have : (rest.dropWhile isSpace).length ≤ rest.length := Text.length_dropWhile_le ..
          if atLineEnd (rest.dropWhile isGap) && !rest.isEmpty then
            multiBasic? d (rest.dropWhile isSpace)
          else none
  | c :: rest =>
      if isLineChar c || c == '\n' || (c == '\r' && rest.head? == some '\n') then
        (multiBasic? d rest).map fun r => (c :: r.1, r.2)
      else none
termination_by cs.length

/-- The rest of a string between three single quotes. -/
def multiLiteral? (cs : List Char) : Option (List Char × List Char) :=
  match cs with
  | [] => none
  | '\'' :: rest =>
      let quotes := (rest.takeWhile (· == '\'')).length
      have : (rest.dropWhile (· == '\'')).length ≤ rest.length := Text.length_dropWhile_le ..
      let behind := rest.dropWhile (· == '\'')
      if quotes < 2 then
        (multiLiteral? behind).map fun r => (List.replicate (quotes + 1) '\'' ++ r.1, r.2)
      else if quotes < 5 then some (List.replicate (quotes - 2) '\'', behind)
      else none
  | c :: rest =>
      if isLineChar c || c == '\n' || (c == '\r' && rest.head? == some '\n') then
        (multiLiteral? rest).map fun r => (c :: r.1, r.2)
      else none
termination_by cs.length

/-- A string in any of its four forms, and the rest. -/
def string? (d : Dialect) : List Char → Option (String × List Char)
  | '"' :: '"' :: '"' :: rest =>
      (multiBasic? d (dropBreak rest)).map fun r => (String.ofList r.1, r.2)
  | '"' :: rest => (basic? d rest).map fun r => (String.ofList r.1, r.2)
  | '\'' :: '\'' :: '\'' :: rest =>
      (multiLiteral? (dropBreak rest)).map fun r => (String.ofList r.1, r.2)
  | '\'' :: rest => (verbatim? rest).map fun r => (String.ofList r.1, r.2)
  | _ => none

end ClientLoom.Toml
