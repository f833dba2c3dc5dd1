import ClientLoom.Toml.Scalar
import ClientLoom.Toml.Syntax

/-! # Reading TOML

`statements?` reads the text of a document into statements. -/

namespace ClientLoom.Toml

/-! ### Keys -/

/-- Characters of a key without quotes. -/
def isBareKeyChar (c : Char) : Bool := c.isAlphanum || c == '_' || c == '-'

/-- One part of a key, and the rest. -/
def keyPart? (d : Dialect) (cs : List Char) : Option (String × List Char) :=
  match cs with
  | '"' :: rest => (basic? d rest).map fun r => (String.ofList r.1, r.2)
  | '\'' :: rest => (verbatim? rest).map fun r => (String.ofList r.1, r.2)
  | cs =>
      let name := cs.takeWhile isBareKeyChar
      if name.isEmpty then none else some (String.ofList name, cs.dropWhile isBareKeyChar)

/-- A key with dots between its parts, and the rest behind the blanks that follow it.  The first
argument bounds the number of parts. -/
def key? (d : Dialect) : Nat → List Char → Option (List String × List Char)
  | 0, _ => none
  | fuel + 1, cs => do
      let (name, cs) ← keyPart? d cs
      match cs.dropWhile isGap with
      | '.' :: rest =>
          let (names, cs) ← key? d fuel (rest.dropWhile isGap)
          pure (name :: names, cs)
      | rest => pure ([name], rest)

/-! ### Values -/

/-- The rest behind a comment, at the end of its line. -/
def dropComment? (cs : List Char) : Option (List Char) :=
  let rest := cs.dropWhile isLineChar
  if atLineEnd rest then some rest else none

/-- The rest behind blanks, comments and line breaks. -/
def dropFiller? : Nat → List Char → Option (List Char)
  | 0, cs => some cs
  | fuel + 1, cs =>
    match cs.dropWhile isGap with
    | '#' :: rest => (dropComment? rest).bind (dropFiller? fuel)
    | '\n' :: rest => dropFiller? fuel rest
    | '\r' :: '\n' :: rest => dropFiller? fuel rest
    | rest => some rest

/-- The rest behind what may separate the parts of an inline table. -/
def dropInlineFiller? (d : Dialect) (cs : List Char) : Option (List Char) :=
  if d.openInline then dropFiller? cs.length cs else some (cs.dropWhile isGap)

mutual

/-- A value, and the rest.  The first argument bounds the nesting of calls. -/
def literal? (d : Dialect) : Nat → List Char → Option (Literal × List Char)
  | 0, _ => none
  | fuel + 1, cs =>
    match cs with
    | '"' :: _ => (string? d cs).map fun r => (.scalar (.text r.1), r.2)
    | '\'' :: _ => (string? d cs).map fun r => (.scalar (.text r.1), r.2)
    | '[' :: rest => (items? d fuel rest).map fun r => (.array r.1, r.2)
    | '\x7b' :: rest => do
        let rest ← dropInlineFiller? d rest
        let (entries, rest) ← inline? d fuel true rest
        pure (.inline entries, rest)
    | cs => (Scalar.read? d cs).map fun r => (.scalar r.1, r.2)

/-- The rest of an array, behind its opening bracket or a comma. -/
def items? (d : Dialect) : Nat → List Char → Option (List Literal × List Char)
  | 0, _ => none
  | fuel + 1, cs => do
    match ← dropFiller? cs.length cs with
    | ']' :: rest => pure ([], rest)
    | cs =>
        let (x, rest) ← literal? d fuel cs
        match ← dropFiller? rest.length rest with
        | ',' :: rest =>
            let (xs, rest) ← items? d fuel rest
            pure (x :: xs, rest)
        | ']' :: rest => pure ([x], rest)
        | _ => none

/-- The rest of an inline table, behind its opening bracket or a comma; `first` tells which. -/
def inline? (d : Dialect) :
    Nat → Bool → List Char → Option (List (List String × Literal) × List Char)
  | 0, _, _ => none
  | fuel + 1, first, cs => do
    match cs with
    | '\x7d' :: rest => if first || d.openInline then pure ([], rest) else none
    | cs =>
        let (key, rest) ← key? d cs.length cs
        match rest with
        | '=' :: rest =>
            let (x, rest) ← literal? d fuel (rest.dropWhile isGap)
            match ← dropInlineFiller? d rest with
            | ',' :: rest =>
                let rest ← dropInlineFiller? d rest
                let (entries, rest) ← inline? d fuel false rest
                pure ((key, x) :: entries, rest)
            | '\x7d' :: rest => pure ([(key, x)], rest)
            | _ => none
        | _ => none

end

/-! ### Documents -/

/-- The rest behind the end of a line, after blanks and a comment. -/
def endLine? (cs : List Char) : Option (List Char) :=
  match cs.dropWhile isGap with
  | '#' :: rest => (dropComment? rest).map dropBreak
  | rest => if atLineEnd rest then some (dropBreak rest) else none

/-- Reads a header, an entry or nothing, up to the end of its line or a comment. -/
def statement? (d : Dialect) (cs : List Char) : Option (List Statement × List Char) := do
  match cs.dropWhile isGap with
  | '[' :: '[' :: rest =>
      let (path, rest) ← key? d cs.length (rest.dropWhile isGap)
      match rest with
      | ']' :: ']' :: rest => pure ([.element path], rest)
      | _ => none
  | '[' :: rest =>
      let (path, rest) ← key? d cs.length (rest.dropWhile isGap)
      match rest with
      | ']' :: rest => pure ([.table path], rest)
      | _ => none
  | rest =>
      if atLineEnd rest || rest.head? == some '#' then pure ([], rest)
      else
        let (key, rest) ← key? d rest.length rest
        match rest with
        | '=' :: rest =>
            let (x, rest) ← literal? d (rest.length + 1) (rest.dropWhile isGap)
            pure ([.entry key x], rest)
        | _ => none

/-- Reads lines up to the end of the text. -/
def lines? (d : Dialect) (cs : List Char) : Option (List Statement) :=
  if cs.isEmpty then some []
  else
    match statement? d cs with
    | none => none
    | some (ss, rest) =>
        match endLine? rest with
        | none => none
        | some rest' =>
            if _ : rest'.length < cs.length then (lines? d rest').map (ss ++ ·) else none
termination_by cs.length

/-- The statements of a text. -/
def statements? (d : Dialect) (text : String) : Option (List Statement) :=
  let cs := text.toList
  lines? d (if d.byteOrderMark && cs.head? = some '\uFEFF' then cs.tail else cs)

end ClientLoom.Toml
