import ClientLoom.Yaml.Window

/-! # Reading position

The characters of a document that are still to be read, with the line and the column of the
first of them, and how far the text is loaded. -/

namespace ClientLoom.Yaml

/-- Blanks and tabs. -/
def isBlank (c : Char) : Bool := c == ' ' || c == '\t'

/-- Characters that end a line. -/
def isBreak (c : Char) : Bool :=
  c == '\n' || c == '\r' || c.toNat == 0x85 || c.toNat == 0x2028 || c.toNat == 0x2029

/-- Letters, digits, underscores and hyphens. -/
def isNameChar (c : Char) : Bool := c.isAlphanum || c == '_' || c == '-'

/-- Whether a word ends here: a blank, a line break or the end of the document follows. -/
def atGap : List Char → Bool
  | [] => true
  | c :: _ => isBlank c || isBreak c

/-- Whether a line break or the end of the document follows. -/
def atLineEnd : List Char → Bool
  | [] => true
  | c :: _ => isBreak c

/-- A position in a document. -/
structure Cursor where
  /-- what is still to be read -/
  rest : List Char
  line : Nat := 0
  column : Nat := 0
  /-- characters read so far -/
  index : Nat := 0
  /-- only blanks were read since the last line break -/
  fresh : Bool := false
  window : Window := {}

namespace Cursor

/-- The start of a text; a byte order mark in front does not count. -/
def ofText (text : String) : Cursor :=
  match text.toList with
  | [] => { rest := [], window := .ofText 0 [] }
  | c :: cs =>
      if c = byteOrderMark then { rest := cs, window := .ofText c.utf8Size cs }
      else { rest := c :: cs, window := .ofText 0 (c :: cs) }

/-- The next character. -/
def head? (c : Cursor) : Option Char := c.rest.head?

/-- Whether the next character is `x`. -/
def isAt (c : Cursor) (x : Char) : Bool := c.rest.head? == some x

/-- Asks for the next `n` characters. -/
def load (n : Nat) (c : Cursor) : Cursor :=
  { c with window := c.window.loadTo (c.index + n) (c.isAt byteOrderMark) }

/-- Reads one character within a line, and asks for `ahead` characters behind it. -/
def step (ahead : Nat) (c : Cursor) : Cursor :=
  match c.rest with
  | [] => c
  | x :: rest =>
      { c with
        rest := rest
        column := c.column + 1
        index := c.index + 1
        fresh := c.fresh && isBlank x }.load ahead

/-- Reads one character within a line. -/
def skip (c : Cursor) : Cursor := c.step 1

/-- Reads `n` characters within a line, and asks for `ahead` characters behind each. -/
def steps (ahead : Nat) (c : Cursor) : Nat → Cursor
  | 0 => c
  | n + 1 => (c.step ahead).steps ahead n

/-- Reads `n` characters within a line. -/
def skipN (c : Cursor) (n : Nat) : Cursor := c.steps 1 n

/-- The start of the next line, behind a line break of `n` characters. -/
def nextLine (c : Cursor) (n : Nat) : Cursor :=
  { c with
    rest := c.rest.drop n
    line := c.line + 1
    column := 0
    index := c.index + n
    fresh := true }.load 1

/-- Reads a line break and gives the text it stands for; elsewhere nothing is read. -/
def readBreak (c : Cursor) : List Char × Cursor :=
  let c := c.load 2
  match c.rest with
  | '\r' :: '\n' :: _ => (['\n'], c.nextLine 2)
  | x :: _ =>
      if isBreak x then
        ([if x.toNat == 0x2028 || x.toNat == 0x2029 then x else '\n'], c.nextLine 1)
      else ([], c)
  | [] => ([], c)

/-- Reads a line break. -/
def skipBreak (c : Cursor) : Cursor := c.readBreak.2

/-- Reads characters within a line as long as they satisfy `p`. -/
def skipWhile (p : Char → Bool) (c : Cursor) : Cursor := c.skipN (c.rest.takeWhile p).length

/-- The characters up to the first that does not satisfy `p`, and the position there. -/
def takeWhile (p : Char → Bool) (c : Cursor) : List Char × Cursor :=
  (c.rest.takeWhile p, c.skipWhile p)

/-- Reads blanks and line breaks. -/
def skipGaps (c : Cursor) : Cursor :=
  match c.head? with
  | none => c
  | some x =>
      let c' := if isBlank x then c.skip else c.skipBreak
      if _ : c'.rest.length < c.rest.length then c'.skipGaps else c
termination_by c.rest.length

/-- Whether `---` or `...` stands alone at the start of a line. -/
def atDocumentMark (c : Cursor) : Bool :=
  c.column == 0 &&
    match c.rest with
    | '-' :: '-' :: '-' :: rest => atGap rest
    | '.' :: '.' :: '.' :: rest => atGap rest
    | _ => false

/-! ### Comments -/

/-- The farthest that a comment may be from the one before it. -/
def commentReach : Nat := 512

/-- The number of blanks and line breaks at the front, up to `limit`. -/
def gapLength : Nat → List Char → Nat
  | 0, _ => 0
  | _, [] => 0
  | limit + 1, x :: rest =>
      if isBlank x || x == '\n' || x == '\r' then gapLength limit rest + 1 else 0

/-- Whether a comment follows behind a gap of the given length. -/
def commentBehind (gap : Nat) (cs : List Char) : Bool :=
  gap < commentReach && (cs.drop gap).head? == some '#'

/-- Reads a comment and all comments that follow it on lines of their own, up to the end of the
last line. -/
def skipComments (c : Cursor) : Cursor :=
  let e := c.skipWhile (!isBreak ·)
  let gap := gapLength commentReach e.rest
  let e := e.load (max gap 1 + 1)
  if commentBehind gap e.rest then
    let next := e.skipGaps
    if _ : next.rest.length < c.rest.length then next.skipComments else e
  else e
termination_by c.rest.length

/-- Reads a comment on the current line, when nothing but blanks stands before it. -/
def skipLineComment (c : Cursor) : Cursor :=
  if c.fresh then c
  else
    let blanks := (c.rest.takeWhile isBlank).length
    let c := c.load (min (blanks + 1) commentReach)
    let e := c.skipWhile isBlank
    if blanks < commentReach && e.isAt '#' then e.skipWhile (!isBreak ·) else c

end Cursor
end ClientLoom.Yaml
