import ClientLoom.Text.Hex
import ClientLoom.Yaml.Cursor

/-! # Scalars

The written forms of scalars: plain text, text in single or double quotes, and blocks of lines.
Each reader gives the text and the position behind it, or `none` when the form is broken. -/

namespace ClientLoom.Yaml

/-- How a scalar is written. -/
inductive Style where
  | plain
  | single
  | double
  | literal
  | folded
  deriving DecidableEq, Repr

/-- What a gap between words turned out to be. -/
structure Gap where
  /-- blanks before the first line break -/
  blanks : List Char := []
  /-- the first line break -/
  first : List Char := []
  /-- the further line breaks -/
  more : List Char := []
  /-- a line break was read, or one that is escaped -/
  broken : Bool := false

namespace Gap

/-- The text a gap stands for: a single line break is a blank, and the first of several is
dropped. -/
def text (g : Gap) : List Char :=
  if g.broken then
    if g.first.head? = some '\n' then (if g.more.isEmpty then [' '] else g.more)
    else g.first ++ g.more
  else g.blanks

/-- Reads one blank or line break into a gap. -/
def step (g : Gap) (c : Cursor) (x : Char) : Gap × Cursor :=
  if isBlank x then
    if g.broken then (g, c.skip) else ({ g with blanks := g.blanks ++ [x] }, c.skip)
  else
    let (b, c) := c.readBreak
    if g.broken then ({ g with more := g.more ++ b }, c)
    else ({ g with blanks := [], first := b, broken := true }, c)

/-- Reads blanks and line breaks into a gap. -/
def read (g : Gap) (c : Cursor) : Gap × Cursor :=
  match c.head? with
  | none => (g, c)
  | some x =>
      if isBlank x || isBreak x then
        let r := g.step c x
        if _ : r.2.rest.length < c.rest.length then r.1.read r.2 else (g, c)
      else (g, c)
termination_by c.rest.length

/-- Reads blanks and line breaks into a gap; a tab before column `indent` of a new line is
refused. -/
def readIndented? (indent : Int) (g : Gap) (c : Cursor) : Option (Gap × Cursor) :=
  match c.head? with
  | none => some (g, c)
  | some x =>
      if isBlank x || isBreak x then
        if x == '\t' && g.broken && c.column < indent then none
        else
          let r := g.step c x
          if _ : r.2.rest.length < c.rest.length then r.1.readIndented? indent r.2
          else some (g, c)
      else some (g, c)
termination_by c.rest.length

end Gap

/-! ### Quoted scalars -/

/-- The character that a short escape stands for. -/
def escape? : Char → Option Char
  | '0' => some (Char.ofNat 0)
  | 'a' => some (Char.ofNat 7)
  | 'b' => some (Char.ofNat 8)
  | 't' => some '\t'
  | '\t' => some '\t'
  | 'n' => some '\n'
  | 'v' => some (Char.ofNat 11)
  | 'f' => some (Char.ofNat 12)
  | 'r' => some '\r'
  | 'e' => some (Char.ofNat 27)
  | ' ' => some ' '
  | '"' => some '"'
  | '\'' => some '\''
  | '\\' => some '\\'
  | 'N' => some (Char.ofNat 0x85)
  | '_' => some (Char.ofNat 0xA0)
  | 'L' => some (Char.ofNat 0x2028)
  | 'P' => some (Char.ofNat 0x2029)
  | _ => none

/-- The number of hexadecimal digits that follow an escape. -/
def escapeDigits? : Char → Option Nat
  | 'x' => some 2
  | 'u' => some 4
  | 'U' => some 8
  | _ => none

/-- The character of the escape at the cursor, which stands on a backslash. -/
def readEscape? (c : Cursor) : Option (Char × Cursor) :=
  match c.rest with
  | _ :: x :: rest =>
      match escape? x, escapeDigits? x with
      | some y, _ => some (y, c.skip.step 2)
      | none, some n => do
          let y ← (Text.hexNumber? n rest).bind Text.charOf?
          pure (y, ((c.skipN 2).load n).skipN n |>.load 2)
      | none, none => none
  | _ => none

/-- A run of characters inside quotes up to a gap, the closing quote or an escaped line break;
the last component tells whether it ended with an escaped line break.  `acc` holds what was read,
in reverse. -/
def readQuotedRun? (single : Bool) (c : Cursor) (acc : List Char) :
    Option (List Char × Cursor × Bool) :=
  let more (acc : List Char) (c' : Cursor) : Option (List Char × Cursor × Bool) :=
    if _ : c'.rest.length < c.rest.length then readQuotedRun? single c' acc else none
  match c.rest with
  | [] => some (acc, c, false)
  | x :: rest =>
      if isBlank x || isBreak x then some (acc, c, false)
      else if single then
        if x == '\'' then
          if rest.head? = some '\'' then more ('\'' :: acc) (c.skip.step 2)
          else some (acc, c, false)
        else more (x :: acc) (c.step 2)
      else if x == '"' then some (acc, c, false)
      else if x == '\\' then
        match rest with
        | y :: _ =>
            if isBreak y then some (acc, (c.load 3).skip.skipBreak.load 2, true)
            else do
              let (z, c') ← readEscape? c
              more (z :: acc) c'
        | [] => none
      else more (x :: acc) (c.step 2)
termination_by c.rest.length

/-- The rest of a quoted scalar; the cursor stands behind the opening quote. -/
def readQuotedFrom? (single : Bool) (c : Cursor) (acc : List Char) :
    Option (List Char × Cursor) :=
  if c.atDocumentMark || c.rest.isEmpty then none
  else
    match readQuotedRun? single (c.load 4) acc with
    | none => none
    | some (acc, c', escaped) =>
        if c'.isAt (if single then '\'' else '"') then some (acc.reverse, c'.skip)
        else
          let (gap, c'') := Gap.read { broken := escaped } c'
          if _ : c''.rest.length < c.rest.length then
            readQuotedFrom? single c'' (gap.text.reverse ++ acc)
          else none
termination_by c.rest.length

/-- A quoted scalar; the cursor stands on the opening quote. -/
def readQuoted? (single : Bool) (c : Cursor) : Option (String × Cursor) :=
  (readQuotedFrom? single c.skip []).map fun r => (String.ofList r.1, r.2)

/-! ### Plain scalars -/

/-- Characters that end a plain scalar inside brackets. -/
def isFlowEnd (c : Char) : Bool :=
  c == ',' || c == '?' || c == '[' || c == ']' || c == '\x7b' || c == '\x7d'

/-- Whether a plain scalar goes on here. -/
def plainGoesOn (inFlow : Bool) : List Char → Bool
  | [] => false
  | x :: rest =>
      !isBlank x && !isBreak x && !(x == ':' && atGap rest) && !(inFlow && isFlowEnd x)

/-- A run of characters of a plain scalar. -/
def plainRun (inFlow : Bool) : List Char → List Char
  | [] => []
  | x :: rest => if plainGoesOn inFlow (x :: rest) then x :: plainRun inFlow rest else []

/-- What a plain scalar gives: its text, the position behind it and the blanks after it, and
whether a line break is among these. -/
structure Plain where
  text : List Char
  cursor : Cursor
  broken : Bool

/-- The rest of a plain scalar after `acc`, which is in reverse, and a gap. -/
def readPlainFrom? (inFlow : Bool) (indent : Int) (c : Cursor) (acc : List Char) (gap : Gap) :
    Option Plain :=
  let stop (acc : List Char) (c : Cursor) (gap : Gap) : Option Plain :=
    some ⟨acc.reverse, c, gap.broken⟩
  if c.atDocumentMark || c.isAt '#' then stop acc (c.load 4) gap
  else
    let run := plainRun inFlow c.rest
    let acc' := if run.isEmpty then acc else run.reverse ++ (gap.text.reverse ++ acc)
    let gap' := if run.isEmpty then gap else {}
    let c' := (c.load 4).steps 2 run.length
    if !atGap c'.rest || c'.rest.isEmpty then stop acc' c' gap'
    else
      match gap'.readIndented? (indent + 1) c' with
      | none => none
      | some (gap'', c'') =>
          if !inFlow && c''.column < indent + 1 then stop acc' c'' gap''
          else if _ : c''.rest.length < c.rest.length then
            readPlainFrom? inFlow indent c'' acc' gap''
          else stop acc' c'' gap''
termination_by c.rest.length

/-- A plain scalar at the cursor, in a collection that is indented by `indent`. -/
def readPlain? (inFlow : Bool) (indent : Int) (c : Cursor) : Option Plain :=
  readPlainFrom? inFlow indent c [] {}

/-! ### Block scalars -/

/-- What happens to the line breaks at the end of a block scalar. -/
inductive Chomp where
  | strip
  | clip
  | keep
  deriving DecidableEq, Repr

/-- The chomping mark at the cursor. -/
def readChomp? (c : Cursor) : Option (Chomp × Cursor) :=
  if c.isAt '+' then some (.keep, c.skip)
  else if c.isAt '-' then some (.strip, c.skip)
  else none

/-- The indentation mark at the cursor; a zero is refused. -/
def readIncrement? (c : Cursor) : Option (Nat × Cursor) :=
  match c.head? with
  | some x =>
      if x == '0' then none
      else if x.isDigit then some (x.toNat - '0'.toNat, c.skip)
      else some (0, c)
  | none => some (0, c)

/-- The marks behind the indicator of a block scalar, in either order. -/
def readHeader? (c : Cursor) : Option (Chomp × Nat × Cursor) :=
  match readChomp? c with
  | some (chomp, c) => do
      let (increment, c) ← readIncrement? c
      pure (chomp, increment, c)
  | none => do
      let (increment, c) ← readIncrement? c
      if increment = 0 then pure (.clip, 0, c)
      else
        match readChomp? c with
        | some (chomp, c) => pure (chomp, increment, c)
        | none => pure (.clip, increment, c)

/-- Reads indentation and empty lines.  `indent` is zero while it is not known; `widest` is the
widest indentation seen.  Gives the line breaks, in order. -/
def readEmptyLines? (indent : Nat) (c : Cursor) (breaks : List Char) (widest : Nat) :
    Option (List Char × Nat × Cursor) :=
  let room := if indent = 0 then c.rest.length else indent - c.column
  let c' := c.skipN ((c.rest.takeWhile (· == ' ')).length.min room)
  let widest' := max widest c'.column
  if (indent = 0 || c'.column < indent) && c'.isAt '\t' then none
  else
    match c'.head? with
    | some x =>
        if isBreak x then
          let (b, c'') := c'.readBreak
          if _ : c''.rest.length < c.rest.length then
            readEmptyLines? indent c'' (breaks ++ b) widest'
          else none
        else some (breaks, widest', c')
    | none => some (breaks, widest', c')
termination_by c.rest.length

/-- What was read of a block scalar: the text in reverse, the line break behind it, the breaks of
the empty lines after that, and whether its last line starts with a blank. -/
structure Lines where
  text : List Char := []
  last : List Char := []
  empty : List Char
  blank : Bool := false

/-- The lines of a block scalar as long as they are indented by `indent`. -/
def readLines? (folded : Bool) (indent : Nat) (l : Lines) (c : Cursor) :
    Option (Lines × Cursor) :=
  if c.column != indent || c.rest.isEmpty then some (l, c)
  else
    let blank := c.head?.any isBlank
    let joint :=
      if folded && !l.blank && !blank && l.last.head? == some '\n' then
        (if l.empty.isEmpty then [' '] else [])
      else l.last
    let (line, c') := c.takeWhile (!isBreak ·)
    let (last, c') := c'.readBreak
    match readEmptyLines? indent c' [] 0 with
    | none => none
    | some (empty, _, c'') =>
        let l' : Lines :=
          ⟨line.reverse ++ (l.empty.reverse ++ (joint.reverse ++ l.text)), last, empty, blank⟩
        if _ : c''.rest.length < c.rest.length then readLines? folded indent l' c''
        else some (l', c'')
termination_by c.rest.length

/-- A block scalar; the cursor stands on its indicator, in a collection that is indented by
`indent`. -/
def readBlock? (folded : Bool) (indent : Int) (c : Cursor) : Option (String × Cursor) := do
  let (chomp, increment, c) ← readHeader? c.skip
  let c := c.skipWhile isBlank
  let c := if c.isAt '#' then c.skipWhile (!isBreak ·) else c
  if !atLineEnd c.rest then none
  else
    let fixed := if increment = 0 then 0 else (max indent 0).toNat + increment
    let (empty, widest, c) ← readEmptyLines? fixed c.skipBreak [] 0
    let depth := if fixed = 0 then max (max widest (indent + 1).toNat) 1 else fixed
    let (l, c) ← readLines? folded depth { empty := empty } c
    let tail :=
      match chomp with
      | .strip => []
      | .clip => l.last
      | .keep => l.last ++ l.empty
    pure (String.ofList (l.text.reverse ++ tail), c)

end ClientLoom.Yaml
