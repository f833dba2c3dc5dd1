import ClientLoom.Yaml.Token

/-! # Scanning a document

A scanner cuts a text into tokens, as many as are asked for.  Indentation opens and closes block
collections, and a scalar turns out to be a key only when a colon follows it, so a key token may
be inserted in front of tokens that were read before.

`Scanner.ready?` reads until the next token is certain: two further tokens are read behind it,
and it is not noted as a possible key.  A fault behind that place does not matter. -/

namespace ClientLoom.Yaml

/-- A place where a key without an indicator may have started. -/
structure SimpleKey where
  /-- the place is still a possible key -/
  possible : Bool := false
  /-- the place can be nothing but a key -/
  required : Bool := false
  /-- the number of the token that would be the key -/
  token : Nat := 0
  line : Nat := 0
  column : Nat := 0
  index : Nat := 0

/-- The state of the scanner. -/
structure Scanner where
  cursor : Cursor
  /-- the indentation of the innermost block collection -/
  indent : Int := -1
  /-- the indentations around it, innermost first -/
  indents : List Int := []
  /-- a key without an indicator may start here -/
  keyAllowed : Bool := true
  /-- the possible key on this level of brackets -/
  key : SimpleKey := {}
  /-- the possible keys on the levels around it, innermost first -/
  outerKeys : List SimpleKey := []
  /-- the tokens that are noted as possible keys, with the numbers of their levels -/
  noted : List (Nat × Nat) := []
  /-- all tokens from the start on -/
  tokens : Array Token := #[⟨.streamStart, 0⟩]
  /-- the number of tokens that were taken -/
  taken : Nat := 0
  /-- more than the number of tokens that can be read -/
  bound : Nat

namespace Scanner

/-- The start of a text. -/
def ofText (text : String) : Scanner :=
  { cursor := .ofText text, bound := text.length + 8 }

/-- Whether the scanner is inside brackets. -/
def inFlow (s : Scanner) : Bool := !s.outerKeys.isEmpty

/-- The number of brackets around the cursor. -/
def level (s : Scanner) : Nat := s.outerKeys.length

/-- The deepest nesting of brackets, and of block collections. -/
def deepest : Nat := 10000

/-- Appends a token that starts at the cursor, and moves on. -/
def emit (s : Scanner) (kind : TokenKind) (next : Cursor) : Scanner :=
  { s with tokens := s.tokens.push ⟨kind, s.cursor.line⟩, cursor := next }

/-- Puts a token in front of the token number `number`, or at the end when that was taken. -/
def insert (s : Scanner) (number : Nat) (t : Token) : Scanner :=
  { s with
    tokens :=
      if number < s.taken then s.tokens.push t else s.tokens.insertIdxIfInBounds number t }

/-! ### Possible keys -/

/-- A key has to be on one line and its colon within this many characters. -/
def keyReach : Nat := 1024

/-- Whether a possible key is too far back. -/
def isStale (s : Scanner) (k : SimpleKey) : Bool :=
  k.line < s.cursor.line || k.index + keyReach < s.cursor.index

/-- Whether a place may still be a key; one that has to be and is too far back is a fault. -/
def isKey? (s : Scanner) (k : SimpleKey) : Option Bool :=
  if !k.possible then some false
  else if s.isStale k then (if k.required then none else some false)
  else some true

/-- Takes back the note that a token is a possible key. -/
def forget (s : Scanner) (token : Nat) : Scanner :=
  { s with noted := s.noted.filter (·.1 != token) }

/-- Gives up the possible key on this level; one that is required is a fault. -/
def dropKey? (s : Scanner) : Option Scanner :=
  if !s.key.possible then some s
  else if s.key.required then none
  else some { s.forget s.key.token with key := { s.key with possible := false } }

/-- Notes that a key may start here. -/
def saveKey? (s : Scanner) : Option Scanner :=
  if s.keyAllowed then do
    let key : SimpleKey :=
      { possible := true
        required := !s.inFlow && s.indent == s.cursor.column
        token := s.tokens.size
        line := s.cursor.line
        column := s.cursor.column
        index := s.cursor.index }
    let s ← s.dropKey?
    pure { s with key := key, noted := (key.token, s.level) :: s.noted.filter (·.1 != key.token) }
  else some s

/-- Whether the next token may still turn out to be a key. -/
def nextIsKey? (s : Scanner) : Option Bool :=
  match s.noted.lookup s.taken with
  | none => some false
  | some level =>
      if level ≤ s.level then
        match (s.key :: s.outerKeys)[s.level - level]? with
        | some k => s.isKey? k
        | none => some false
      else some false

/-! ### Block collections -/

/-- Opens a block collection at a column, when it is further in than the current one.  Its token
goes in front of the token number `token`. -/
def openBlock? (s : Scanner) (column token : Nat) (kind : TokenKind) (line : Nat) :
    Option Scanner :=
  if !s.inFlow && s.indent < column then
    if deepest ≤ s.indents.length then none
    else
      some { s.insert token ⟨kind, line⟩ with indents := s.indent :: s.indents, indent := column }
  else some s

/-- Closes the block collections that are further in than a column, given the indentations
around the innermost one. -/
def closeFrom (line : Nat) (column : Int) : Int → List Int → Array Token →
    Int × List Int × Array Token
  | indent, outer :: rest, tokens =>
      if column < indent then closeFrom line column outer rest (tokens.push ⟨.blockEnd, line⟩)
      else (indent, outer :: rest, tokens)
  | indent, [], tokens => (indent, [], tokens)

/-- Closes the block collections that are further in than a column. -/
def closeBlocks (s : Scanner) (column : Int) (line : Nat) : Scanner :=
  if s.inFlow then s
  else
    let (indent, indents, tokens) := closeFrom line column s.indent s.indents s.tokens
    { s with indent := indent, indents := indents, tokens := tokens }

/-- The position behind the blanks of a line and a comment.  A tab counts as a blank only where
no key may start.  At the start of a line a character is passed over while the loaded text starts
with a byte order mark. -/
def behindBlanks (s : Scanner) : Cursor :=
  let c := s.cursor.load 1
  let c := if c.column == 0 && c.window.marked then c.skip else c
  let c := c.skipWhile fun x => x == ' ' || (x == '\t' && (s.inFlow || !s.keyAllowed))
  if c.isAt '#' then c.skipComments else c

/-- Reads blanks, comments and line breaks up to the next token. -/
def toNextToken (s : Scanner) : Scanner :=
  if s.behindBlanks.head?.any isBreak then
    if _ : s.behindBlanks.skipBreak.rest.length < s.cursor.rest.length then
      toNextToken
        { s with
          cursor := s.behindBlanks.skipBreak
          keyAllowed := s.keyAllowed || !s.inFlow }
    else { s with cursor := s.behindBlanks }
  else { s with cursor := s.behindBlanks }
termination_by s.cursor.rest.length

/-! ### One token -/

/-- The end of the text: all block collections are closed. -/
def fetchEnd? (s : Scanner) : Option Scanner := do
  let c := s.cursor
  let c := if c.column == 0 then c else { c with column := 0, line := c.line + 1 }
  let s ← ({ s with cursor := c }.closeBlocks (-1) c.line).dropKey?
  pure ({ s with keyAllowed := false }.emit .streamEnd c)

/-- A directive or a document mark, which end all block collections. -/
def fetchTop? (s : Scanner) (kind : TokenKind) (next : Cursor) : Option Scanner := do
  let s ← (s.closeBlocks (-1) s.cursor.line).dropKey?
  pure ({ s with keyAllowed := false }.emit kind next)

/-- An opening bracket. -/
def fetchOpen? (s : Scanner) (kind : TokenKind) : Option Scanner := do
  let s ← s.saveKey?
  if deepest ≤ s.level then none
  else
    let s :=
      { s with
        key := { token := s.tokens.size }
        outerKeys := s.key :: s.outerKeys
        keyAllowed := true }
    pure (s.emit kind s.cursor.skip)

/-- A closing bracket.  The note for the token with the number of the last key inside is taken
back; when there was none inside, that is the opening bracket. -/
def fetchClose? (s : Scanner) (kind : TokenKind) : Option Scanner := do
  let s ← s.dropKey?
  let s :=
    match s.outerKeys with
    | key :: outer => { s.forget s.key.token with key := key, outerKeys := outer }
    | [] => s
  pure ({ s with keyAllowed := false }.emit kind s.cursor.skip)

/-- A comma inside brackets. -/
def fetchFlowEntry? (s : Scanner) : Option Scanner := do
  let s ← s.dropKey?
  pure ({ s with keyAllowed := true }.emit .flowEntry s.cursor.skip)

/-- The indicator of an item of a block sequence. -/
def fetchBlockEntry? (s : Scanner) : Option Scanner := do
  if !s.inFlow && !s.keyAllowed then none
  else
    let s ← s.openBlock? s.cursor.column s.tokens.size .blockSequenceStart s.cursor.line
    let s ← s.dropKey?
    pure ({ s with keyAllowed := true }.emit .blockEntry s.cursor.skip)

/-- The indicator of a key. -/
def fetchKey? (s : Scanner) : Option Scanner := do
  if !s.inFlow && !s.keyAllowed then none
  else
    let s ← s.openBlock? s.cursor.column s.tokens.size .blockMappingStart s.cursor.line
    let s ← s.dropKey?
    pure ({ s with keyAllowed := !s.inFlow }.emit .key s.cursor.skip)

/-- The indicator of a value behind the possible key on this level. -/
def fetchKeyValue? (s : Scanner) : Option Scanner := do
  let k := s.key
  let s ← (s.insert k.token ⟨.key, k.line⟩).openBlock? k.column k.token .blockMappingStart k.line
  let s := { s.forget k.token with key := { k with possible := false }, keyAllowed := false }
  pure (s.emit .value s.cursor.skip)

/-- The indicator of a value that no possible key stands before. -/
def fetchLoneValue? (s : Scanner) : Option Scanner := do
  if !s.inFlow && !s.keyAllowed then none
  else
    let s ← s.openBlock? s.cursor.column s.tokens.size .blockMappingStart s.cursor.line
    let s := { s with key := { s.key with possible := false }, keyAllowed := !s.inFlow }
    pure (s.emit .value s.cursor.skip)

/-- The indicator of a value. -/
def fetchValue? (s : Scanner) : Option Scanner := do
  if ← s.isKey? s.key then s.fetchKeyValue? else s.fetchLoneValue?

/-- A token that may start a key: it ends at the given position. -/
def fetchKeyPart? (s : Scanner) (part : Option (TokenKind × Cursor)) : Option Scanner := do
  let s ← s.saveKey?
  let (kind, next) ← part
  pure ({ s with keyAllowed := false }.emit kind next)

/-- A block scalar. -/
def fetchBlockScalar? (s : Scanner) (style : Style) : Option Scanner := do
  let s ← s.dropKey?
  let (text, next) ← readBlock? (style == .folded) s.indent s.cursor
  pure ({ s with keyAllowed := true }.emit (.scalar text style) next)

/-- A plain scalar. -/
def fetchPlain? (s : Scanner) : Option Scanner := do
  let s ← s.saveKey?
  let p ← readPlain? s.inFlow s.indent s.cursor
  pure ({ s with keyAllowed := p.broken }.emit (.scalar (String.ofList p.text) .plain) p.cursor)

/-- Characters that no plain scalar starts with. -/
def isIndicator (c : Char) : Bool := "-?:,[]\x7b\x7d#&*!|>'\"%@\x60".toList.contains c

/-- Whether a plain scalar may start with `x` in front of `rest`. -/
def startsPlain (s : Scanner) (x : Char) (rest : List Char) : Bool :=
  !(isBlank x || isBreak x || isIndicator x) || (x == '-' && !rest.head?.any isBlank) ||
    (!s.inFlow && (x == '?' || x == ':') && !atGap rest)

/-- Reads a comment behind the token just read; the indicator of an item has none. -/
def skipTrailer (s : Scanner) : Scanner :=
  if s.tokens.back?.any (·.kind == .blockEntry) then s
  else { s with cursor := s.cursor.skipLineComment }

/-- The next token that starts with `x` in front of `rest` and is no directive or document
mark. -/
def fetchToken? (s : Scanner) (x : Char) (rest : List Char) : Option Scanner :=
  let c := s.cursor
  match x with
  | '[' => s.fetchOpen? .flowSequenceStart
  | '\x7b' => s.fetchOpen? .flowMappingStart
  | ']' => s.fetchClose? .flowSequenceEnd
  | '\x7d' => s.fetchClose? .flowMappingEnd
  | ',' => s.fetchFlowEntry?
  | '*' => s.fetchKeyPart? ((readAnchor? c).map fun r => (.alias r.1, r.2))
  | '&' => s.fetchKeyPart? ((readAnchor? c).map fun r => (.anchor r.1, r.2))
  | '!' => s.fetchKeyPart? (readTag? c)
  | '\'' => s.fetchKeyPart? ((readQuoted? true c).map fun r => (.scalar r.1 .single, r.2))
  | '"' => s.fetchKeyPart? ((readQuoted? false c).map fun r => (.scalar r.1 .double, r.2))
  | x =>
    if x == '-' && atGap rest then s.fetchBlockEntry?
    else if x == '?' && (s.inFlow || atGap rest) then s.fetchKey?
    else if x == ':' && (s.inFlow || atGap rest) then s.fetchValue?
    else if x == '|' && !s.inFlow then s.fetchBlockScalar? .literal
    else if x == '>' && !s.inFlow then s.fetchBlockScalar? .folded
    else if s.startsPlain x rest then s.fetchPlain?
    else none

/-- Reads up to the end of the next token. -/
def fetch? (s : Scanner) : Option Scanner :=
  let line := s.cursor.line
  let s := s.toNextToken
  let s := s.closeBlocks s.cursor.column line
  let s := { s with cursor := s.cursor.load 4 }
  match s.cursor.rest with
  | [] => s.fetchEnd?
  | x :: rest =>
      if s.cursor.column == 0 && x == '%' then
        (readDirective? s.cursor).bind fun r => s.fetchTop? r.1 r.2
      else if s.cursor.atDocumentMark then
        s.fetchTop? (if x == '-' then .documentStart else .documentEnd) (s.cursor.skipN 3)
      else (s.fetchToken? x rest).map skipTrailer

/-- Reads the next token, unless a piece of the text that is not clean had to be loaded. -/
def fetchClean? (s : Scanner) : Option Scanner :=
  s.fetch?.bind fun s => if s.cursor.window.spoilt then none else some s

/-- Whether the next token is certain. -/
def isReady? (s : Scanner) : Option Bool :=
  if s.taken + 2 < s.tokens.size then s.nextIsKey?.map (!·) else some false

/-- Reads until the next token is certain, at most the given number of tokens. -/
def readyWithin? : Nat → Scanner → Option Scanner
  | 0, s => some s
  | fuel + 1, s => do
      if ← s.isReady? then pure s
      else
        let s ← s.fetchClean?
        readyWithin? fuel s

/-- Reads until the next token is certain. -/
def ready? (s : Scanner) : Option Scanner := readyWithin? s.bound s

/-- The next token, with the state in which it is certain. -/
def next? (s : Scanner) : Option (Token × Scanner) := do
  let s ← s.ready?
  let t ← s.tokens[s.taken]?
  pure (t, s)

/-- Takes the next token. -/
def take (s : Scanner) : Scanner := { s with taken := s.taken + 1 }

end Scanner
end ClientLoom.Yaml
