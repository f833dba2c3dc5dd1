import ClientLoom.Ty.Bracket
import ClientLoom.Text.Blank
import ClientLoom.Text.Letter
import ClientLoom.Text.Split

/-! # Tokens of type text

`Ty.Token.scan?` cuts type text into tokens.  It gives up on a character that no supported type
form contains. -/

namespace ClientLoom.Ty

/-- A token of type text. -/
inductive Token where
  /-- `::` -/
  | scope
  | comma
  /-- `&` -/
  | amp
  | bracket (s : BracketSymbol)
  /-- a name, a number or a lifetime -/
  | word (text : List Char)
  deriving DecidableEq, Repr

namespace Token

/-- Characters that go on a word. -/
def isWordChar (c : Char) : Bool :=
  c == '_' || Text.isLetter c || Text.isDecimalDigit c

/-- Characters that start a word; a lifetime starts with an apostrophe. -/
def isWordStart (c : Char) : Bool :=
  c == '\'' || isWordChar c

/-- Tokens of one character. -/
def ofChar? (c : Char) : Option Token :=
  match c with
  | ',' => some .comma
  | '&' => some .amp
  | c => (Bracket.symbol? c).map .bracket

/-- Cuts type text into tokens; blanks separate and do not count. -/
def scan? : List Char → Option (List Token)
  | [] => some []
  | ':' :: ':' :: cs => (scan? cs).map (.scope :: ·)
  | c :: cs =>
      if Text.isBlank c then scan? cs
      else
        match ofChar? c with
        | some t => (scan? cs).map (t :: ·)
        | none =>
          have : (cs.dropWhile isWordChar).length ≤ cs.length := Text.length_dropWhile_le ..
          if isWordStart c then
            (scan? (cs.dropWhile isWordChar)).map (.word (c :: cs.takeWhile isWordChar) :: ·)
          else none
termination_by cs => cs.length

/-- Words that name something: they start with a letter or an underscore. -/
def isName (w : List Char) : Bool :=
  match w with
  | [] => false
  | c :: _ => c == '_' || Text.isLetter c

/-- Words that begin a form kept as text. -/
def isReserved (w : List Char) : Bool :=
  w == ['d', 'y', 'n'] || w == ['i', 'm', 'p', 'l'] || w == ['f', 'n']

end Token
end ClientLoom.Ty
