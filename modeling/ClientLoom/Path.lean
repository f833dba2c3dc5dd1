import ClientLoom.Text.Blank
import ClientLoom.Text.Quoted

/-! # Paths

A path is a scoped reference such as `a::b::c`.  `Path.parse` reads one and `Path.text` writes
one; `Path.strip?` removes a leading path, comparing segment by segment. -/

namespace ClientLoom

/-- A name; names are equal when their texts are. -/
abbrev Ident := String

/-- A scoped reference.  Paths that are read have at least one segment. -/
structure Path where
  segments : List Ident
  deriving DecidableEq, Repr, Inhabited

namespace Path

/-- Why a text is not a path. -/
inductive Error where
  /-- nothing but blanks -/
  | empty
  /-- two separators with nothing but blanks between them, or one at an end -/
  | emptySegment (text : String)
  deriving DecidableEq, Repr

/-- The complaint about a text that is not a path. -/
def Error.message : Error → String
  | .empty => "empty path"
  | .emptySegment text => "path " ++ Text.quote text ++ " has an empty segment"

/-- Splits at every `::`, from left to right; there is always one piece. -/
def splitScope : List Char → List (List Char)
  | [] => [[]]
  | ':' :: ':' :: cs => [] :: splitScope cs
  | c :: cs =>
      match splitScope cs with
      | [] => [[c]]
      | piece :: rest => (c :: piece) :: rest

/-- The path of the given name and more. -/
def of (first : Ident) (rest : List Ident := []) : Path := ⟨first :: rest⟩

/-- Reads a path; blanks around the text and around segments do not count. -/
def parse (s : String) : Except Error Path :=
  let cs := Text.trimChars s.toList
  let pieces := (splitScope cs).map Text.trimChars
  if cs.isEmpty then .error .empty
  else if pieces.any List.isEmpty then .error (.emptySegment (String.ofList cs))
  else .ok ⟨pieces.map String.ofList⟩

/-- The segments joined with `::`. -/
def text (p : Path) : String := "::".intercalate p.segments

/-- The number of segments. -/
def length (p : Path) : Nat := p.segments.length

/-- The last segment; the path without segments has the empty name. -/
def last (p : Path) : Ident := p.segments.getLastD ""

/-- Whether the path is the one segment `name`. -/
def isIdent (p : Path) (name : Ident) : Bool := p.segments == [name]

/-- Whether `lead` is a non-empty leading part of `p`, segment by segment. -/
def startsWith (p lead : Path) : Bool :=
  !lead.segments.isEmpty && lead.segments.isPrefixOf p.segments

/-- What follows `lead` in `p`, when `p` starts with `lead` and goes on. -/
def strip? (p lead : Path) : Option Path :=
  if p.startsWith lead && lead.length != p.length then some ⟨p.segments.drop lead.length⟩ else none

/-- The path followed by more segments. -/
def join (p : Path) (more : List Ident) : Path := ⟨p.segments ++ more⟩

end Path
end ClientLoom
