import ClientLoom.Text.Blank
import ClientLoom.Text.Split

/-! # Archives

An archive is a text that holds several files.  A line `-- name --` starts the file of that
name, which goes up to the next such line; what stands before the first one is a comment. -/

namespace ClientLoom

/-- A comment and files, each with its name and its text. -/
structure Archive where
  comment : String := ""
  files : List (String × String) := []
  deriving DecidableEq, Repr

namespace Archive

/-- What stands before a name in the line that starts its file. -/
def openMark : List Char := "-- ".toList

/-- What stands behind the name. -/
def closeMark : List Char := " --".toList

/-- The name in a line that starts a file.  The two marks do not overlap and the name is not
blank. -/
def markedName? (line : List Char) : Option String := do
  let rest ← Text.dropPrefix? openMark line
  let name ← Text.dropPrefix? closeMark.reverse rest.reverse
  let name := Text.trimChars name.reverse
  if name.isEmpty then none else some (String.ofList name)

/-- The lines of a text without their line breaks. -/
def lines (cs : List Char) : List (List Char) :=
  let pieces := Text.splitChar '\n' cs
  if pieces.getLast? = some [] then pieces.dropLast else pieces

/-- Puts a line in front of what was read behind it: the text up to the next file, and the files
from there on. -/
def addLine (line : List Char) (behind : List Char × List (String × String)) :
    List Char × List (String × String) :=
  match markedName? line with
  | some name => ([], (name, String.ofList behind.1) :: behind.2)
  | none => (line ++ '\n' :: behind.1, behind.2)

/-- Reads an archive.  The last line of a file ends with a line break, also when the text does
not. -/
def parse (text : String) : Archive :=
  let (comment, files) := (lines text.toList).foldr addLine ([], [])
  ⟨String.ofList comment, files⟩

end Archive
end ClientLoom
