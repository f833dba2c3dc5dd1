import ClientLoom.Path
import ClientLoom.Text.Split

/-! # Attributes

An attribute such as `#[serde(rename = "Id")]`: a path, the text after it and whether it applies
to what encloses it.  `Attr.parse` reads bare and bracketed forms; `Attr.text` writes the
bracketed form. -/

namespace ClientLoom

/-- An attribute. -/
structure Attr where
  path : Path
  /-- everything after the path, as it stands -/
  args : String
  /-- applies to the enclosing item -/
  inner : Bool
  deriving DecidableEq, Repr

namespace Attr

/-- Why a text is not an attribute: its path is not one. -/
structure Error where
  text : String
  path : Path.Error
  deriving DecidableEq, Repr

/-- The complaint about a text that is not an attribute. -/
def Error.message (e : Error) : String :=
  "attribute " ++ Text.quote e.text ++ ": " ++ e.path.message

/-- What stands between `lead` and a final `]`. -/
def between? (lead : List Char) (cs : List Char) : Option (List Char) :=
  match Text.dropPrefix? lead cs with
  | some rest => if cs.getLast? = some ']' then some rest.dropLast else none
  | none => none

/-- Characters that end the path of an attribute. -/
def endsPath (c : Char) : Bool := c == '(' || c == ' ' || c == '=' || c == '['

/-- Reads the part between the brackets. -/
def parseBody (inner : Bool) (cs : List Char) : Except Error Attr :=
  match Path.parse (String.ofList (cs.takeWhile (!endsPath ·))) with
  | .ok p => .ok ⟨p, String.ofList (cs.dropWhile (!endsPath ·)), inner⟩
  | .error e => .error ⟨String.ofList cs, e⟩

/-- Reads `#![..]`, `#[..]` or the bare text of an attribute. -/
def parse (s : String) : Except Error Attr :=
  let cs := Text.trimChars s.toList
  match between? ['#', '!', '['] cs with
  | some body => parseBody true body
  | none =>
    match between? ['#', '['] cs with
    | some body => parseBody false body
    | none => parseBody false cs

/-- The bracketed form of an attribute. -/
def text (a : Attr) : String :=
  (if a.inner then "#![" else "#[") ++ a.path.text ++ a.args ++ "]"

/-- The last segment of the path. -/
def name (a : Attr) : Ident := a.path.last

end Attr
end ClientLoom
