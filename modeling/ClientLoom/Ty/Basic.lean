import ClientLoom.Path

/-! # Types

A type expression: a path with generic arguments, a reference, a tuple, a slice, or text that is
kept as it stands.  `Ty.text` writes a type. -/

namespace ClientLoom

/-- A type expression. -/
inductive Ty where
  /-- a named type with generic arguments on its last segment -/
  | path (p : Path) (args : List Ty)
  /-- a shared or mutable reference -/
  | ref (mutable : Bool) (elem : Ty)
  /-- a tuple; without elements it is the unit type -/
  | tuple (elems : List Ty)
  /-- a slice -/
  | slice (elem : Ty)
  /-- text outside the supported forms; it carries no paths -/
  | raw (text : String)
  deriving Inhabited

namespace Ty

/-- A named type of one segment. -/
def named (name : Ident) (args : List Ty := []) : Ty := .path (Path.of name) args

/-- The argument of `name<argument>`, whatever scope the name has. -/
def soleArg? (t : Ty) (name : Ident) : Option Ty :=
  match t with
  | .path p [arg] => if p.last = name then some arg else none
  | _ => none

/-- Texts between angle brackets, separated by commas; nothing for no texts. -/
def angled : List String → String
  | [] => ""
  | texts => "<" ++ ", ".intercalate texts ++ ">"

/-- Texts between round brackets, separated by commas; a single text keeps a comma. -/
def tupled : List String → String
  | [text] => "(" ++ text ++ ",)"
  | texts => "(" ++ ", ".intercalate texts ++ ")"

mutual

/-- The text of a type. -/
def text : Ty → String
  | .path p args => p.text ++ angled (texts args)
  | .ref mutable elem => (if mutable then "&mut " else "&") ++ elem.text
  | .tuple elems => tupled (texts elems)
  | .slice elem => "[" ++ elem.text ++ "]"
  | .raw s => s

/-- The texts of types, in order. -/
def texts : List Ty → List String
  | [] => []
  | t :: ts => t.text :: texts ts

end

/-- The text of a type that may be absent; an absent one is the unit type. -/
def textOrUnit : Option Ty → String
  | none => "()"
  | some t => t.text

end Ty
end ClientLoom
