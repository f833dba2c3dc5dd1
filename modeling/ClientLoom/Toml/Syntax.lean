import ClientLoom.Toml.Value

/-! # The lines of a TOML document

A document is read into statements first: headers and entries, with the values as they are
written.  Which tables they define, and which of them contradict each other, is decided
afterwards. -/

namespace ClientLoom.Toml

/-- A value as it is written. -/
inductive Literal where
  /-- a value that is neither an array nor a table -/
  | scalar (v : Value)
  | array (items : List Literal)
  | inline (entries : List (List String × Literal))

/-- A header or an entry. -/
inductive Statement where
  /-- the header of a table -/
  | table (path : List String)
  /-- the header of an element of an array of tables -/
  | element (path : List String)
  | entry (key : List String) (value : Literal)

end ClientLoom.Toml
