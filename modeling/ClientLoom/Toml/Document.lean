import ClientLoom.Toml.Syntax

/-! # Tables of a TOML document

A document defines tables bit by bit.  Meanwhile every table remembers how it came to be, which
decides how it may be extended: a table that a header named is complete once, one that only lies
on the way to another may still be named, and one that a dotted key made belongs to the section
of that key.  `Document.table?` is the table that statements define by these rules. -/

namespace ClientLoom.Toml

/-- How a table came to be. -/
inductive Origin where
  /-- it lies on the way to a table that a header named -/
  | implied
  /-- a header named it -/
  | header
  /-- a dotted key made it, in the section with the given number -/
  | dotted (part : Nat)
  deriving DecidableEq, Repr

/-- A part of a document; tables carry a mark. -/
inductive Item (α : Type) where
  /-- a value that is complete -/
  | value (v : Value)
  | table (mark : α) (entries : List (String × Item α))
  /-- an array of tables, the last one first -/
  | tables (last : List (String × Item α)) (before : List (List (String × Item α)))

/-- The parts of a table by their names. -/
abbrev Items (α : Type) := List (String × Item α)

namespace Items

variable {α : Type}

/-- Changes the part called `name`, or appends it when it is missing. -/
def update (name : String) (f : Option (Item α) → Option (Item α)) (es : Items α) :
    Option (Items α) :=
  match es.lookup name with
  | none => (f none).map fun x => es ++ [(name, x)]
  | some old => (f (some old)).map fun x => es.map fun e => if e.1 == name then (name, x) else e

mutual

/-- The value of a part. -/
def toValue : Item α → Value
  | .value v => v
  | .table _ entries => .table (toTable entries)
  | .tables last before => .list (toTables before [.table (toTable last)])

/-- The values of the parts of a table. -/
def toTable : List (String × Item α) → Table
  | [] => []
  | (name, x) :: rest => (name, toValue x) :: toTable rest

/-- The values of tables, in front of `done`; the tables are given last one first. -/
def toTables : List (List (String × Item α)) → List Value → List Value
  | [], done => done
  | t :: rest, done => toTables rest (.table (toTable t) :: done)

end

/-! ### Definitions -/

/-- Defines a value by a dotted key, in the section with the given number. -/
def define (part : Nat) : List String → Value → Items Origin → Option (Items Origin)
  | [], _, _ => none
  | [name], v, es => update name (fun old => if old.isSome then none else some (.value v)) es
  | name :: rest, v, es =>
      update name
        (fun
          | none => (define part rest v []).map (.table (.dotted part))
          | some (.table origin sub) =>
              if origin = .implied || origin = .dotted part then
                (define part rest v sub).map (.table origin)
              else none
          | some _ => none)
        es

/-- Defines a value by a dotted key in the table that a header names. -/
def defineIn (part : Nat) : List String → List String → Value → Items Origin → Option (Items Origin)
  | [], key, v, es => define part key v es
  | name :: path, key, v, es =>
      update name
        (fun
          | some (.table origin sub) => (defineIn part path key v sub).map (.table origin)
          | some (.tables last before) =>
              (defineIn part path key v last).map fun x => .tables x before
          | _ => none)
        es

/-- Goes down a path to the table around its last name and changes the part called so. -/
def atPath (f : Option (Item Origin) → Option (Item Origin)) :
    List String → Items Origin → Option (Items Origin)
  | [], _ => none
  | [name], es => update name f es
  | name :: path, es =>
      update name
        (fun
          | none => (atPath f path []).map (.table .implied)
          | some (.table origin sub) => (atPath f path sub).map (.table origin)
          | some (.tables last before) => (atPath f path last).map fun x => .tables x before
          | some (.value _) => none)
        es

/-- Defines a table by its header. -/
def openTable (path : List String) (es : Items Origin) :
    Option (Items Origin) :=
  atPath
    (fun
      | none => some (.table .header [])
      | some (.table .implied sub) => some (.table .header sub)
      | some _ => none)
    path es

/-- Adds a table to an array of tables by its header. -/
def openElement (path : List String) (es : Items Origin) :
    Option (Items Origin) :=
  atPath
    (fun
      | none => some (.tables [] [])
      | some (.tables last before) => some (.tables [] (last :: before))
      | some _ => none)
    path es

mutual

/-- The value of a literal; the entries of an inline table form a section of their own. -/
def ofLiteral? : Literal → Option Value
  | .scalar v => some v
  | .array items => (ofLiterals? items).map .list
  | .inline entries => (ofEntries? entries []).map fun es => .table (toTable es)

/-- The values of literals. -/
def ofLiterals? : List Literal → Option (List Value)
  | [] => some []
  | x :: xs => do
      let v ← ofLiteral? x
      let vs ← ofLiterals? xs
      pure (v :: vs)

/-- The parts of an inline table whose first entries are `es`. -/
def ofEntries? : List (List String × Literal) → Items Origin → Option (Items Origin)
  | [], es => some es
  | (key, x) :: rest, es => do
      let v ← ofLiteral? x
      let es ← define 0 key v es
      ofEntries? rest es

end

end Items

/-- What statements have defined so far: the parts, the header of the current section and its
number. -/
structure Document where
  items : Items Origin := []
  path : List String := []
  part : Nat := 0

namespace Document

/-- Takes a statement into account. -/
def add? (d : Document) : Statement → Option Document
  | .table path => (d.items.openTable path).map fun items => ⟨items, path, d.part + 1⟩
  | .element path => (d.items.openElement path).map fun items => ⟨items, path, d.part + 1⟩
  | .entry key x => do
      let v ← Items.ofLiteral? x
      let items ← Items.defineIn d.part d.path key v d.items
      pure { d with items := items }

/-- The table that statements define. -/
def table? (ss : List Statement) : Option Table :=
  (ss.foldlM add? {}).map fun d => Items.toTable d.items

end Document
end ClientLoom.Toml
