import ClientLoom.Toml.Document

/-! # Weak checks of what is defined twice

By these rules a document is a draft that is written over as long as it is not certain.  The path
of a table that only lies on the way to another is unsettled, and what is at an unsettled path
may be defined once more.  Then it is settled, and what was there stays, unless the last
definition at that path was an array.  Paths do not tell apart the elements of an array of
tables.  `Draft.table?` is the table that statements define by these rules. -/

namespace ClientLoom.Toml

namespace Items

/-- The table at a path; an array of tables stands for its last element. -/
def under? : List String → Items Unit → Option (Items Unit)
  | [], es => some es
  | name :: path, es =>
    match es.lookup name with
    | some (.table _ sub) => under? path sub
    | some (.tables last _) => under? path last
    | _ => none

/-- Puts a part into the table at a path, over what is there. -/
def put (name : String) (x : Item Unit) : List String → Items Unit → Option (Items Unit)
  | [], es => update name (fun _ => some x) es
  | next :: path, es =>
      update next
        (fun
          | some (.table _ sub) => (put name x path sub).map (.table ())
          | some (.tables last before) => (put name x path last).map fun t => .tables t before
          | _ => none)
        es

end Items

/-- Puts a value into a table by a dotted key, over what is there. -/
def Table.graft? : List String → Value → Table → Option Table
  | [], _, _ => none
  | [name], v, es =>
      if es.any (·.1 == name) then some (es.map fun e => if e.1 == name then (name, v) else e)
      else some (es ++ [(name, v)])
  | name :: rest, v, es =>
      match es.lookup name with
      | none => (graft? rest v []).map fun sub => es ++ [(name, .table sub)]
      | some (.table sub) =>
          (graft? rest v sub).map fun sub =>
            es.map fun e => if e.1 == name then (name, .table sub) else e
      | some _ => none

/-- What statements have defined so far. -/
structure Draft where
  items : Items Unit := []
  /-- paths that may be defined once more -/
  unsettled : List (List String) := []
  /-- paths at which an array was defined last -/
  arrays : List (List String) := []
  /-- the header of the current section -/
  header : List String := []

namespace Draft

/-- Marks a path as unsettled. -/
def loosen (path : List String) (d : Draft) : Draft :=
  { d with unsettled := path :: d.unsettled }

/-- Marks a path as settled. -/
def settle (path : List String) (d : Draft) : Draft :=
  { d with unsettled := d.unsettled.filter (· ≠ path) }

/-- Remembers whether an array was defined at a path. -/
def noteArray (isArray : Bool) (path : List String) (d : Draft) : Draft :=
  let others := d.arrays.filter (· ≠ path)
  { d with arrays := if isArray then path :: others else others }

/-- The path whose array is noted for a key: an empty key stands for the table around it. -/
def notedPath (context : List String) (name : String) : List String :=
  if name ≠ "" then context ++ [name] else if context.isEmpty then [""] else context

/-- Puts a part into the table at a path, over what is there. -/
def put (context : List String) (name : String) (x : Item Unit) (d : Draft) : Option Draft :=
  (d.items.put name x context).map fun items => { d with items := items }

/-- Defines a part of the table at a path. -/
def define (context : List String) (name : String) (x : Item Unit) (d : Draft) : Option Draft := do
  let es ← d.items.under? context
  let path := context ++ [name]
  if !es.any (·.1 == name) then d.put context name x
  else if !d.unsettled.contains path then none
  else if d.arrays.contains path then (d.settle path).put context name x
  else pure (d.settle path)

/-- Makes the tables on the way from the table at `context` that are missing. -/
def openWay (context : List String) : List String → Draft → Option Draft
  | [], d => some d
  | name :: rest, d => do
      let es ← d.items.under? context
      let path := context ++ [name]
      let d ←
        if es.any (·.1 == name) then pure d
        else (d.loosen path).put context name (.table () [])
      openWay path rest d

/-- Opens the table at a path. -/
def openTable (path : List String) (d : Draft) : Option Draft := do
  let d ← openWay [] path.dropLast d
  d.define path.dropLast (path.getLastD "") (.table () [])

/-- Opens a new element of the array of tables at a path. -/
def openElement (path : List String) (d : Draft) : Option Draft := do
  let context := path.dropLast
  let d ← openWay [] context d
  let name := path.getLastD ""
  let es ← d.items.under? context
  match es.lookup name with
  | none => d.put context name (.tables [] [])
  | some (.tables last before) => d.put context name (.tables [] (last :: before))
  | some _ => none

/-- Opens the tables on the way of a dotted key from the table at `context`; all of them are
unsettled. -/
def openKey (context : List String) : List String → Draft → Option Draft
  | [], d => some d
  | name :: rest, d => do
      let path := context ++ [name]
      let d ← (d.loosen path).openTable path
      openKey path rest d

/-- Whether a literal is an array. -/
def isArray : Literal → Bool
  | .array _ => true
  | _ => false

mutual

/-- Reads the literal for the key `name` of the table at `context`.  The entries of an inline
table are defined in place as well; `inArray` tells whether the literal is an item of an array. -/
def read (context : List String) (name : String) (inArray : Bool) :
    Literal → Draft → Option (Value × Draft)
  | .scalar v, d => some (v, d)
  | .array items, d =>
      (readItems context name items (d.noteArray true (notedPath context name))).map fun r =>
        (.list r.1, r.2)
  | .inline entries, d => do
      let path := context ++ [name]
      let d := d.loosen path
      let d ← if inArray then d.openElement path else d.openTable path
      let (table, d) ← readEntries path entries [] d
      pure (.table table, d)

/-- Reads the items of an array. -/
def readItems (context : List String) (name : String) :
    List Literal → Draft → Option (List Value × Draft)
  | [], d => some ([], d)
  | x :: xs, d => do
      let (v, d) ← read context name true x d
      let (vs, d) ← readItems context name xs d
      pure (v :: vs, d)

/-- Reads the entries of the inline table at a path, behind those in `table`. -/
def readEntries (path : List String) :
    List (List String × Literal) → Table → Draft → Option (Table × Draft)
  | [], table, d => some (table, d)
  | (key, x) :: rest, table, d => do
      let d ← openKey path key.dropLast d
      let context := path ++ key.dropLast
      let name := key.getLastD ""
      let (v, d) ← read context name false x d
      let d ← d.define context name (.value v)
      let table ← Table.graft? key v table
      readEntries path rest table (d.noteArray (isArray x) (notedPath context name))

end

/-- Takes a statement into account. -/
def add? (d : Draft) : Statement → Option Draft
  | .table path => (d.openTable path).map fun d => { d.noteArray false path with header := path }
  | .element path =>
      (d.openElement path).map fun d => { d.noteArray false path with header := path }
  | .entry key x => do
      let d ← openKey d.header key.dropLast d
      let context := d.header ++ key.dropLast
      let name := key.getLastD ""
      let (v, d) ← read context name false x d
      let d ← d.define context name (.value v)
      pure (d.noteArray (isArray x) (notedPath context name))

/-- The table that statements define. -/
def table? (ss : List Statement) : Option Table :=
  (ss.foldlM add? {}).map fun d => Items.toTable d.items

end Draft
end ClientLoom.Toml
