import ClientLoom.Yaml.Meaning

/-! # Fitting nodes to values

A document is fitted to values node by node, in its order.  A node of the wrong form is a flaw:
nothing comes of the document in the end, but the work goes on.  Any other fault stops the work.

Every visit of a node is counted, and so is every visit by way of an alias.  A document of which
too great a part consists of repetitions is refused, and so is a node inside itself.

A merge key adds the entries of other mappings to those of a mapping, except for the keys that
are there.  For this the keys of the mapping are compared with the new ones; a key that is a
collection cannot be compared. -/

namespace ClientLoom.Yaml

/-- What a node is as a key. -/
inductive Key where
  | null
  | text (s : String)
  /-- another scalar, by its meaning -/
  | scalar (tag text : String)
  | list
  /-- a mapping; `textual` when all its keys are texts -/
  | table (textual : Bool)
  deriving DecidableEq, Repr

/-- Whether a key is a collection. -/
def Key.isCollection : Key → Bool
  | .list => true
  | .table _ => true
  | _ => false

/-- Why the work stops. -/
inductive Stop where
  | refused
  /-- a key had to be compared that is a collection -/
  | incomparable (key : Key)
  deriving DecidableEq, Repr

/-- What is known in the middle of the work. -/
structure Tally where
  /-- the number of visits -/
  visits : Nat := 0
  /-- the number of visits by way of an alias -/
  repeated : Nat := 0
  /-- the numbers of the anchored nodes that aliases led into, innermost first -/
  around : List Nat := []
  /-- there was a flaw -/
  flawed : Bool := false
  /-- the keys that count as present, while entries are merged -/
  merged : Option (List Key) := none

/-- A step of the work. -/
abbrev Fit := StateT Tally (Except Stop)

namespace Fit

/-- Stops the work. -/
def refuse {α : Type} : Fit α := fun _ => .error .refused

/-- Notes a flaw. -/
def noteFlaw : Fit Unit := modify fun t => { t with flawed := true }

/-- Notes a flaw; no value comes of it. -/
def flaw {α : Type} : Fit (Option α) := do
  noteFlaw
  pure none

/-- The result of the work on a whole document. -/
def result {α : Type} (x : Fit α) : Except Stop α :=
  match x {} with
  | .ok (a, t) => if t.flawed then .error .refused else .ok a
  | .error e => .error e

/-! ### Visits -/

/-- Whether so many of the visits may be repetitions.  In small documents 99 of 100 may be, and in
large ones one of ten; in between the part falls evenly. -/
def mayRepeat (visits repeated : Nat) : Bool :=
  if repeated ≤ 100 || visits ≤ 1000 then true
  else if visits ≤ 400000 then repeated * 100 ≤ visits * 99
  else if 4000000 ≤ visits then repeated * 10 ≤ visits
  else repeated * 360000000 ≤ visits * (99 * 3600000 - 89 * (visits - 400000))

/-- Counts a visit. -/
def count : Fit Unit := fun t =>
  let t :=
    { t with
      visits := t.visits + 1
      repeated := if t.around.isEmpty then t.repeated else t.repeated + 1 }
  if mayRepeat t.visits t.repeated then .ok ((), t) else .error .refused

/-- Visits a node; `use` gets the node that is meant. -/
def visit {α : Type} (d : Document) (n : Node) (use : Node → Fit α) : Fit α := do
  count
  match n with
  | .alias _ _ target =>
      match d.anchors[target]? with
      | none => refuse
      | some n =>
          if (← get).around.contains target then refuse
          else
            modify fun t => { t with around := target :: t.around }
            count
            let a ← use n
            modify fun t => { t with around := t.around.tail }
            pure a
  | n => use n

/-! ### Scalars -/

/-- The text of a scalar; nothing when it means nothing. -/
def scalarText (tag : String) (style : Style) (text : String) : Fit (Option String) :=
  match Node.meaning? tag style text with
  | none => refuse
  | some .null => pure none
  | some _ =>
      match Node.content? tag text with
      | some s => pure (some s)
      | none => refuse

/-- A scalar in a place for a collection: it may only mean nothing. -/
def nothing {α : Type} (tag : String) (style : Style) (text : String) : Fit (Option α) := do
  match ← scalarText tag style text with
  | none => pure none
  | some _ => flaw

/-- The text of a node. -/
def text (d : Document) (n : Node) : Fit (Option String) :=
  visit d n fun
    | .scalar _ tag style text => scalarText tag style text
    | _ => flaw

/-- The truth value that a word stands for. -/
def truthOfWord? (s : String) : Option Bool :=
  if ["y", "Y", "yes", "Yes", "YES", "on", "On", "ON"].contains s then some true
  else if ["n", "N", "no", "No", "NO", "off", "Off", "OFF"].contains s then some false
  else none

/-- A truth value, or a word for one. -/
def truth (d : Document) (n : Node) : Fit (Option Bool) :=
  visit d n fun
    | .scalar _ tag style text => do
        match Node.meaning? tag style text with
        | some (.bool b) => pure (some b)
        | some .text =>
            match (← scalarText tag style text).bind truthOfWord? with
            | some b => pure (some b)
            | none => flaw
        | _ => nothing tag style text
    | _ => flaw

/-- A sequence; items that stand for nothing are left out. -/
def items {α : Type} (d : Document) (item : Node → Fit (Option α)) (n : Node) :
    Fit (Option (List α)) :=
  visit d n fun
    | .sequence _ _ items => do
        let xs ← items.mapM item
        pure (some (xs.filterMap id))
    | .scalar _ tag style text => nothing tag style text
    | _ => flaw

/-! ### Entries of mappings -/

/-- Whether two keys of a mapping are alike. -/
def hasRepeatedKey : List (Node × Node) → Bool
  | [] => false
  | (k, _) :: rest => rest.any (fun e => k.sameKey e.1) || hasRepeatedKey rest

/-- Uses one entry.  Keys that count as present are passed over, and others count from now on. -/
def useEntry {α : Type} (key : Node → Fit (Option Key)) (use : α → Key → Node → Fit α)
    (s : α × Option (List Key)) (e : Node × Node) : Fit (α × Option (List Key)) := do
  if e.1.isMerge then pure s
  else
    match ← key e.1, s.2 with
    | none, _ => pure s
    | some k, none => do
        let a ← use s.1 k e.2
        pure (a, none)
    | some k, some present =>
        if k.isCollection then throw (.incomparable k)
        else if present.contains k then pure s
        else do
          let a ← use s.1 k e.2
          pure (a, some (k :: present))

/-- Uses the entries of a mapping in order, merge keys apart.  The values know of no merge around
them. -/
def useEntries {α : Type} (key : Node → Fit (Option Key)) (use : α → Key → Node → Fit α) (a : α)
    (entries : List (Node × Node)) : Fit α := do
  let present := (← get).merged
  modify fun t => { t with merged := none }
  let (a, present) ← entries.foldlM (useEntry key use) (a, present)
  modify fun t => { t with merged := present }
  pure a

/-- Lets a key count as present. -/
def note (k : Key) : Fit Unit :=
  if k.isCollection then throw (.incomparable k)
  else modify fun t => { t with merged := t.merged.map (k :: ·) }

/-- Lets the keys of a mapping count as present, unless a merge is going on. -/
def noteKeys (key : Node → Fit (Option Key)) (entries : List (Node × Node)) : Fit Unit := do
  if (← get).merged.isNone then
    modify fun t => { t with merged := some [] }
    entries.forM fun e => do
      match ← key e.1 with
      | none => pure ()
      | some k => note k

/-- The nodes whose entries a merge key asks for. -/
def mergeSources : Node → List Node
  | .sequence _ _ items => items
  | n => [n]

/-- Adds the entries of a node, which has to be a mapping. -/
def mergeOne {α : Type} (d : Document) (into : α → Node → Fit α) (a : α) (n : Node) : Fit α :=
  match d.resolve n with
  | .mapping _ _ _ => into a n
  | _ => refuse

/-- Adds the entries that the last merge key of a mapping asks for: `into` adds those of one
mapping, and `key` reads a key of any form. -/
def merge {α : Type} (d : Document) (key : Node → Fit (Option Key)) (into : α → Node → Fit α)
    (a : α) (entries : List (Node × Node)) : Fit α := do
  match (entries.filter (·.1.isMerge)).getLast? with
  | none => pure a
  | some (_, n) =>
      let outer := (← get).merged
      noteKeys key entries
      let a ← (mergeSources n).foldlM (mergeOne d into) a
      if outer.isNone then modify fun t => { t with merged := none }
      pure a

/-! ### Nodes of any form -/

/-- A scalar as a key. -/
def scalarKey (tag : String) (style : Style) (text : String) : Fit (Option Key) := do
  match Node.meaning? tag style text, ← scalarText tag style text with
  | _, none => pure (some .null)
  | some .text, some s => pure (some (.text s))
  | some m, _ => pure (some (.scalar m.tag text))
  | none, _ => refuse

/-- Goes through a mapping of any form, whose keys and values are read by `value`; keys are texts
when it is `textual`.  The number bounds the nesting of merges. -/
def anyTable (d : Document) (value : Node → Fit (Option Key)) (textual : Bool) :
    Nat → List (Node × Node) → Fit (Option Key)
  | 0, _ => refuse
  | fuel + 1, entries =>
      if hasRepeatedKey entries then flaw
      else do
        let key (n : Node) : Fit (Option Key) :=
          if textual then do pure ((← text d n).map .text) else value n
        useEntries key
          (fun _ k v => if k.isCollection then refuse else do let _ ← value v)
          () entries
        merge d value
          (fun _ n => visit d n fun
            | .mapping _ _ entries => do let _ ← anyTable d value textual fuel entries
            | _ => refuse)
          () entries
        pure (some (.table textual))

/-- Whether all keys of a mapping are texts. -/
def isTextual (d : Document) (entries : List (Node × Node)) : Bool :=
  entries.all fun e =>
    let tag := (d.resolve e.1).formTag
    tag == Meaning.text.tag || tag == "!!merge"

/-- Goes through a node of any form and tells what it is as a key.  The number bounds the
nesting. -/
def any (d : Document) : Nat → Node → Fit (Option Key)
  | 0, _ => refuse
  | fuel + 1, n =>
      visit d n fun
        | .scalar _ tag style text => scalarKey tag style text
        | .sequence _ _ items => do
            let _ ← items.mapM (any d fuel)
            pure (some .list)
        | .mapping _ _ entries => anyTable d (any d fuel) (isTextual d entries) fuel entries
        | .alias _ _ _ => refuse

end Fit

/-! ### Records -/

/-- How a record is read from a mapping. -/
structure Shape (α : Type) where
  /-- the record without any entry -/
  empty : α
  /-- a key that the record does not have is a flaw -/
  strict : Bool
  /-- what the entry with a given key does to the record -/
  part : String → Option (Node → α → Fit α)
  /-- the record that takes a node of any form whole -/
  whole : Option (Node → α) := none

namespace Shape

open Fit

variable {α : Type}

/-- Uses an entry; `r.2` holds the keys of the entries before it. -/
def usePart (s : Shape α) (r : α × List String) (k : Key) (v : Node) : Fit (α × List String) :=
  match k with
  | .text name =>
      match s.part name with
      | some part =>
          if r.2.contains name then do
            noteFlaw
            pure r
          else do
            let a ← part v r.1
            pure (a, name :: r.2)
      | none =>
          if s.strict then do
            noteFlaw
            pure r
          else pure r
  | _ => pure r

/-- Adds the entries of a node to a record.  The number bounds the nesting of merges. -/
def add (d : Document) (s : Shape α) : Nat → α → Node → Fit (Option α)
  | 0, _, _ => refuse
  | fuel + 1, a, n =>
      match s.whole, n.isNull, n with
      | some whole, false, n => pure (some (whole n))
      | _, _, .mapping _ _ entries =>
          if hasRepeatedKey entries then flaw
          else do
            let (a, _) ←
              useEntries (fun n => do pure ((← text d n).map .text)) s.usePart (a, []) entries
            let a ← merge d (any d fuel)
              (fun a n => visit d n fun n => do pure ((← s.add d fuel a n).getD a)) a entries
            pure (some a)
      | _, _, .scalar _ tag style text => nothing tag style text
      | _, _, _ => flaw

/-- Reads a record. -/
def read (d : Document) (s : Shape α) (n : Node) : Fit (Option α) :=
  visit d n (s.add d d.depth s.empty)

/-- Reads a record that may be missing; only a scalar may say so. -/
def readMaybe (d : Document) (s : Shape α) (n : Node) : Fit (Option α) :=
  visit d n fun n =>
    match n.isNull, n with
    | true, .scalar _ tag style text => nothing tag style text
    | true, _ => flaw
    | false, n => s.add d d.depth s.empty n

end Shape
end ClientLoom.Yaml
