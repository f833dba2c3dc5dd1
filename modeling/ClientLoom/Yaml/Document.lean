import ClientLoom.Text.Split
import ClientLoom.Yaml.Node
import ClientLoom.Yaml.Scanner

/-! # Reading a document

`Document.parse?` builds the first document of a text from its tokens, which are read only as far
as the document goes. -/

namespace ClientLoom.Yaml

/-- The state of the reader. -/
structure Reading where
  scanner : Scanner
  /-- the anchors that are defined, the latest first, with their numbers -/
  names : List (String × Nat) := []
  /-- the anchored nodes by number; a node that is not finished yet is missing -/
  nodes : Array Node := #[]
  /-- what the handles of tags stand for -/
  handles : List (String × String) := []

/-- A reader of a part of a document; it fails when the part is broken. -/
abbrev Read := StateT Reading Option

namespace Read

/-- The next token. -/
def peek : Read Token := fun ⟨scanner, names, nodes, handles⟩ =>
  match scanner.next? with
  | some (t, scanner) => some (t, ⟨scanner, names, nodes, handles⟩)
  | none => none

/-- Goes on to the next token. -/
def advance : Read Unit := modify fun s => { s with scanner := s.scanner.take }

/-- A part that is broken. -/
def fault {α : Type} : Read α := fun _ => none

/-- A scalar that is not written. -/
def absent (line : Nat) : Node := .scalar (line + 1) "" .plain ""

/-- The short form of a tag. -/
def shortTag (tag : String) : String :=
  match Text.dropPrefix? "tag:yaml.org,2002:".toList tag.toList with
  | some rest => "!!" ++ String.ofList rest
  | none => tag

/-- The tag that a handle and the rest of a tag stand for; the mark alone stands for none. -/
def fullTag (handle rest : String) : Read String := do
  if handle = "" then pure (if rest = "!" then "" else shortTag rest)
  else
    match (← get).handles.lookup handle with
    | some lead =>
        let tag := lead ++ rest
        if tag = "" then fault else pure (if tag = "!" then "" else shortTag tag)
    | none => fault

/-- The anchor and the tag of a node, in either order. -/
structure Properties where
  line : Nat
  anchor : Option String := none
  tag : Option String := none

/-- Whether a node has an anchor or a tag. -/
def Properties.any (p : Properties) : Bool := p.anchor.isSome || p.tag.isSome

/-- Reads an anchor, unless there is one. -/
def anchorProperty (p : Properties) : Read Properties := do
  match (← peek).kind, p.anchor with
  | .anchor name, none => advance; pure { p with anchor := some name }
  | _, _ => pure p

/-- Reads a tag, unless there is one. -/
def tagProperty (p : Properties) : Read Properties := do
  match (← peek).kind, p.tag with
  | .tag handle rest, none =>
      advance
      let tag ← fullTag handle rest
      pure { p with tag := some tag }
  | _, _ => pure p

/-- Reads the properties of a node. -/
def properties : Read Properties := do
  let p ← anchorProperty { line := (← peek).line }
  let p ← tagProperty p
  anchorProperty p

/-- Gives the node to come its number, when it has an anchor. -/
def openAnchor (p : Properties) : Read (Option Nat) := do
  match p.anchor with
  | none => pure none
  | some name =>
      let id := (← get).nodes.size
      modify fun s =>
        { s with names := (name, id) :: s.names, nodes := s.nodes.push (absent p.line) }
      pure (some id)

/-- Files a finished node under its number. -/
def closeAnchor (id : Option Nat) (n : Node) : Read Node := do
  match id with
  | none => pure n
  | some id =>
      modify fun s => { s with nodes := s.nodes.setIfInBounds id n }
      pure n

/-- The node that an alias refers to. -/
def aliasNode (line : Nat) (name : String) : Read Node := do
  match (← get).names.lookup name with
  | some id => pure (.alias (line + 1) name id)
  | none => fault

mutual

/-- A node.  In a block, block collections may follow; `flat` tells that the items of a sequence
may stand at the indentation of the mapping around it.  The first argument bounds the nesting of
calls. -/
def node : Nat → Bool → Bool → Read Node
  | 0, _, _ => fault
  | fuel + 1, block, flat => do
    let t ← peek
    match t.kind with
    | .alias name =>
        advance
        aliasNode t.line name
    | _ =>
      let p ← properties
      let line := p.line + 1
      let t ← peek
      match t.kind with
      | .scalar text style =>
          advance
          let id ← openAnchor p
          closeAnchor id (.scalar line (p.tag.getD "") style text)
      | .flowSequenceStart =>
          advance
          let id ← openAnchor p
          let items ← flowItems fuel true
          closeAnchor id (.sequence line (p.tag.getD "") items)
      | .flowMappingStart =>
          advance
          let id ← openAnchor p
          let entries ← flowEntries fuel true
          closeAnchor id (.mapping line (p.tag.getD "") entries)
      | kind =>
          if flat && kind == .blockEntry then
            let id ← openAnchor p
            let items ← flatItems fuel
            closeAnchor id (.sequence line (p.tag.getD "") items)
          else if block && kind == .blockSequenceStart then
            advance
            let id ← openAnchor p
            let items ← blockItems fuel
            closeAnchor id (.sequence line (p.tag.getD "") items)
          else if block && kind == .blockMappingStart then
            advance
            let id ← openAnchor p
            let entries ← blockEntries fuel
            closeAnchor id (.mapping line (p.tag.getD "") entries)
          else if p.any then
            let id ← openAnchor p
            closeAnchor id (.scalar line (p.tag.getD "") .plain "")
          else fault

/-- The items of a block sequence. -/
def blockItems : Nat → Read (List Node)
  | 0 => fault
  | fuel + 1 => do
    let t ← peek
    match t.kind with
    | .blockEntry =>
        advance
        let next ← peek
        let item ←
          if next.kind == .blockEntry || next.kind == .blockEnd then pure (absent t.line)
          else node fuel true false
        let items ← blockItems fuel
        pure (item :: items)
    | .blockEnd =>
        advance
        pure []
    | _ => fault

/-- The items of a sequence at the indentation of the mapping around it. -/
def flatItems : Nat → Read (List Node)
  | 0 => fault
  | fuel + 1 => do
    let t ← peek
    match t.kind with
    | .blockEntry =>
        advance
        let next ← peek
        let item ←
          if next.kind == .blockEntry || next.kind == .blockEnd || next.kind == .key ||
              next.kind == .value then pure (absent t.line)
          else node fuel true false
        let items ← flatItems fuel
        pure (item :: items)
    | _ => pure []

/-- A key or a value of a block mapping behind its indicator, which stands on `line`. -/
def blockPart : Nat → Nat → Read Node
  | 0, _ => fault
  | fuel + 1, line => do
    let t ← peek
    if t.kind == .key || t.kind == .value || t.kind == .blockEnd then pure (absent line)
    else node fuel true true

/-- The entries of a block mapping. -/
def blockEntries : Nat → Read (List (Node × Node))
  | 0 => fault
  | fuel + 1 => do
    let t ← peek
    match t.kind with
    | .key =>
        advance
        let key ← blockPart fuel t.line
        let v ← peek
        let value ←
          if v.kind == .value then do
            advance
            blockPart fuel v.line
          else pure (absent v.line)
        let rest ← blockEntries fuel
        pure ((key, value) :: rest)
    | .blockEnd =>
        advance
        pure []
    | _ => fault

/-- The items of a sequence in brackets; commas stand between them. -/
def flowItems : Nat → Bool → Read (List Node)
  | 0, _ => fault
  | fuel + 1, first => do
    let t ← peek
    if t.kind == .flowSequenceEnd then
      advance
      pure []
    else
      if !first then
        if t.kind == .flowEntry then advance else fault
      let t ← peek
      match t.kind with
      | .flowSequenceEnd =>
          advance
          pure []
      | .key =>
          advance
          let pair ← flowPair fuel
          let items ← flowItems fuel false
          pure (.mapping (t.line + 1) "" [pair] :: items)
      | _ =>
          let item ← node fuel false false
          let items ← flowItems fuel false
          pure (item :: items)

/-- A mapping of one entry that stands as an item in brackets, behind the indicator of its
key. -/
def flowPair : Nat → Read (Node × Node)
  | 0 => fault
  | fuel + 1 => do
    let t ← peek
    let key ←
      if t.kind == .value || t.kind == .flowEntry || t.kind == .flowSequenceEnd then do
        advance
        pure (absent t.line)
      else node fuel false false
    let v ← peek
    if v.kind == .value then
      advance
      let t ← peek
      if t.kind == .flowEntry || t.kind == .flowSequenceEnd then pure (key, absent v.line)
      else
        let value ← node fuel false false
        pure (key, value)
    else pure (key, absent v.line)

/-- The entries of a mapping in brackets; commas stand between them. -/
def flowEntries : Nat → Bool → Read (List (Node × Node))
  | 0, _ => fault
  | fuel + 1, first => do
    let t ← peek
    if t.kind == .flowMappingEnd then
      advance
      pure []
    else
      if !first then
        if t.kind == .flowEntry then advance else fault
      let t ← peek
      match t.kind with
      | .flowMappingEnd =>
          advance
          pure []
      | .key =>
          advance
          let entry ← flowEntry fuel
          let rest ← flowEntries fuel false
          pure (entry :: rest)
      | _ =>
          let key ← node fuel false false
          let v ← peek
          let rest ← flowEntries fuel false
          pure ((key, absent v.line) :: rest)

/-- An entry of a mapping in brackets behind the indicator of its key. -/
def flowEntry : Nat → Read (Node × Node)
  | 0 => fault
  | fuel + 1 => do
    let t ← peek
    let key ←
      if t.kind == .value || t.kind == .flowEntry || t.kind == .flowMappingEnd then
        pure (absent t.line)
      else node fuel false false
    let v ← peek
    if v.kind == .value then
      advance
      let t ← peek
      if t.kind == .flowEntry || t.kind == .flowMappingEnd then pure (key, absent t.line)
      else
        let value ← node fuel false false
        pure (key, value)
    else pure (key, absent v.line)

end

/-! ### The document -/

/-- Reads directives; `versioned` tells that a version was given.  Only one version is known,
and neither a version nor a handle may be given twice. -/
def directives : Nat → Bool → Read Unit
  | 0, _ => fault
  | fuel + 1, versioned => do
    match (← peek).kind with
    | .version major minor =>
        if versioned || major != 1 || minor != 1 then fault
        else
          advance
          directives fuel true
    | .tagHandle handle uri =>
        if ((← get).handles.lookup handle).isSome then fault
        else
          modify fun s => { s with handles := s.handles ++ [(handle, uri)] }
          advance
          directives fuel versioned
    | _ => pure ()

/-- The handles that need no directive. -/
def usualHandles : List (String × String) := [("!", "!"), ("!!", "tag:yaml.org,2002:")]

/-- The content of a document behind its mark. -/
def content (fuel : Nat) : Read Node := do
  let t ← peek
  match t.kind with
  | .version _ _ => pure (absent t.line)
  | .tagHandle _ _ => pure (absent t.line)
  | .documentStart => pure (absent t.line)
  | .documentEnd => pure (absent t.line)
  | .streamEnd => pure (absent t.line)
  | _ => node fuel true false

/-- The root of the first document; nothing when there is none. -/
def root (fuel : Nat) : Read (Option Node) := do
  advance
  let t ← peek
  if t.kind == .streamEnd then pure none
  else
    let explicit :=
      match t.kind with
      | .version _ _ => true
      | .tagHandle _ _ => true
      | .documentStart => true
      | _ => false
    if explicit then
      directives fuel false
      if (← peek).kind != .documentStart then fault
      advance
    modify fun s => { s with handles := s.handles ++ usualHandles }
    let n ← if explicit then content fuel else node fuel true false
    -- the document ends where the token behind it is known
    let _ ← peek
    pure (some n)

end Read

/-- The first document of a text. -/
def Document.parse? (text : String) : Option Document :=
  match (Read.root (2 * text.length + 16)).run { scanner := .ofText text } with
  | some (root, s) => some ⟨root, s.nodes.toList⟩
  | none => none

end ClientLoom.Yaml
