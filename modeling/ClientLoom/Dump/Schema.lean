import ClientLoom.Yaml.Fit

/-! # Schema of dumps

The records that a dump document consists of, and the shapes by which mappings are read into
them. -/

namespace ClientLoom.Dump

open Yaml (Node Document Fit Shape)

/-! ### The records of a dump -/

/-- A field of a struct. -/
structure FieldDoc where
  name : String := ""
  type : String := ""
  pub : Bool := false
  attrs : List String := []

/-- A variant of an enum. -/
structure VariantDoc where
  name : String := ""
  types : List String := []
  attrs : List String := []

/-- A parameter of a function. -/
structure ParamDoc where
  name : String := ""
  mutable : Bool := false
  pat : String := ""
  type : String := ""

/-- A binding. -/
structure LetDoc where
  pat : String := ""
  type : String := ""
  value : Option Node := none

/-- A statement. -/
structure StmtDoc where
  binding : Option LetDoc := none
  expr : Option Node := none
  tail : Option Node := none
  semi : Bool := false

/-- A declaration: every key that some kind of declaration may have. -/
structure DeclDoc where
  use : String := ""
  struct : String := ""
  enum : String := ""
  impl : String := ""
  fn : String := ""
  verbatim : String := ""
  mod : String := ""
  pub : Bool := false
  attrs : List String := []
  asName : String := ""
  glob : Bool := false
  fields : List FieldDoc := []
  variants : List VariantDoc := []
  trait : String := ""
  fns : List DeclDoc := []
  isAsync : Bool := false
  receiver : String := ""
  params : List ParamDoc := []
  returns : String := ""
  body : Option (List StmtDoc) := none

/-- An entry of a struct literal. -/
structure InitDoc where
  name : String := ""
  value : Option Node := none

/-- An expression: every key that some kind of expression may have.  An argument may lack its
node. -/
structure ExprDoc where
  base : Option Node := none
  callee : Option Node := none
  value : Option Node := none
  test : Option Node := none
  args : List (Option Node) := []
  name : String := ""
  path : String := ""
  pat : String := ""
  inits : List InitDoc := []
  yes : List StmtDoc := []
  no : Option (List StmtDoc) := none

/-- A whole document. -/
structure FileDoc where
  module : String := ""
  attrs : List String := []
  decls : List DeclDoc := []

/-! ### Parts -/

/-- A part that is a text. -/
def textPart {α : Type} (d : Document) (set : α → String → α) (n : Node) (a : α) : Fit α := do
  match ← Fit.text d n with
  | some s => pure (set a s)
  | none => pure a

/-- A part that is a truth value. -/
def flagPart {α : Type} (d : Document) (set : α → Bool → α) (n : Node) (a : α) : Fit α := do
  match ← Fit.truth d n with
  | some b => pure (set a b)
  | none => pure a

/-- A part that is a list. -/
def listPart {α β : Type} (d : Document) (item : Node → Fit (Option β)) (set : α → List β → α)
    (n : Node) (a : α) : Fit α := do
  match ← Fit.items d item n with
  | some xs => pure (set a xs)
  | none => pure a

/-- A node, which is kept as it is unless its tag says that it is nothing. -/
def nodeShape : Shape (Option Node) := ⟨none, false, fun _ => none, some some⟩

/-- A part that is a node, which is kept as it is; an alias is followed. -/
def nodePart {α : Type} (d : Document) (set : α → Node → α) (n : Node) (a : α) : Fit α := do
  match ← Shape.readMaybe d nodeShape n with
  | some (some m) => pure (set a m)
  | _ => pure a

/-! ### Shapes -/

/-- A field of a struct. -/
def fieldShape (d : Document) : Shape FieldDoc where
  empty := {}
  strict := true
  part
    | "name" => some (textPart d fun r s => { r with name := s })
    | "type" => some (textPart d fun r s => { r with type := s })
    | "pub" => some (flagPart d fun r b => { r with pub := b })
    | "attrs" => some (listPart d (Fit.text d) fun r xs => { r with attrs := xs })
    | _ => none

/-- A variant of an enum. -/
def variantShape (d : Document) : Shape VariantDoc where
  empty := {}
  strict := true
  part
    | "name" => some (textPart d fun r s => { r with name := s })
    | "types" => some (listPart d (Fit.text d) fun r xs => { r with types := xs })
    | "attrs" => some (listPart d (Fit.text d) fun r xs => { r with attrs := xs })
    | _ => none

/-- A parameter of a function. -/
def paramShape (d : Document) : Shape ParamDoc where
  empty := {}
  strict := true
  part
    | "name" => some (textPart d fun r s => { r with name := s })
    | "mut" => some (flagPart d fun r b => { r with mutable := b })
    | "pat" => some (textPart d fun r s => { r with pat := s })
    | "type" => some (textPart d fun r s => { r with type := s })
    | _ => none

/-- A binding. -/
def letShape (d : Document) (strict : Bool) : Shape LetDoc where
  empty := {}
  strict := strict
  part
    | "pat" => some (textPart d fun r s => { r with pat := s })
    | "type" => some (textPart d fun r s => { r with type := s })
    | "value" => some (nodePart d fun r n => { r with value := some n })
    | _ => none

/-- The part of a statement that is a binding. -/
def bindingPart (d : Document) (strict : Bool) (n : Node) (r : StmtDoc) : Fit StmtDoc := do
  match ← (letShape d strict).readMaybe d n with
  | some b => pure { r with binding := some b }
  | none => pure r

/-- A statement. -/
def stmtShape (d : Document) (strict : Bool) : Shape StmtDoc where
  empty := {}
  strict := strict
  part
    | "let" => some (bindingPart d strict)
    | "expr" => some (nodePart d fun r n => { r with expr := some n })
    | "tail" => some (nodePart d fun r n => { r with tail := some n })
    | "semi" => some (flagPart d fun r b => { r with semi := b })
    | _ => none

/-- A declaration; `fn` reads the declarations in an impl block. -/
def declShape (d : Document) (fn : Node → Fit (Option DeclDoc)) : Shape DeclDoc where
  empty := {}
  strict := true
  part
    | "use" => some (textPart d fun r s => { r with use := s })
    | "struct" => some (textPart d fun r s => { r with struct := s })
    | "enum" => some (textPart d fun r s => { r with enum := s })
    | "impl" => some (textPart d fun r s => { r with impl := s })
    | "fn" => some (textPart d fun r s => { r with fn := s })
    | "opaque" => some (textPart d fun r s => { r with verbatim := s })
    | "mod" => some (textPart d fun r s => { r with mod := s })
    | "pub" => some (flagPart d fun r b => { r with pub := b })
    | "attrs" => some (listPart d (Fit.text d) fun r xs => { r with attrs := xs })
    | "alias" => some (textPart d fun r s => { r with asName := s })
    | "glob" => some (flagPart d fun r b => { r with glob := b })
    | "fields" => some (listPart d ((fieldShape d).read d) fun r xs => { r with fields := xs })
    | "variants" =>
        some (listPart d ((variantShape d).read d) fun r xs => { r with variants := xs })
    | "trait" => some (textPart d fun r s => { r with trait := s })
    | "fns" => some (listPart d fn fun r xs => { r with fns := xs })
    | "async" => some (flagPart d fun r b => { r with isAsync := b })
    | "self" => some (textPart d fun r s => { r with receiver := s })
    | "params" => some (listPart d ((paramShape d).read d) fun r xs => { r with params := xs })
    | "returns" => some (textPart d fun r s => { r with returns := s })
    | "body" =>
        some (listPart d ((stmtShape d true).read d) fun r xs => { r with body := some xs })
    | _ => none

/-- A declaration.  The number bounds the nesting of declarations. -/
def readDecl (d : Document) : Nat → Node → Fit (Option DeclDoc)
  | 0, _ => Fit.refuse
  | fuel + 1, n => (declShape d (readDecl d fuel)).read d n

/-- A whole document. -/
def fileShape (d : Document) : Shape FileDoc where
  empty := {}
  strict := true
  part
    | "module" => some (textPart d fun r s => { r with module := s })
    | "attrs" => some (listPart d (Fit.text d) fun r xs => { r with attrs := xs })
    | "decls" => some (listPart d (readDecl d d.depth) fun r xs => { r with decls := xs })
    | _ => none

/-- An entry of a struct literal. -/
def initShape (d : Document) : Shape InitDoc where
  empty := {}
  strict := false
  part
    | "name" => some (textPart d fun r s => { r with name := s })
    | "value" => some (nodePart d fun r n => { r with value := some n })
    | _ => none

/-- What an entry of an expression does. -/
def exprPart? (d : Document) : String → Option (Node → ExprDoc → Fit ExprDoc)
  | "of" => some (nodePart d fun r n => { r with base := some n })
  | "base" => some (nodePart d fun r n => { r with base := some n })
  | "fn" => some (nodePart d fun r n => { r with callee := some n })
  | "value" => some (nodePart d fun r n => { r with value := some n })
  | "cond" => some (nodePart d fun r n => { r with test := some n })
  | "args" => some (listPart d (nodeShape.read d) fun r xs => { r with args := xs })
  | "name" => some (textPart d fun r s => { r with name := s })
  | "path" => some (textPart d fun r s => { r with path := s })
  | "pat" => some (textPart d fun r s => { r with pat := s })
  | "fields" => some (listPart d ((initShape d).read d) fun r xs => { r with inits := xs })
  | "then" => some (listPart d ((stmtShape d false).read d) fun r xs => { r with yes := xs })
  | "else" => some (listPart d ((stmtShape d false).read d) fun r xs => { r with no := some xs })
  | _ => none

/-- An expression of a kind that has the given keys. -/
def exprShape (d : Document) (keys : List String) : Shape ExprDoc where
  empty := {}
  strict := false
  part name := if keys.contains name then exprPart? d name else none

/-! ### Reading -/

/-- Reads a whole document. -/
def readFile (d : Document) : Fit FileDoc := do
  match d.root with
  | none => pure {}
  | some n =>
      Fit.count
      let f ← (fileShape d).read d n
      pure (f.getD {})

/-- Reads statements in order. -/
def readStmts (d : Document) (n : Node) : Fit (List StmtDoc) := do
  let stmts ← Fit.items d ((stmtShape d false).read d) n
  pure (stmts.getD [])

/-- Reads the parts of an expression of a kind that has the given keys. -/
def readExpr (d : Document) (keys : List String) (n : Node) : Fit ExprDoc := do
  let e ← (exprShape d keys).read d n
  pure (e.getD {})

end ClientLoom.Dump
