import ClientLoom.Dump.Schema
import ClientLoom.Module.Basic
import ClientLoom.SlashPath
import ClientLoom.Ty.Parser
import ClientLoom.Yaml.Document

/-! # Decoding dumps

`Dump.decode` turns the text of a dump into a module.  The whole text is read by the schema
first; then the declarations are decoded and pushed in order, so the first that is at fault
decides the failure.

An expression is kept as a node by the schema and decoded on its own.  An alias in it may lead
back to a node around it; decoding follows aliases up to a bound and then fails with
`Cause.endless`. -/

namespace ClientLoom.Dump

open Yaml (Node Document Key Fit)

/-- A failure that the document is not a proper dump. -/
def malformed {α : Type} (what : String) : Except Failure α := .error (.along [what] .malformed)

/-- The name of the form of a key. -/
def formName : Key → String
  | .list => "[]interface \x7b\x7d"
  | .table true => "map[string]interface \x7b\x7d"
  | .table false => "map[interface \x7b\x7d]interface \x7b\x7d"
  | _ => "string"

/-- The value that was read, or the complaint `what` that the text does not fit the schema.  A key
that cannot be compared breaks the program down. -/
def fitting {α : Type} (what : String) (x : Fit α) : Except Failure α :=
  match x.result with
  | .ok a => .ok a
  | .error .refused => malformed what
  | .error (.incomparable k) =>
      .error (.of (.breakdown ("runtime error: hash of unhashable type " ++ formName k)))

/-- Reads a path. -/
def pathOf (what text : String) : Except Failure Path :=
  match Path.parse text with
  | .ok p => .ok p
  | .error e => malformed (what ++ ": " ++ e.message)

/-- Reads a type. -/
def typeOf (what text : String) : Except Failure Ty :=
  match Ty.parse text with
  | .ok t => .ok t
  | .error e => malformed (what ++ ": " ++ e.message)

/-- Reads attributes. -/
def attrsOf (texts : List String) : Except Failure (List Attr) :=
  texts.mapM fun text =>
    match Attr.parse text with
    | .ok a => .ok a
    | .error e => malformed ("attribute: " ++ e.message)

/-- Decodes items in order; `place` names an item by its number. -/
def eachOf {α β : Type} (place : Nat → String) (f : α → Except Failure β) (xs : List α) :
    Except Failure (List β) :=
  xs.zipIdx.mapM fun (x, i) => locate (place i) (f x)

/-! ### Expressions and statements -/

/-- Decodes a node that is an expression. -/
abbrev ExprDecoder := Node → Except Failure Expr

/-- Decodes the expression of an entry, which has to be there. -/
def needed (expr : ExprDecoder) : Option Node → Except Failure Expr
  | none => malformed "missing expression"
  | some n => expr n

/-- Decodes the expression of an entry that may be absent. -/
def optional (expr : ExprDecoder) : Option Node → Except Failure (Option Expr)
  | none => .ok none
  | some n => (expr n).map some

/-- Decodes a binding. -/
def bindingOf (expr : ExprDecoder) (b : LetDoc) : Except Failure Stmt := do
  if b.pat = "" then malformed "let without pat"
  else
    let ty ← if b.type = "" then pure none else (typeOf ("let " ++ b.pat) b.type).map some
    let value ← optional expr b.value
    pure (.bind b.pat ty value)

/-- Decodes a statement. -/
def stmtOf (expr : ExprDecoder) (s : StmtDoc) : Except Failure Stmt :=
  match s.binding, s.expr, s.tail with
  | some b, none, none => bindingOf expr b
  | none, some n, none => (expr n).map fun e => .expr e s.semi
  | none, none, some n => (expr n).map fun e => .expr e false
  | _, _, _ => malformed "statement needs exactly one of let, expr, tail"

/-- Decodes statements. -/
def blockOf (expr : ExprDecoder) (stmts : List StmtDoc) : Except Failure Block :=
  eachOf (fun i => "stmt " ++ toString i) (stmtOf expr) stmts

/-- Decodes arguments. -/
def argsOf (expr : ExprDecoder) (args : List (Option Node)) : Except Failure (List Expr) :=
  eachOf (fun i => "args[" ++ toString i ++ "]") (needed expr) args

/-- The parts of an expression, which has to be a mapping with no other keys than `keys`. -/
def partsOf (d : Document) (keys : List String) (v : Node) : Except Failure ExprDoc :=
  match v with
  | .mapping _ _ entries =>
      match entries.find? fun e => !keys.contains e.1.ownText with
      | some (k, _) =>
          malformed ("line " ++ toString k.line ++ ": unknown key " ++ Text.quote k.ownText)
      | none => fitting "yaml" (readExpr d keys v)
  | v => malformed ("line " ++ toString v.line ++ ": expected a mapping")

/-- Decodes an entry of a struct literal. -/
def initOf (expr : ExprDecoder) (init : InitDoc) : Except Failure FieldInit :=
  (optional expr init.value).map (FieldInit.mk init.name)

/-- Decodes a field access. -/
def fieldOf (d : Document) (expr : ExprDecoder) (v : Node) : Except Failure Expr := do
  let parts ← partsOf d ["of", "name"] v
  let base ← needed expr parts.base
  pure (.field base parts.name)

/-- Decodes a call. -/
def callOf (d : Document) (expr : ExprDecoder) (v : Node) : Except Failure Expr := do
  let parts ← partsOf d ["fn", "args"] v
  let callee ← needed expr parts.callee
  let args ← argsOf expr parts.args
  pure (.call callee args)

/-- Decodes a method call. -/
def methodOf (d : Document) (expr : ExprDecoder) (v : Node) : Except Failure Expr := do
  let parts ← partsOf d ["of", "name", "args"] v
  let base ← needed expr parts.base
  let args ← argsOf expr parts.args
  pure (.method base parts.name args)

/-- Decodes a macro call. -/
def macroOf (d : Document) (expr : ExprDecoder) (v : Node) : Except Failure Expr := do
  let parts ← partsOf d ["name", "args"] v
  let p ← pathOf "macro name" parts.name
  let args ← argsOf expr parts.args
  pure (.macroCall p args)

/-- Decodes a struct literal. -/
def constructOf (d : Document) (expr : ExprDecoder) (v : Node) : Except Failure Expr := do
  let parts ← partsOf d ["path", "fields", "base"] v
  let p ← pathOf "struct path" parts.path
  let inits ← parts.inits.mapM (initOf expr)
  let base ← optional expr parts.base
  pure (.construct p inits base)

/-- Decodes the head of a conditional with a pattern. -/
def letCondOf (d : Document) (expr : ExprDecoder) (v : Node) : Except Failure Expr := do
  let parts ← partsOf d ["pat", "value"] v
  let value ← needed expr parts.value
  pure (.letCond parts.pat value)

/-- Decodes a conditional. -/
def condOf (d : Document) (expr : ExprDecoder) (v : Node) : Except Failure Expr := do
  let parts ← partsOf d ["cond", "then", "else"] v
  let test ← needed expr parts.test
  let yes ← blockOf expr parts.yes
  match parts.no with
  | none => pure (.cond test yes none)
  | some stmts =>
      let no ← blockOf expr stmts
      pure (.cond test yes (some no))

/-- Decodes a nested block. -/
def nestedOf (d : Document) (expr : ExprDecoder) (v : Node) : Except Failure Expr := do
  let stmts ← fitting "block: yaml" (readStmts d v)
  let stmts ← blockOf expr stmts
  pure (.block stmts)

/-- Decodes an expression of the kind that a key names. -/
def kindOf (d : Document) (expr : ExprDecoder) (key : String) (v : Node) : Except Failure Expr :=
  match key with
  | "path" => (pathOf "path" v.ownText).map .path
  | "lit" => .ok (.lit v.ownText)
  | "raw" => .ok (.raw v.ownText)
  | "field" => fieldOf d expr v
  | "call" => callOf d expr v
  | "method" => methodOf d expr v
  | "macro" => macroOf d expr v
  | "struct" => constructOf d expr v
  | "ref" => (expr v).map (.ref false)
  | "refmut" => (expr v).map (.ref true)
  | "try" => (expr v).map .attempt
  | "letcond" => letCondOf d expr v
  | "if" => condOf d expr v
  | "block" => nestedOf d expr v
  | key => malformed ("unknown expression kind " ++ Text.quote key)

/-- Decodes an expression, a mapping with one key; its parts are decoded by `expr`. -/
def exprStep (d : Document) (expr : ExprDecoder) (n : Node) : Except Failure Expr :=
  match n with
  | .mapping line _ [(k, v)] =>
      locate ("line " ++ toString line ++ ": " ++ k.ownText) (kindOf d expr k.ownText v)
  | n => malformed ("line " ++ toString n.line ++ ": expression must be a mapping with one key")

/-- Decodes an expression whose parts nest no deeper than `depth`. -/
def exprWithin (d : Document) : Nat → ExprDecoder
  | 0, _ => .error (.of .endless)
  | depth + 1, n => exprStep d (exprWithin d depth) n

/-! ### Declarations -/

/-- Decodes a field. -/
def fieldDocOf (f : FieldDoc) : Except Failure Field := do
  if f.name = "" then malformed "field without name"
  else
    let ty ← typeOf ("field " ++ f.name) f.type
    let attrs ← locate ("field " ++ inMessage f.name) (attrsOf f.attrs)
    pure { name := f.name, ty := ty, pub := f.pub, attrs := attrs }

/-- Decodes a variant. -/
def variantOf (v : VariantDoc) : Except Failure Variant := do
  let types ← v.types.mapM (typeOf ("variant " ++ v.name))
  let attrs ← locate ("variant " ++ inMessage v.name) (attrsOf v.attrs)
  pure { name := v.name, types := types, attrs := attrs }

/-- Decodes a self parameter. -/
def receiverOf (text : String) : Except Failure Receiver :=
  match " ".intercalate (Text.words text) with
  | "self" => .ok {}
  | "mut self" => .ok { mutable := true }
  | "&self" => .ok { ref := true }
  | "&mut self" => .ok { ref := true, mutable := true }
  | "& mut self" => .ok { ref := true, mutable := true }
  | _ => malformed ("receiver " ++ Text.quote text)

/-- Decodes the parameter number `i` of the function called `fn`. -/
def paramOf (fn : String) (p : ParamDoc) (i : Nat) : Except Failure Param := do
  let place (name : String) : String := "fn " ++ name ++ ": params[" ++ toString i ++ "]"
  let ty ← typeOf (place fn) p.type
  if p.pat ≠ "" then pure ⟨.raw p.pat, ty⟩
  else if p.name = "" then malformed (place (inMessage fn) ++ " has neither name nor pat")
  else pure ⟨.ident p.mutable p.name, ty⟩

/-- Decodes a function; bodies contain expressions that `expr` decodes. -/
def funcOf (expr : ExprDecoder) (d : DeclDoc) : Except Failure Func := do
  let place := "fn " ++ inMessage d.fn
  let attrs ← locate place (attrsOf d.attrs)
  let receiver ←
    if d.receiver = "" then pure none else locate place ((receiverOf d.receiver).map some)
  let params ← d.params.zipIdx.mapM fun (p, i) => paramOf d.fn p i
  let ret ←
    if d.returns = "" then pure none
    else (typeOf ("fn " ++ d.fn ++ ": returns") d.returns).map some
  let body ←
    match d.body with
    | none => pure none
    | some stmts => locate place ((blockOf expr stmts).map some)
  pure
    { name := d.fn
      pub := d.pub
      isAsync := d.isAsync
      attrs := attrs
      receiver := receiver
      params := params
      ret := ret
      body := body }

/-- Decodes the function number `i` of an impl block for the type called `self`. -/
def memberOf (expr : ExprDecoder) (self : String) (d : DeclDoc) (i : Nat) : Except Failure Func :=
  if d.fn = "" then
    malformed ("impl " ++ inMessage self ++ ": fns[" ++ toString i ++ "] is not a fn")
  else locate ("impl " ++ inMessage self) (funcOf expr d)

/-- The keys of a declaration that name its kind. -/
def DeclDoc.kinds (d : DeclDoc) : List String :=
  [d.use, d.struct, d.enum, d.impl, d.fn, d.verbatim].filter (· ≠ "")

/-- Decodes a declaration that has exactly one kind. -/
def kindDeclOf (expr : ExprDecoder) (d : DeclDoc) (attrs : List Attr) : Except Failure Decl := do
  if d.use ≠ "" then
    let p ← pathOf "use" d.use
    pure (.use { path := p, asName := d.asName, glob := d.glob })
  else if d.struct ≠ "" then
    let fields ← locate ("struct " ++ inMessage d.struct) (d.fields.mapM fieldDocOf)
    pure (.struct { name := d.struct, pub := d.pub, attrs := attrs, fields := fields })
  else if d.enum ≠ "" then
    let variants ← locate ("enum " ++ inMessage d.enum) (d.variants.mapM variantOf)
    pure (.enum { name := d.enum, pub := d.pub, attrs := attrs, variants := variants })
  else if d.impl ≠ "" then
    let trait ←
      if d.trait = "" then pure none
      else (pathOf ("impl " ++ d.impl ++ ": trait") d.trait).map some
    let fns ← d.fns.zipIdx.mapM fun (f, i) => memberOf expr d.impl f i
    pure (.impl { self := d.impl, trait := trait, attrs := attrs, fns := fns })
  else if d.fn ≠ "" then (funcOf expr d).map .func
  else pure (.verbatim d.verbatim)

/-- Decodes a declaration. -/
def declOf (expr : ExprDecoder) (d : DeclDoc) : Except Failure Decl := do
  if d.mod ≠ "" then
    .error
      { trail := ["nested module " ++ inMessage d.mod]
        cause := .unsupported
        hints := ["dump each nested module as its own file"] }
  else if d.kinds.length ≠ 1 then
    malformed ("expected exactly one of use, struct, enum, impl, fn, opaque; got " ++
      toString d.kinds.length)
  else
    let attrs ← attrsOf d.attrs
    kindDeclOf expr d attrs

/-- Decodes a declaration and adds it to a module. -/
def addDecl (expr : ExprDecoder) (m : Module) (d : DeclDoc) : Except Failure Module := do
  let decl ← declOf expr d
  settled (m.push decl)

/-- Decodes the declarations of the document at `place` from number `i` on and adds them to a
module. -/
def addDecls (expr : ExprDecoder) (place : String) (m : Module) :
    Nat → List DeclDoc → Except Failure Module
  | _, [] => .ok m
  | i, d :: ds => do
      let m ← locate (place ++ ": decls[" ++ toString i ++ "]") (addDecl expr m d)
      addDecls expr place m (i + 1) ds

/-- Decodes what the schema read; the module has the stem of the file name `name` unless the
document names it. -/
def moduleOf (expr : ExprDecoder) (name : String) (f : FileDoc) : Except Failure Module := do
  let place := "decode " ++ name
  let attrs ← locate place (attrsOf f.attrs)
  addDecls expr place
    { name := if f.module = "" then SlashPath.stem name else f.module
      origin := name
      attrs := attrs }
    0 f.decls

/-- The complaint that the text of the file called `name` cannot be read. -/
def unreadable (name : String) : String := "decode " ++ name ++ ": yaml"

/-- Decodes a document from the file called `name`, with expressions that nest no deeper than
`depth`. -/
def decodeWithin (depth : Nat) (name : String) (d : Document) : Except Failure Module := do
  let f ← fitting (unreadable name) (readFile d)
  moduleOf (exprWithin d depth) name f

/-- Decodes a document from the file called `name`. -/
def decodeDocument (name : String) (d : Document) : Except Failure Module :=
  decodeWithin d.bound name d

/-- Decodes the text of the file called `name`. -/
def decode (name text : String) : Except Failure Module :=
  match Document.parse? text with
  | some d => decodeDocument name d
  | none => malformed (unreadable name)

end ClientLoom.Dump
