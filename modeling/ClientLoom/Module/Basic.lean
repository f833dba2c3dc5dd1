import ClientLoom.Decl.Printer
import ClientLoom.Failure

/-! # Modules

A module is a named list of declarations with attributes of its own.  `Module.push` adds a
declaration by the rules of its kind: imports stay together at the top and do not repeat, impl
blocks go to their type or wait for it, and a type that is declared again only hands over its
impl blocks. -/

namespace ClientLoom

/-- A named, ordered collection of declarations. -/
structure Module where
  name : Ident
  /-- the file a partial module came from; empty after several were merged -/
  origin : String := ""
  attrs : List Attr := []
  decls : List Decl := []

namespace Module

/-- Puts an import behind the last import of the list. -/
def insertUse (u : Use) : List Decl → List Decl
  | [] => [.use u]
  | d :: ds => if d.isUse || ds.any Decl.isUse then d :: insertUse u ds else .use u :: d :: ds

/-- Whether the import is in the list. -/
def hasUse (u : Use) (ds : List Decl) : Bool :=
  ds.any fun
    | .use v => v == u
    | _ => false

/-- Changes the first element that satisfies `p`. -/
def modifyFirst {α : Type} (p : α → Bool) (f : α → α) : List α → List α
  | [] => []
  | x :: xs => if p x then f x :: xs else x :: modifyFirst p f xs

/-- Whether a declaration is the struct or enum called `name`. -/
def declares (name : Ident) (d : Decl) : Bool := d.typeName? == some name

/-- The struct or enum called `name`. -/
def typeDecl? (ds : List Decl) (name : Ident) : Option Decl := ds.find? (declares name)

/-- The impl block of a declaration that waits for the type called `name`. -/
def waiting? (name : Ident) : Decl → Option Impl
  | .impl i => if i.self == name then some i else none
  | _ => none

/-- Whether a declaration is a waiting impl block for the same type and trait as `i`. -/
def waitsLike (i : Impl) : Decl → Bool
  | .impl j => j.self == i.self && j.traitKey == i.traitKey
  | _ => false

/-- Adds blocks to a type that is declared. -/
def attachTo (ds : List Decl) (name : Ident) (blocks : List Impl) : List Decl :=
  modifyFirst (declares name) (Decl.mapImpls (Impl.attachAll · blocks)) ds

/-- Appends a type that is not declared yet; the impl blocks that waited for it become its own. -/
def appendType (ds : List Decl) (name : Ident) (d : Decl) : List Decl :=
  ds.filter (fun x => (waiting? name x).isNone) ++
    [d.mapImpls (Impl.attachAll · (ds.filterMap (waiting? name)))]

/-- Adds an impl block: to its type, else to a waiting block for the same type and trait, else
as a waiting block. -/
def pushImpl (ds : List Decl) (i : Impl) : List Decl :=
  if (typeDecl? ds i.self).isSome then attachTo ds i.self [i]
  else if ds.any (waitsLike i) then
    modifyFirst (waitsLike i)
      (fun
        | .impl j => .impl (j.absorb i)
        | d => d)
      ds
  else ds ++ [.impl i]

/-- The complaint that a name is declared as two kinds of type. -/
def clash (new : Kind) (name : Ident) (old : Kind) : Failure :=
  .along [new.text ++ " " ++ inMessage name ++ " already declared as " ++ old.text] .kindClash

/-- Adds a type with its impl blocks: appended when its name is new, else its blocks go to the
type of that name, which has to be of the same kind. -/
def pushType (ds : List Decl) (name : Ident) (d : Decl) (blocks : List Impl) :
    List Decl × Except Failure Unit :=
  match typeDecl? ds name with
  | none => (appendType ds name d, .ok ())
  | some old =>
      if old.kind = d.kind then (attachTo ds name blocks, .ok ())
      else (ds, .error (clash d.kind name old.kind))

/-- Adds a declaration to a list of declarations by the rules of its kind. -/
def pushDecl (ds : List Decl) : Decl → List Decl × Except Failure Unit
  | .use u => (if hasUse u ds then ds else insertUse u ds, .ok ())
  | .struct s => pushType ds s.name (.struct s) s.impls
  | .enum e => pushType ds e.name (.enum e) e.impls
  | .impl i => (pushImpl ds i, .ok ())
  | .func f => (ds ++ [.func f], .ok ())
  | .verbatim text => (ds ++ [.verbatim text], .ok ())

/-- Adds a declaration by the rules of its kind; the module that it leaves is given whether the
declaration is refused or not. -/
def push (m : Module) (d : Decl) : Module × Except Failure Unit :=
  let (ds, result) := pushDecl m.decls d
  ({ m with decls := ds }, result)

/-- Adds declarations in order up to the first that is refused; what was added before it stays. -/
def pushAll (m : Module) : List Decl → Module × Except Failure Unit
  | [] => (m, .ok ())
  | d :: ds =>
      match m.push d with
      | (m', .ok ()) => m'.pushAll ds
      | (m', .error f) => (m', .error f)

/-! ### Looking up and taking out -/

/-- The struct of a declaration that is one with the given name. -/
def structNamed? (name : Ident) : Decl → Option Struct
  | .struct s => if s.name == name then some s else none
  | _ => none

/-- The function of a declaration that is one with the given name. -/
def funcNamed? (name : Ident) : Decl → Option Func
  | .func f => if f.name == name then some f else none
  | _ => none

/-- The struct called `name`. -/
def struct? (m : Module) (name : Ident) : Option Struct := m.decls.findSome? (structNamed? name)

/-- The free function called `name`. -/
def func? (m : Module) (name : Ident) : Option Func := m.decls.findSome? (funcNamed? name)

/-- Changes the first struct called `name`. -/
def modifyStruct (m : Module) (name : Ident) (f : Struct → Struct) : Module :=
  { m with
    decls := modifyFirst (fun d => (structNamed? name d).isSome)
      (fun
        | .struct s => .struct (f s)
        | d => d)
      m.decls }

/-- The declarations that satisfy `p`, in order. -/
def select (m : Module) (p : Decl → Bool) : List Decl := m.decls.filter p

/-- The module without the declarations that satisfy `p`. -/
def without (m : Module) (p : Decl → Bool) : Module :=
  { m with decls := m.decls.filter (!p ·) }

/-- Every function of the module, free or in an impl block, in order. -/
def funcs (m : Module) : List Func := m.decls.flatMap Decl.funcs

/-- A text that orders partial modules of one origin. -/
def fingerprint (m : Module) : String :=
  String.join (m.attrs.map fun a => a.text ++ "\n") ++
    String.join (m.decls.map fun d => d.fingerprint ++ "\n")

end Module

namespace Decl

/-- Whether the name of a declaration is `name`. -/
def isNamed (name : Ident) (d : Decl) : Bool := d.ident? == some name

/-- Whether the name of a declaration ends with `ending`; an impl block bears the name of
another item and never counts. -/
def nameEndsWith (ending : String) (d : Decl) : Bool :=
  match d with
  | .impl _ => false
  | d =>
    match d.ident? with
    | some name => Text.endsWith name ending
    | none => false

end Decl
end ClientLoom
