import ClientLoom.Attr
import ClientLoom.Expr.Basic

/-! # Declarations

The declarations of a module: structs and enums with their impl blocks, functions, impl blocks
that wait for their type, imports, and items kept as text. -/

namespace ClientLoom

/-- A named field of a struct. -/
structure Field where
  name : Ident
  ty : Ty
  pub : Bool := false
  attrs : List Attr := []

/-- The self parameter of a method. -/
structure Receiver where
  ref : Bool := false
  mutable : Bool := false
  deriving DecidableEq

/-- The pattern of a parameter. -/
inductive Pattern where
  /-- a plain name, mutable or not -/
  | ident (mutable : Bool) (name : Ident)
  /-- any other pattern, as it is written -/
  | raw (text : String)
  deriving DecidableEq

/-- The name that a pattern is, when it is a plain one. -/
def Pattern.plain? : Pattern → Option Ident
  | .ident _ name => if name = "" then none else some name
  | .raw _ => none

/-- A parameter of a function. -/
structure Param where
  pat : Pattern
  ty : Ty

/-- A function or a method.  Without a return type it returns the unit type. -/
structure Func where
  name : Ident
  pub : Bool := false
  isAsync : Bool := false
  attrs : List Attr := []
  receiver : Option Receiver := none
  params : List Param := []
  ret : Option Ty := none
  body : Option Block := none

/-- An impl block for the type called `self`; without a trait it is the inherent one. -/
structure Impl where
  self : Ident
  trait : Option Path := none
  attrs : List Attr := []
  fns : List Func := []

/-- A record type with its impl blocks. -/
structure Struct where
  name : Ident
  pub : Bool := false
  attrs : List Attr := []
  fields : List Field := []
  impls : List Impl := []

/-- A variant of an enum with the types it carries. -/
structure Variant where
  name : Ident
  types : List Ty := []
  attrs : List Attr := []

/-- A sum type with its impl blocks. -/
structure Enum where
  name : Ident
  pub : Bool := false
  attrs : List Attr := []
  variants : List Variant := []
  impls : List Impl := []

/-- An import; an empty `asName` leaves the name as it is. -/
structure Use where
  path : Path
  asName : Ident := ""
  glob : Bool := false
  deriving DecidableEq

/-- A declaration of a module. -/
inductive Decl where
  | struct (s : Struct)
  | enum (e : Enum)
  | func (f : Func)
  | impl (i : Impl)
  | use (u : Use)
  /-- an item that is never looked into -/
  | verbatim (text : String)

instance : Inhabited Decl := ⟨.verbatim ""⟩

/-- The kinds of declarations. -/
inductive Kind where
  | struct
  | enum
  | func
  | impl
  | use
  | verbatim
  deriving DecidableEq, Repr

namespace Kind

/-- The kinds in their fixed order. -/
def all : List Kind := [.struct, .enum, .func, .impl, .use, .verbatim]

/-- The word for a kind. -/
def text : Kind → String
  | .struct => "struct"
  | .enum => "enum"
  | .func => "fn"
  | .impl => "impl"
  | .use => "use"
  | .verbatim => "opaque"

/-- The kind that a word stands for. -/
def ofText? (s : String) : Option Kind := all.find? (·.text == s)

/-- The word for the kind with the given number; numbers of no kind are shown as such. -/
def describe (n : UInt8) : String :=
  match all[n.toNat]? with
  | some k => k.text
  | none => "Kind(" ++ toString n.toNat ++ ")"

end Kind

namespace Field

/-- Removes every attribute called `name`. -/
def dropAttrs (f : Field) (name : Ident) : Field :=
  { f with attrs := f.attrs.filter (·.name != name) }

/-- The number of attributes called `name`. -/
def countAttrs (f : Field) (name : Ident) : Nat := f.attrs.countP (·.name == name)

end Field

namespace Impl

/-- Identifies a block among the impl blocks of one type; empty for the inherent one. -/
def traitKey (i : Impl) : String :=
  match i.trait with
  | none => ""
  | some p => p.text

/-- The function called `name`. -/
def fn? (i : Impl) (name : Ident) : Option Func := i.fns.find? (·.name == name)

/-- Appends a function unless one of its name is there. -/
def addFn (i : Impl) (f : Func) : Impl :=
  if (i.fn? f.name).isSome then i else { i with fns := i.fns ++ [f] }

/-- Appends the functions of `other` whose names are not there yet. -/
def absorb (i other : Impl) : Impl := other.fns.foldl addFn i

/-- The block with the given trait key among the blocks of a type. -/
def findKey? (blocks : List Impl) (key : String) : Option Impl :=
  blocks.find? (·.traitKey == key)

/-- Adds a block to the blocks of a type: it is absorbed by the block with the same trait, or
appended when there is none. -/
def attach : List Impl → Impl → List Impl
  | [], new => [new]
  | block :: rest, new =>
      if block.traitKey == new.traitKey then block.absorb new :: rest
      else block :: attach rest new

/-- Adds blocks in order. -/
def attachAll (blocks more : List Impl) : List Impl := more.foldl attach blocks

end Impl

namespace Struct

/-- The first field called `name`. -/
def field? (s : Struct) (name : Ident) : Option Field := s.fields.find? (·.name == name)

/-- Removes every field with one of the names. -/
def removeFields (s : Struct) (names : List Ident) : Struct :=
  { s with fields := s.fields.filter (!names.contains ·.name) }

end Struct

namespace Decl

/-- The kind of a declaration. -/
def kind : Decl → Kind
  | .struct _ => .struct
  | .enum _ => .enum
  | .func _ => .func
  | .impl _ => .impl
  | .use _ => .use
  | .verbatim _ => .verbatim

/-- The name a declaration is looked up by; an impl block has the name of its type. -/
def ident? : Decl → Option Ident
  | .struct s => some s.name
  | .enum e => some e.name
  | .func f => some f.name
  | .impl i => some i.self
  | .use _ => none
  | .verbatim _ => none

/-- The name of a struct or an enum. -/
def typeName? : Decl → Option Ident
  | .struct s => some s.name
  | .enum e => some e.name
  | _ => none

/-- Whether a declaration is an import. -/
def isUse : Decl → Bool
  | .use _ => true
  | _ => false

/-- Changes the impl blocks of a struct or an enum. -/
def mapImpls (f : List Impl → List Impl) : Decl → Decl
  | .struct s => .struct { s with impls := f s.impls }
  | .enum e => .enum { e with impls := f e.impls }
  | d => d

/-- The functions of a declaration in order: the function itself, or those of its impl blocks. -/
def funcs : Decl → List Func
  | .struct s => s.impls.flatMap (·.fns)
  | .enum e => e.impls.flatMap (·.fns)
  | .func f => [f]
  | .impl i => i.fns
  | .use _ => []
  | .verbatim _ => []

end Decl
end ClientLoom
