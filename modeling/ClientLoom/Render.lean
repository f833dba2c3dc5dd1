import ClientLoom.SourceFile

/-! # Rendered source

`SourceFile.render` writes a source file as text: a header, then its modules with their
declarations.  Declarations are set apart by an empty line, except imports that follow each
other. -/

namespace ClientLoom

/-- Attributes, one per line, at the given depth. -/
def attrLines (depth : Int) (attrs : List Attr) : String :=
  String.join (attrs.map fun a => indent depth ++ a.text ++ "\n")

/-- The word in front of what is public. -/
def pubMark (pub : Bool) : String := if pub then "pub " else ""

/-- A function whose head stands at the given depth, without the line break at its end. -/
def Func.render (depth : Int) (f : Func) : String :=
  attrLines depth f.attrs ++ indent depth ++ f.signature ++
    match f.body with
    | none => ";"
    | some b => " \x7b\n" ++ Block.text (depth + 1) b ++ indent depth ++ "\x7d"

/-- An impl block. -/
def Impl.render (i : Impl) : String :=
  attrLines 0 i.attrs ++ "impl " ++
    (match i.trait with
      | none => ""
      | some p => p.text ++ " for ") ++
    i.self ++ " \x7b\n" ++ "\n".intercalate (i.fns.map fun f => f.render 1 ++ "\n") ++ "\x7d"

/-- Impl blocks behind their type. -/
def renderImpls (impls : List Impl) : String :=
  String.join (impls.map fun i => "\n\n" ++ i.render)

/-- A field of a struct. -/
def Field.render (f : Field) : String :=
  attrLines 1 f.attrs ++ indent 1 ++ pubMark f.pub ++ f.name ++ ": " ++ f.ty.text ++ ",\n"

/-- A variant of an enum. -/
def Variant.render (v : Variant) : String :=
  attrLines 1 v.attrs ++ indent 1 ++ v.name ++
    (if v.types.isEmpty then "" else "(" ++ ", ".intercalate (Ty.texts v.types) ++ ")") ++ ",\n"

/-- A declaration, without the line break at its end. -/
def Decl.render : Decl → String
  | .struct s =>
      attrLines 0 s.attrs ++ pubMark s.pub ++ "struct " ++ s.name ++ " \x7b\n" ++
        String.join (s.fields.map Field.render) ++ "\x7d" ++ renderImpls s.impls
  | .enum e =>
      attrLines 0 e.attrs ++ pubMark e.pub ++ "enum " ++ e.name ++ " \x7b\n" ++
        String.join (e.variants.map Variant.render) ++ "\x7d" ++ renderImpls e.impls
  | .func f => f.render 0
  | .impl i => i.render
  | .use u => "use " ++ u.target ++ ";"
  | .verbatim text => text

namespace Module

/-- Declarations in order; `prev` is the one before them. -/
def renderDecls (prev : Option Decl) : List Decl → String
  | [] => ""
  | d :: ds =>
      (if prev.all fun p => p.isUse && d.isUse then "" else "\n") ++ d.render ++ "\n" ++
        renderDecls (some d) ds

/-- A module. -/
def render (m : Module) : String :=
  attrLines 0 m.attrs ++ "pub mod " ++ m.name ++ " \x7b\n" ++ renderDecls none m.decls ++ "\x7d\n"

end Module

/-- A source file; the version goes into its header unless it is empty. -/
def SourceFile.render (version : String) (f : SourceFile) : String :=
  "// Code generated by restitch" ++ (if version = "" then "" else " " ++ version) ++
    ". DO NOT EDIT.\n// Unit: " ++ f.name ++ "\n" ++ attrLines 0 f.attrs ++
    String.join (f.modules.map fun m => "\n" ++ m.render)

end ClientLoom
