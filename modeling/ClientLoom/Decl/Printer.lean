import ClientLoom.Decl.Basic
import ClientLoom.Expr.Printer

/-! # Text of declarations

`Func.signature` writes the head of a function and `Decl.fingerprint` a compact text that orders
declarations which are otherwise alike.  A fingerprint leaves out attributes, visibility of
types, payloads of variants and the bodies of functions in impl blocks. -/

namespace ClientLoom

/-- The text of a self parameter. -/
def Receiver.text (r : Receiver) : String :=
  (if r.ref then "&" else "") ++ (if r.mutable then "mut " else "") ++ "self"

/-- The text of a pattern. -/
def Pattern.text : Pattern → String
  | .ident mutable name => (if mutable then "mut " else "") ++ name
  | .raw text => text

/-- The text of a parameter. -/
def Param.text (p : Param) : String := p.pat.text ++ ": " ++ p.ty.text

namespace Func

/-- The result type after an arrow, when there is one. -/
def arrow : Option Ty → String
  | none => ""
  | some t => " -> " ++ t.text

/-- The head of a function without its body. -/
def signature (f : Func) : String :=
  (if f.pub then "pub " else "") ++ (if f.isAsync then "async " else "") ++ "fn " ++ f.name ++
    "(" ++ ", ".intercalate (f.receiver.toList.map Receiver.text ++ f.params.map Param.text) ++
    ")" ++ arrow f.ret

/-- The body of a function at the given depth; nothing without a body. -/
def bodyText (depth : Int) (f : Func) : String :=
  match f.body with
  | none => ""
  | some b => Block.text depth b

end Func

/-- The fingerprint of an impl block. -/
def Impl.fingerprint (i : Impl) : String :=
  " impl " ++ i.traitKey ++ " for " ++ i.self ++
    String.join (i.fns.map fun f => " " ++ f.signature)

/-- The text of what an import names. -/
def Use.target (u : Use) : String :=
  u.path.text ++ (if u.glob then "::*" else "") ++
    (if u.asName = "" then "" else " as " ++ u.asName)

/-- A compact text of a declaration that is used to order equals. -/
def Decl.fingerprint (d : Decl) : String :=
  d.kind.text ++ " " ++
    match d with
    | .struct s =>
        s.name ++ String.join (s.fields.map fun f => " " ++ f.name ++ ":" ++ f.ty.text) ++
          String.join (s.impls.map Impl.fingerprint)
    | .enum e =>
        e.name ++ String.join (e.variants.map fun v => " " ++ v.name) ++
          String.join (e.impls.map Impl.fingerprint)
    | .func f => f.signature ++ f.bodyText 0
    | .impl i => i.fingerprint
    | .use u => u.target
    | .verbatim text => text

end ClientLoom
