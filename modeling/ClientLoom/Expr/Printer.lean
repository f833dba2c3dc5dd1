import ClientLoom.Expr.Basic

/-! # Text of expressions

`Expr.text` and `Block.text` write bodies with four blanks per level.  The text is stable rather
than pretty: only nested blocks start new lines. -/

namespace ClientLoom

/-- One level of indentation. -/
def indentUnit : String := "    "

/-- The blanks in front of a line at the given depth; below zero there are none. -/
def indent (depth : Int) : String := String.join (List.replicate depth.toNat indentUnit)

/-- The type of a binding after a colon, when there is one. -/
def tyMark : Option Ty → String
  | none => ""
  | some t => ": " ++ t.text

mutual

/-- The text of an expression whose enclosing line has the given depth. -/
def Expr.textAt (depth : Int) : Expr → String
  | .path p => p.text
  | .lit text => text
  | .raw text => text
  | .field base name => base.textAt depth ++ "." ++ name
  | .call callee args => callee.textAt depth ++ "(" ++ ", ".intercalate (argTexts depth args) ++ ")"
  | .method base name args =>
      base.textAt depth ++ "." ++ name ++ "(" ++ ", ".intercalate (argTexts depth args) ++ ")"
  | .macroCall p args => p.text ++ "!(" ++ ", ".intercalate (argTexts depth args) ++ ")"
  | .construct p inits base =>
      p.text ++ " \x7b" ++ ",".intercalate (initTexts depth inits ++ baseText depth base) ++ " \x7d"
  | .ref mutable e => (if mutable then "&mut " else "&") ++ e.textAt depth
  | .attempt e => e.textAt depth ++ "?"
  | .letCond pat e => "let " ++ pat ++ " = " ++ e.textAt depth
  | .cond test yes no =>
      "if " ++ test.textAt depth ++ " \x7b\n" ++ linesText (depth + 1) yes ++
        indent depth ++ "\x7d" ++ elseText depth no
  | .block stmts => "\x7b\n" ++ linesText (depth + 1) stmts ++ indent depth ++ "\x7d"

/-- The texts of arguments. -/
def argTexts (depth : Int) : List Expr → List String
  | [] => []
  | e :: es => e.textAt depth :: argTexts depth es

/-- The texts of the entries of a struct literal, each after a blank. -/
def initTexts (depth : Int) : List FieldInit → List String
  | [] => []
  | .mk name none :: rest => (" " ++ name) :: initTexts depth rest
  | .mk name (some value) :: rest =>
      (" " ++ name ++ ": " ++ value.textAt depth) :: initTexts depth rest

/-- The text of the base of a struct literal, when there is one. -/
def baseText (depth : Int) : Option Expr → List String
  | none => []
  | some e => [" .." ++ e.textAt depth]

/-- The text of the second branch of a conditional, when there is one. -/
def elseText (depth : Int) : Option (List Stmt) → String
  | none => ""
  | some stmts => " else \x7b\n" ++ linesText (depth + 1) stmts ++ indent depth ++ "\x7d"

/-- Statements, one per line. -/
def linesText (depth : Int) : List Stmt → String
  | [] => ""
  | s :: rest => indent depth ++ s.textAt depth ++ "\n" ++ linesText depth rest

/-- The text of a statement without its indentation. -/
def Stmt.textAt (depth : Int) : Stmt → String
  | .bind pat ty value => "let " ++ pat ++ tyMark ty ++ valueText depth value ++ ";"
  | .expr e semi => e.textAt depth ++ (if semi then ";" else "")

/-- The value of a binding, when there is one. -/
def valueText (depth : Int) : Option Expr → String
  | none => ""
  | some e => " = " ++ e.textAt depth

end

/-- The text of an expression on its own. -/
def Expr.text (e : Expr) : String := e.textAt 0

/-- The statements of a block, one per line, at the given depth; the braces are not included. -/
def Block.text (depth : Int) (b : Block) : String := linesText depth b

end ClientLoom
