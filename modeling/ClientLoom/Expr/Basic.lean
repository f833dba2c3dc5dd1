import ClientLoom.Ty.Basic

/-! # Expressions and statements

Function bodies.  A block is a list of statements; expressions contain blocks and statements
contain expressions, so the types are declared together. -/

namespace ClientLoom

mutual

/-- An expression in a function body. -/
inductive Expr where
  /-- a local, a constant or an item -/
  | path (p : Path)
  /-- a literal as it is written -/
  | lit (text : String)
  /-- `base.name` -/
  | field (base : Expr) (name : Ident)
  /-- `callee(args)` -/
  | call (callee : Expr) (args : List Expr)
  /-- `base.name(args)` -/
  | method (base : Expr) (name : Ident) (args : List Expr)
  /-- `p!(args)` -/
  | macroCall (p : Path) (args : List Expr)
  /-- `p { inits, ..base }` -/
  | construct (p : Path) (inits : List FieldInit) (base : Option Expr)
  /-- `&e` or `&mut e` -/
  | ref (mutable : Bool) (e : Expr)
  /-- `e?` -/
  | attempt (e : Expr)
  /-- `let pat = e`, the head of a conditional -/
  | letCond (pat : String) (e : Expr)
  /-- `if test { yes } else { no }` -/
  | cond (test : Expr) (yes : List Stmt) (no : Option (List Stmt))
  /-- a nested block -/
  | block (stmts : List Stmt)
  /-- text outside the supported forms -/
  | raw (text : String)

/-- One entry of a struct literal; without a value it is the shorthand `name`. -/
inductive FieldInit where
  | mk (name : Ident) (value : Option Expr)

/-- A statement. -/
inductive Stmt where
  /-- `let pat: ty = value;` -/
  | bind (pat : String) (ty : Option Ty) (value : Option Expr)
  /-- an expression, followed by a semicolon or not -/
  | expr (e : Expr) (semi : Bool)

end

instance : Inhabited Expr := ⟨.raw ""⟩

/-- The name of an entry. -/
def FieldInit.name : FieldInit → Ident
  | .mk name _ => name

/-- Statements in order. -/
abbrev Block := List Stmt

end ClientLoom
