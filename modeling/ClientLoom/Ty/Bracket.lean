/-! # Brackets in type text

`Bracket.symbols` lists the brackets of a text, leaving out the head of an arrow, and
`Bracket.nests` decides with a stack whether they nest.  `Bracket.balanced` is their
composition. -/

namespace ClientLoom

/-- The three kinds of brackets in type text. -/
inductive Bracket where
  | angle
  | round
  | square
  deriving DecidableEq, Repr

/-- An opening or a closing bracket. -/
inductive BracketSymbol where
  | opening (b : Bracket)
  | closing (b : Bracket)
  deriving DecidableEq, Repr

namespace Bracket

/-- The bracket that a character is. -/
def symbol? : Char → Option BracketSymbol
  | '<' => some (.opening .angle)
  | '>' => some (.closing .angle)
  | '(' => some (.opening .round)
  | ')' => some (.closing .round)
  | '[' => some (.opening .square)
  | ']' => some (.closing .square)
  | _ => none

/-- The brackets of a text in order; `>` right after `-` is an arrow and no bracket.
`dash` tells whether the character before the text is a `-`. -/
def symbolsFrom (dash : Bool) : List Char → List BracketSymbol
  | [] => []
  | c :: cs =>
      let rest := symbolsFrom (c == '-') cs
      if dash && c == '>' then rest
      else
        match symbol? c with
        | some s => s :: rest
        | none => rest

/-- The brackets of a text in order, without the heads of arrows. -/
def symbols (cs : List Char) : List BracketSymbol := symbolsFrom false cs

/-- Whether the symbols close exactly the brackets on the stack, innermost first, and those they
open themselves. -/
def nests : List Bracket → List BracketSymbol → Bool
  | stack, [] => stack.isEmpty
  | stack, .opening b :: rest => nests (b :: stack) rest
  | [], .closing _ :: _ => false
  | top :: stack, .closing b :: rest => top == b && nests stack rest

/-- Whether the brackets of a text nest. -/
def balanced (cs : List Char) : Bool := nests [] (symbols cs)

end Bracket
end ClientLoom
