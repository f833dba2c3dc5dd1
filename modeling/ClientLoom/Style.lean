/-! # Styles

Text on a terminal can be coloured: a sequence of codes in front of it switches its style on and
one behind it switches the style off again. -/

namespace ClientLoom

/-- The codes of a style. -/
structure Style where
  codes : List Nat
  deriving DecidableEq, Repr

namespace Style

/-- A control sequence with the given codes. -/
def control (codes : List Nat) : String :=
  "\x1b[" ++ ";".intercalate (codes.map toString) ++ "m"

/-- The code that ends the effect of a code: weight has one of its own. -/
def ending (code : Nat) : Nat := if code = 1 || code = 2 then 22 else 0

/-- A text in a style, or the plain text when styles are off. -/
def paint (s : Style) (on : Bool) (text : String) : String :=
  if on then control s.codes ++ text ++ control (s.codes.map ending) else text

/-- Bold and cyan. -/
def boldCyan : Style := ⟨[36, 1]⟩

/-- Bold and green. -/
def boldGreen : Style := ⟨[32, 1]⟩

/-- Yellow. -/
def yellow : Style := ⟨[33]⟩

/-- Faint. -/
def faint : Style := ⟨[2]⟩

end Style
end ClientLoom
