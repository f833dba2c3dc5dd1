/-! # Blanks

The blank characters are those with the Unicode property White_Space.  `trim` removes them at
both ends of a text and `words` splits a text at runs of them. -/

namespace ClientLoom.Text

/-- The Unicode property White_Space. -/
def isBlank (c : Char) : Bool :=
  let n := c.toNat
  (9 ≤ n && n ≤ 13) || n == 0x20 || n == 0x85 || n == 0xA0 || n == 0x1680 ||
    (0x2000 ≤ n && n ≤ 0x200A) || n == 0x2028 || n == 0x2029 || n == 0x202F || n == 0x205F ||
    n == 0x3000

/-- The characters of a text without the blanks at its end. -/
def trimRight (cs : List Char) : List Char :=
  (cs.reverse.dropWhile isBlank).reverse

/-- The characters of a text without the blanks at both ends. -/
def trimChars (cs : List Char) : List Char :=
  trimRight (cs.dropWhile isBlank)

/-- A text without the blanks at both ends. -/
def trim (s : String) : String :=
  String.ofList (trimChars s.toList)

/-- Splits at runs of blanks; `word` holds the current word in reverse. -/
def wordsFrom : List Char → List Char → List String
  | [], word => if word.isEmpty then [] else [String.ofList word.reverse]
  | c :: cs, word =>
      if isBlank c then
        if word.isEmpty then wordsFrom cs [] else String.ofList word.reverse :: wordsFrom cs []
      else wordsFrom cs (c :: word)

/-- The maximal blank-free pieces of a text, in order. -/
def words (s : String) : List String :=
  wordsFrom s.toList []

end ClientLoom.Text
