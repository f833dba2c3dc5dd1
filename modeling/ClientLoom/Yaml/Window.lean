/-! # Loading a text

A text is loaded in pieces of at most 512 bytes, each when one of its characters is asked for.  A
character that is not allowed spoils the document only when its piece is loaded, so what stands
far behind the document does not matter.  Loading drops what was read before; `Window` remembers
whether what is left starts with a byte order mark. -/

namespace ClientLoom.Yaml

/-- Whether a character may occur in a document. -/
def isAllowed (c : Char) : Bool :=
  let n := c.toNat
  n == 9 || n == 10 || n == 13 || (0x20 ≤ n && n ≤ 0x7E) || n == 0x85 ||
    (0xA0 ≤ n && n ≤ 0xFFFD) || 0x10000 ≤ n

/-- The byte order mark. -/
def byteOrderMark : Char := '\uFEFF'

/-- A piece of a text: the index behind its last character, and whether all its characters are
allowed. -/
structure Piece where
  stop : Nat
  clean : Bool

/-- The most bytes of a piece. -/
def pieceSize : Nat := 512

/-- Cuts a text into pieces.  The first has room for `room` more bytes, ends at `stop` so far and
is clean or not. -/
def piecesFrom (room stop : Nat) (clean : Bool) : List Char → List Piece
  | [] => [⟨stop, clean⟩]
  | c :: cs =>
      if c.utf8Size ≤ room then
        piecesFrom (room - c.utf8Size) (stop + 1) (clean && isAllowed c) cs
      else ⟨stop, clean⟩ :: piecesFrom (pieceSize - c.utf8Size) (stop + 1) (isAllowed c) cs

/-- What is loaded of a text. -/
structure Window where
  /-- the characters before this index are loaded -/
  loaded : Nat := 0
  /-- the pieces that are not loaded yet -/
  ahead : List Piece := []
  /-- what is loaded and not dropped starts with a byte order mark -/
  marked : Bool := false
  /-- a piece that is not clean was loaded -/
  spoilt : Bool := false

namespace Window

/-- The window of a text of which nothing is loaded; `skipped` bytes in front of it count for the
first piece. -/
def ofText (skipped : Nat) (cs : List Char) : Window :=
  { ahead := piecesFrom (pieceSize - skipped) 0 true cs }

/-- Loads pieces up to an index.  Behind the end of the text there is one place at a time. -/
def loadPieces (index : Nat) (w : Window) : List Piece → Window
  | [] => { w with loaded := w.loaded + 1, ahead := [] }
  | p :: ps =>
      let w := { w with loaded := p.stop, ahead := ps, spoilt := w.spoilt || !p.clean }
      if index ≤ p.stop || w.spoilt then w else loadPieces index w ps

/-- Loads what stands before an index; `marked` tells whether the byte order mark is the next
character. -/
def loadTo (index : Nat) (marked : Bool) (w : Window) : Window :=
  if index ≤ w.loaded then w else loadPieces index { w with marked := marked } w.ahead

end Window
end ClientLoom.Yaml
