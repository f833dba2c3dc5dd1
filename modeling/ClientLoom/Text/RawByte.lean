/-! # Bytes that are no text

A text that was given as bytes may hold bytes that belong to no character.  Each of them is held
by a character of the private use area, which stands for that byte alone.  `ofBytes` reads bytes
as text and `bytes` gives them back. -/

namespace ClientLoom.Text

/-- The number that, with a byte added, is the character that holds the byte. -/
def rawBase : Nat := 0x10A400

/-- The character that holds a byte. -/
def ofRawByte (b : UInt8) : Char := Char.ofNat (rawBase + b.toNat)

/-- The byte beyond ASCII that a character holds.  The characters U+10A480 to U+10A4FF always count
as bytes, even where a text has them as characters of its own; when such a text is written, one byte
stands in the place of each.  So only of a text without any of them it can be said that it is read
again as it was written. -/
def rawByte? (c : Char) : Option UInt8 :=
  if rawBase + 0x80 ≤ c.toNat && c.toNat < rawBase + 0x100 then
    some (UInt8.ofNat (c.toNat - rawBase))
  else none

/-- Whether a character holds a byte. -/
def isRawByte (c : Char) : Bool := (rawByte? c).isSome

/-- A text with the replacement character for each byte that is no text. -/
def replaceRaw (s : String) : String :=
  s.map fun c => if isRawByte c then '\uFFFD' else c

/-- Whether a text ends with a byte that is no text. -/
def endsRaw (s : String) : Bool := s.toList.getLast?.any isRawByte

/-- The bytes of a text. -/
def bytes (s : String) : List UInt8 :=
  s.toList.flatMap fun c =>
    match rawByte? c with
    | some b => [b]
    | none => String.utf8EncodeChar c

/-! ### Reading bytes -/

/-- The number of bytes of the character whose first byte is `n`, and the bits that byte gives. -/
def leadByte? (n : Nat) : Option (Nat × Nat) :=
  if n < 0x80 then some (1, n)
  else if 0xC2 ≤ n && n < 0xE0 then some (2, n - 0xC0)
  else if 0xE0 ≤ n && n < 0xF0 then some (3, n - 0xE0)
  else if 0xF0 ≤ n && n < 0xF5 then some (4, n - 0xF0)
  else none

/-- The least code point that is written with the given number of bytes. -/
def leastOfWidth : Nat → Nat
  | 1 => 0
  | 2 => 0x80
  | 3 => 0x800
  | _ => 0x10000

/-- The character at the front of bytes, with the number of its bytes. -/
def charAtFront? (bs : List UInt8) : Option (Char × Nat) := do
  let lead ← bs.head?
  let (width, bits) ← leadByte? lead.toNat
  let more := (bs.drop 1).take (width - 1)
  if more.length + 1 < width || !more.all (fun b => 0x80 ≤ b && b < 0xC0) then none
  else
    let n := more.foldl (fun n b => n * 64 + (b.toNat - 0x80)) bits
    if leastOfWidth width ≤ n && n.isValidChar then some (Char.ofNat n, width) else none

/-- The characters of bytes, of which the first `skip` belong to a character that was read. -/
def charsFrom : List UInt8 → Nat → List Char
  | [], _ => []
  | b :: bs, 0 =>
      match charAtFront? (b :: bs) with
      | some (c, width) => c :: charsFrom bs (width - 1)
      | none => ofRawByte b :: charsFrom bs 0
  | _ :: bs, skip + 1 => charsFrom bs skip

/-- The text of bytes. -/
def ofBytes (bs : List UInt8) : String := String.ofList (charsFrom bs 0)

end ClientLoom.Text
