import ClientLoom.Text.RawByte

/-! # Base 64

Reading of bytes that are written with 64 characters, four for three bytes.  Line breaks do not
count, and signs of equality fill up the last four. -/

namespace ClientLoom.Text.Base64

/-- The value of a character. -/
def value? (c : Char) : Option Nat :=
  if 'A' ≤ c ∧ c ≤ 'Z' then some (c.toNat - 'A'.toNat)
  else if 'a' ≤ c ∧ c ≤ 'z' then some (c.toNat - 'a'.toNat + 26)
  else if '0' ≤ c ∧ c ≤ '9' then some (c.toNat - '0'.toNat + 52)
  else if c = '+' then some 62
  else if c = '/' then some 63
  else none

/-- The first `n` bytes that four characters stand for. -/
def group? (n : Nat) (a b c d : Char) : Option (List UInt8) := do
  let a ← value? a
  let b ← value? b
  let c ← value? c
  let d ← value? d
  let x := ((a * 64 + b) * 64 + c) * 64 + d
  pure ([x / 65536, x / 256, x].map UInt8.ofNat |>.take n)

/-- The bytes of characters without line breaks. -/
def bytes? : List Char → Option (List UInt8)
  | [] => some []
  | [a, b, '=', '='] => group? 1 a b 'A' 'A'
  | [a, b, c, '='] => group? 2 a b c 'A'
  | a :: b :: c :: d :: rest => do
      let first ← group? 3 a b c d
      let more ← bytes? rest
      pure (first ++ more)
  | _ => none

/-- The text that a text stands for. -/
def decode? (s : String) : Option String :=
  (bytes? (s.toList.filter fun c => c != '\n' && c != '\r')).map ofBytes

end ClientLoom.Text.Base64
