import ClientLoom.Text.RawByte

/-! # The order of texts

Names are sorted by their bytes.  Between characters this is the order of the characters; a byte
that is no text stands where its value puts it, and not where the character stands that holds
it. -/

namespace ClientLoom.Text

/-- The place of a text among others. -/
structure Rank where
  bytes : List UInt8
  text : String
  deriving DecidableEq

/-- The place of a text: its bytes decide, and its characters when the bytes do not. -/
def rank (s : String) : Rank := ⟨bytes s, s⟩

/-- One place is before another. -/
def Rank.before (a b : Rank) : Bool :=
  a.bytes.lex b.bytes || a.bytes == b.bytes && decide (a.text < b.text)

instance : LT Rank := ⟨fun a b => a.before b = true⟩

instance : LE Rank := ⟨fun a b => b.before a = false⟩

instance : DecidableLT Rank := fun a b => inferInstanceAs (Decidable (a.before b = true))

instance : DecidableLE Rank := fun a b => inferInstanceAs (Decidable (b.before a = false))

end ClientLoom.Text
