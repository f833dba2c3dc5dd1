import ClientLoom.Text.Printable
import ClientLoom.Text.RawByte

/-! # Quoted text

`quote` writes a text between double quotes on one line: quotes and backslashes are escaped,
control characters get their short or hexadecimal escape, characters without a visible form are
written as `\u` or `\U` escapes, and a byte that is no text as a `\x` escape. -/

namespace ClientLoom.Text

/-- The last `width` hexadecimal digits of `n`, in lower case. -/
def hexDigits : Nat → Nat → List Char
  | 0, _ => []
  | width + 1, n => hexDigits width (n / 16) ++ [Nat.digitChar (n % 16)]

/-- The quoted form of one character. -/
def quoteChar (c : Char) : List Char :=
  match c with
  | '"' => ['\\', '"']
  | '\\' => ['\\', '\\']
  | '\n' => ['\\', 'n']
  | '\r' => ['\\', 'r']
  | '\t' => ['\\', 't']
  | c =>
    let n := c.toNat
    if let some b := rawByte? c then '\\' :: 'x' :: hexDigits 2 b.toNat
    else if isPrintable c then [c]
    else if n == 7 then ['\\', 'a']
    else if n == 8 then ['\\', 'b']
    else if n == 11 then ['\\', 'v']
    else if n == 12 then ['\\', 'f']
    else if n < 0x20 || n == 0x7F then '\\' :: 'x' :: hexDigits 2 n
    else if n < 0x10000 then '\\' :: 'u' :: hexDigits 4 n
    else '\\' :: 'U' :: hexDigits 8 n

/-- A text between double quotes, with everything that is not printable escaped. -/
def quote (s : String) : String :=
  String.ofList ('"' :: (s.toList.flatMap quoteChar ++ ['"']))

end ClientLoom.Text
