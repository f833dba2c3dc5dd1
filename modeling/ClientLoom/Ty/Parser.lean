import ClientLoom.Ty.Basic
import ClientLoom.Ty.Token

/-! # Reading types

`Ty.parse` reads type text.  Text with brackets that do not nest is refused; text outside the
supported forms (trait objects, function pointers, arrays with a length, lifetimes) is kept as
`Ty.raw`. -/

namespace ClientLoom.Ty

/-- Why a text is not a type. -/
inductive Error where
  /-- nothing but blanks -/
  | empty
  /-- brackets that do not nest -/
  | unbalanced (text : String)
  deriving DecidableEq, Repr

/-- The complaint about a text that is not a type. -/
def Error.message : Error → String
  | .empty => "empty type"
  | .unbalanced text => "unbalanced brackets in type " ++ Text.quote text

/-- The segments of a path after its first one, and the tokens that follow. -/
def scopeTail? : List Token → Option (List Ident × List Token)
  | .scope :: .word w :: ts =>
      if Token.isName w then (scopeTail? ts).map fun r => (String.ofList w :: r.1, r.2) else none
  | .scope :: _ => none
  | ts => some ([], ts)

mutual

/-- One type at the front of the tokens, and the tokens that follow.  The first argument bounds
the nesting of calls. -/
def read? : Nat → List Token → Option (Ty × List Token)
  | 0, _ => none
  | fuel + 1, ts =>
    match ts with
    | .amp :: .word ['m', 'u', 't'] :: ts =>
        (read? fuel ts).map fun r => (.ref true r.1, r.2)
    | .amp :: ts => (read? fuel ts).map fun r => (.ref false r.1, r.2)
    | .bracket (.opening .round) :: ts =>
        (readItems? fuel .round ts).map fun r => (.tuple r.1, r.2)
    | .bracket (.opening .square) :: ts =>
        match read? fuel ts with
        | some (elem, .bracket (.closing .square) :: ts) => some (.slice elem, ts)
        | _ => none
    | .word w :: ts =>
        if Token.isName w && !Token.isReserved w then
          match scopeTail? ts with
          | some (segs, .bracket (.opening .angle) :: ts) =>
              match readItems? fuel .angle ts with
              | some (_, .scope :: _) => none
              | some (args, ts) => some (.path ⟨String.ofList w :: segs⟩ args, ts)
              | none => none
          | some (segs, ts) => some (.path ⟨String.ofList w :: segs⟩ [], ts)
          | none => none
        else none
    | _ => none

/-- The types up to the closing bracket, separated by commas; one comma may stand before the
bracket. -/
def readItems? : Nat → Bracket → List Token → Option (List Ty × List Token)
  | 0, _, _ => none
  | fuel + 1, b, ts =>
    if ts.head? = some (.bracket (.closing b)) then some ([], ts.tail)
    else
      match read? fuel ts with
      | some (item, .comma :: ts) =>
          (readItems? fuel b ts).map fun r => (item :: r.1, r.2)
      | some (item, ts) =>
          if ts.head? = some (.bracket (.closing b)) then some ([item], ts.tail) else none
      | none => none

end

/-- The type that the tokens spell from first to last. -/
def ofTokens? (ts : List Token) : Option Ty :=
  match read? (2 * ts.length + 2) ts with
  | some (t, []) => some t
  | _ => none

/-- Reads a type. -/
def parse (s : String) : Except Error Ty :=
  let cs := Text.trimChars s.toList
  if cs.isEmpty then .error .empty
  else if Bracket.balanced cs then
    .ok (((Token.scan? cs).bind ofTokens?).getD (.raw (String.ofList cs)))
  else .error (.unbalanced (String.ofList cs))

end ClientLoom.Ty
