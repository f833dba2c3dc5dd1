/-! # Pieces of text

Cutting a text at separators and replacing a part of it.  All functions work on lists of
characters; the versions on `String` convert at the border. -/

namespace ClientLoom.Text

theorem length_dropWhile_le {α : Type} (p : α → Bool) (l : List α) :
    (l.dropWhile p).length ≤ l.length :=
  (List.dropWhile_sublist p).length_le

/-- The rest of `cs` after `pre`, when `cs` starts with `pre`. -/
def dropPrefix? : List Char → List Char → Option (List Char)
  | [], cs => some cs
  | _ :: _, [] => none
  | p :: ps, c :: cs => if p = c then dropPrefix? ps cs else none

/-- The cut of `cs` at the first occurrence of `sep`: what stands before it and what stands
after it. -/
def cutAt? (sep : List Char) : List Char → Option (List Char × List Char)
  | [] => (dropPrefix? sep []).map fun rest => ([], rest)
  | c :: cs =>
      match dropPrefix? sep (c :: cs) with
      | some rest => some ([], rest)
      | none => (cutAt? sep cs).map fun p => (c :: p.1, p.2)

/-- Whether `part` occurs in `cs`. -/
def containsChars (part cs : List Char) : Bool :=
  (cutAt? part cs).isSome

/-- Whether `part` occurs in `s`. -/
def contains (s part : String) : Bool :=
  containsChars part.toList s.toList

/-- Whether `s` ends with `tail`. -/
def endsWith (s tail : String) : Bool :=
  (dropPrefix? tail.toList.reverse s.toList.reverse).isSome

/-- Whether `s` starts with `head`. -/
def startsWith (s head : String) : Bool :=
  (dropPrefix? head.toList s.toList).isSome

/-- `s` without `tail` at its end, or `s` itself when it does not end so. -/
def stripEnd (s tail : String) : String :=
  match dropPrefix? tail.toList.reverse s.toList.reverse with
  | some rest => String.ofList rest.reverse
  | none => s

/-- `s` without the first occurrence of `part`, or `s` itself when there is none. -/
def eraseFirst (s part : String) : String :=
  match cutAt? part.toList s.toList with
  | some (before, after) => String.ofList (before ++ after)
  | none => s

/-- Splits at every occurrence of the character `sep`; there is always one piece. -/
def splitChar (sep : Char) : List Char → List (List Char)
  | [] => [[]]
  | c :: cs =>
      if c = sep then [] :: splitChar sep cs
      else
        match splitChar sep cs with
        | [] => [[c]]
        | piece :: rest => (c :: piece) :: rest

/-- The pieces of `s` between the occurrences of `sep`. -/
def split (s : String) (sep : Char) : List String :=
  (splitChar sep s.toList).map String.ofList

end ClientLoom.Text
