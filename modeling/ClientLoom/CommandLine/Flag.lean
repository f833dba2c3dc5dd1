import ClientLoom.Failure
import ClientLoom.Text.Numeral
import ClientLoom.Text.Quoted
import ClientLoom.Text.Split

/-! # Flags

The arguments of a program are flags with their values and words.  `Flag.parse` reads them for
the flags that a command knows. -/

namespace ClientLoom
namespace CommandLine

/-- What kind of value a flag takes. -/
inductive Flag.Kind where
  | text
  | number
  /-- on or off; on when no value is given -/
  | switch
  /-- one more when no value is given -/
  | count
  deriving DecidableEq, Repr

/-- A flag. -/
structure Flag where
  name : String
  /-- the letter for a flag that needs no value -/
  short : Option Char := none
  kind : Flag.Kind := .text
  deriving DecidableEq, Repr

/-- The value of a flag. -/
inductive Flag.Value where
  | text (s : String)
  | number (n : Int)
  | switch (on : Bool)
  deriving DecidableEq, Repr

/-- What was read: the values of the flags that were given, and the words. -/
structure Given where
  values : List (String × Flag.Value) := []
  words : List String := []
  deriving DecidableEq, Repr

namespace Given

/-- Sets the value of a flag. -/
def set (g : Given) (name : String) (v : Flag.Value) : Given :=
  { g with values := (name, v) :: g.values.filter (·.1 != name) }

/-- The text of a flag, when it was given. -/
def text? (g : Given) (name : String) : Option String :=
  match g.values.lookup name with
  | some (.text s) => some s
  | _ => none

/-- The number of a flag, when it was given. -/
def number? (g : Given) (name : String) : Option Int :=
  match g.values.lookup name with
  | some (.number n) => some n
  | _ => none

/-- Whether a switch is on. -/
def isOn (g : Given) (name : String) : Bool := g.values.lookup name == some (.switch true)

end Given

/-- A complaint about the arguments. -/
def complaint {α : Type} (text : String) : Except Failure α := .error (.of (.usage text))

namespace Flag

/-- What a flag without a value is set to, when it needs none. -/
def Kind.implied? : Kind → Option String
  | .switch => some "true"
  | .count => some "+1"
  | _ => none

/-- How a flag is called in complaints. -/
def label (f : Flag) : String :=
  match f.short with
  | none => "--" ++ f.name
  | some c => "-" ++ String.singleton c ++ ", --" ++ f.name

/-- Whether a text is on or off. -/
def truth? (s : String) : Option Bool :=
  if ["1", "t", "T", "TRUE", "true", "True"].contains s then some true
  else if ["0", "f", "F", "FALSE", "false", "False"].contains s then some false
  else none

/-- The value that a text gives to a flag, or what is wrong with it. -/
def value (f : Flag) (g : Given) (s : String) : Except String Value :=
  match f.kind with
  | .text => .ok (.text s)
  | .switch =>
    match truth? s with
    | some b => .ok (.switch b)
    | none => .error ("strconv.ParseBool: parsing " ++ Text.quote s ++ ": invalid syntax")
  | kind =>
    if kind = .count && s = "+1" then .ok (.number ((g.number? f.name).getD 0 + 1))
    else
      match Text.Numeral.parse s with
      | .ok n => .ok (.number n)
      | .error e => .error ("strconv.ParseInt: parsing " ++ Text.quote s ++ ": " ++ e.message)

/-- Gives a value to a flag. -/
def assign (f : Flag) (s : String) (g : Given) : Except Failure Given :=
  match f.value g s with
  | .ok v => .ok (g.set f.name v)
  | .error cause =>
      complaint ("invalid argument " ++ Text.quote s ++ " for " ++ Text.quote f.label ++
        " flag: " ++ cause)

/-- A character between single quotes; of a character beyond ASCII only the first byte counts. -/
def quotedChar (c : Char) : String :=
  let byte := Char.ofNat ((String.singleton c).toUTF8.toList.headD 0).toNat
  let inner :=
    if byte = '\'' then ['\\', '\''] else if byte = '"' then ['"'] else Text.quoteChar byte
  "'" ++ String.ofList inner ++ "'"

/-- Reads letters that stand together behind one hyphen.  Letters from `test.` on are meant for
another program and are passed over. -/
def shorts (flags : List Flag) : List Char → Given → Except Failure Given
  | [], g => .ok g
  | c :: rest, g =>
      if (Text.dropPrefix? "test.".toList (c :: rest)).isSome then .ok g
      else
        match flags.find? (·.short == some c) with
        | none =>
            complaint ("unknown shorthand flag: " ++ quotedChar c ++ " in -" ++
              String.ofList (c :: rest))
        | some f =>
          match rest with
          | '=' :: d :: more => f.assign (String.ofList (d :: more)) g
          | _ => do
              let g ← f.assign (f.kind.implied?.getD "") g
              shorts flags rest g

/-- What stands behind two hyphens: a name and, behind an equals sign, a value. -/
def longParts (cs : List Char) : String × Option String :=
  match Text.cutAt? ['='] cs with
  | some (name, value) => (String.ofList name, some (String.ofList value))
  | none => (String.ofList cs, none)

/-- Reads arguments. -/
def parse (flags : List Flag) (args : List String) (g : Given) : Except Failure Given :=
  match args with
  | [] => .ok g
  | s :: rest =>
    match s.toList with
    | ['-', '-'] => .ok { g with words := g.words ++ rest }
    | '-' :: '-' :: cs =>
        if cs.head? = some '-' || cs.head? = some '=' then complaint ("bad flag syntax: " ++ s)
        else
          match longParts cs with
          | (name, given) =>
            match flags.find? (·.name == name) with
            | none => complaint ("unknown flag: --" ++ name)
            | some f =>
              match given, f.kind.implied?, rest with
              | some v, _, rest => do
                  let g ← f.assign v g
                  parse flags rest g
              | none, some v, rest => do
                  let g ← f.assign v g
                  parse flags rest g
              | none, none, v :: rest => do
                  let g ← f.assign v g
                  parse flags rest g
              | none, none, [] => complaint ("flag needs an argument: --" ++ name)
    | '-' :: c :: cs => do
        let g ← shorts flags (c :: cs) g
        parse flags rest g
    | _ => parse flags rest { g with words := g.words ++ [s] }
termination_by args.length

end Flag
end CommandLine
end ClientLoom
