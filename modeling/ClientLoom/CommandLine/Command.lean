import ClientLoom.CommandLine.Flag
import ClientLoom.Text.Lower

/-! # Commands

The first word among the arguments names a command.  Which word is the first depends on the
flags before it, since a flag may take the next argument as its value. -/

namespace ClientLoom
namespace CommandLine

/-- The commands. -/
inductive Command where
  /-- the program without a command -/
  | main
  | generate
  | version
  | help
  | completion
  deriving DecidableEq, Repr

namespace Command

/-- The commands that a word can name, in the order in which they are suggested. -/
def named : List Command := [.generate, .version, .help, .completion]

/-- The name of a command. -/
def name : Command → String
  | .main => "restitch"
  | .generate => "generate"
  | .version => "version"
  | .help => "help"
  | .completion => "completion"

/-- A command with the program in front of it. -/
def path : Command → String
  | .main => name .main
  | c => name .main ++ " " ++ c.name

/-- The flag for help, which every command has. -/
def helpFlag : Flag := { name := "help", short := some 'h', kind := .switch }

/-- The flag that tells whether output is coloured, which every command has. -/
def colourFlag : Flag := { name := "color" }

/-- The flags of a command.  Without a command the version can be asked for, if there is one. -/
def flags (version : String) : Command → List Flag
  | .main =>
      [colourFlag, helpFlag] ++
        (if version = "" then [] else [{ name := "version", short := some 'v', kind := .switch }])
  | .generate =>
      [ colourFlag, helpFlag, { name := "config" }, { name := "input" }, { name := "archive" },
        { name := "output" }, { name := "jobs", kind := .number },
        { name := "json-logs", kind := .switch },
        { name := "verbose", short := some 'v', kind := .count } ]
  | _ => [colourFlag, helpFlag]

end Command

/-! ### Finding the command -/

/-- Whether an argument is a flag that takes the next argument as its value, as long as nothing
is known about it. -/
def takesNext (s : String) : Bool :=
  (Text.startsWith s "--" || (Text.startsWith s "-" && s.utf8ByteSize = 2)) && !Text.contains s "="

/-- The words among the arguments.  A flag that takes the last argument but one ends them. -/
def words : List String → List String
  | [] => []
  | s :: rest =>
      if s = "--" then []
      else if takesNext s then
        match rest with
        | _ :: next :: rest => words (next :: rest)
        | _ => []
      else if s ≠ "" && !Text.startsWith s "-" then s :: words rest
      else words rest

/-- The arguments without the first that is the given word. -/
def withoutWord (word : String) : List String → List String
  | [] => []
  | s :: rest =>
      if s = "--" then s :: rest
      else if takesNext s then
        match rest with
        | [] => [s]
        | v :: rest => s :: v :: withoutWord word rest
      else if s = word then rest
      else s :: withoutWord word rest

/-! ### Suggestions -/

/-- The next row of the table of distances: from the row for a text to the row for the text and
one more byte.  The numbers of a row belong to the beginnings of `bs`. -/
def nextRow (b : UInt8) (bs : List UInt8) (row : List Nat) : List Nat :=
  go (row.headD 0 + 1) bs row
where
  /-- The rest of the row, behind the number to the left. -/
  go (left : Nat) : List UInt8 → List Nat → List Nat
    | c :: cs, diagonal :: above :: row =>
        left ::
          go (if b = c then diagonal else 1 + min diagonal (min above left)) cs (above :: row)
    | _, _ => [left]

/-- The number of bytes to insert, remove or replace that turns one text into the other. -/
def distance (s t : String) : Nat :=
  let bs := t.toUTF8.toList
  (s.toUTF8.toList.foldl (fun row b => nextRow b bs row) (List.range (bs.length + 1))).getLastD 0

/-- Whether a word may have been meant for a command: it is close to its name or starts it. -/
def isClose (word : String) (c : Command) : Bool :=
  let word := Text.lowerCase word
  c != .help && (distance word c.name ≤ 2 || Text.startsWith c.name word)

/-- What is said about commands that may have been meant. -/
def suggestions (word : String) : String :=
  match Command.named.filter (isClose word) with
  | [] => ""
  | cs => "\n\nDid you mean this?\n" ++ String.join (cs.map fun c => "\t" ++ c.name ++ "\n")

/-- The command that the arguments name, and the arguments without its name. -/
def find (args : List String) : Except Failure (Command × List String) :=
  match words args with
  | [] => .ok (.main, args)
  | word :: _ =>
    match Command.named.find? (·.name == word) with
    | some c => .ok (c, withoutWord word args)
    | none =>
        complaint ("unknown command " ++ Text.quote word ++ " for " ++
          Text.quote Command.main.path ++ suggestions word)

end CommandLine
end ClientLoom
