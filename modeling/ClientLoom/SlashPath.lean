import ClientLoom.Text.Split

/-! # File paths

Paths of files with `/` between their parts.  `SlashPath.clean` gives the shortest path that
means the same. -/

namespace ClientLoom.SlashPath

/-- Whether a path starts at the root. -/
def isAbsolute (p : String) : Bool := p.toList.head? == some '/'

/-- Resolves one part against the parts before it, the last one first. -/
def resolvePart (rooted : Bool) (done : List String) (part : String) : List String :=
  if part = "" || part = "." then done
  else if part = ".." then
    match done with
    | [] => if rooted then [] else [".."]
    | top :: rest => if top = ".." then ".." :: top :: rest else rest
  else part :: done

/-- The parts of the shortest path that means the same. -/
def parts (p : String) : List String :=
  ((Text.split p '/').foldl (resolvePart (isAbsolute p)) []).reverse

/-- The shortest path that means the same. -/
def clean (p : String) : String :=
  let text := "/".intercalate (parts p)
  if isAbsolute p then "/" ++ text
  else if text = "" then "."
  else text

/-- What stands behind the last slash. -/
def lastPart (cs : List Char) : List Char := (cs.reverse.takeWhile (· != '/')).reverse

/-- A path without the slashes at its end. -/
def trimEnd (p : String) : List Char := (p.toList.reverse.dropWhile (· == '/')).reverse

/-- The last part of a path; slashes at its end do not count. -/
def base (p : String) : String :=
  if p = "" then "."
  else if (trimEnd p).isEmpty then "/"
  else String.ofList (lastPart (trimEnd p))

/-- The last part of a path from its last dot on. -/
def extension (p : String) : String :=
  let last := lastPart p.toList
  if last.contains '.' then
    String.ofList ('.' :: (last.reverse.takeWhile (· != '.')).reverse)
  else ""

/-- The last part of a path without its extension. -/
def stem (p : String) : String := Text.stripEnd (base p) (extension p)

/-- The directory of a path. -/
def dir (p : String) : String :=
  clean (String.ofList (p.toList.reverse.dropWhile (· != '/')).reverse)

/-- A path below a directory. -/
def join (a b : String) : String :=
  if a = "" then (if b = "" then "" else clean b) else clean (a ++ "/" ++ b)

end ClientLoom.SlashPath
