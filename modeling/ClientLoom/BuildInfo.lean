/-! # Build information

The version of the program, from what its build recorded: the version of the main module, else
the start of the revision, else a word for builds that know neither. -/

namespace ClientLoom

/-- What a build recorded. -/
structure BuildInfo where
  mainVersion : String
  settings : List (String × String)

namespace BuildInfo

/-- The characters that fit into `n` bytes.  A character that the limit cuts in two leaves one
replacement character for each of its bytes. -/
def takeBytes : Nat → List Char → List Char
  | _, [] => []
  | n, c :: cs =>
      if c.utf8Size ≤ n then c :: takeBytes (n - c.utf8Size) cs else List.replicate n '\uFFFD'

/-- The first revision that is not empty. -/
def revision? (b : BuildInfo) : Option String :=
  (b.settings.find? fun s => s.1 = "vcs.revision" && s.2 != "").map (·.2)

/-- The version of a build. -/
def version (b : BuildInfo) : String :=
  if b.mainVersion ≠ "" && b.mainVersion ≠ "(devel)" then b.mainVersion
  else
    match b.revision? with
    | some r => String.ofList (takeBytes 12 r.toList)
    | none => "devel"

end BuildInfo
end ClientLoom
