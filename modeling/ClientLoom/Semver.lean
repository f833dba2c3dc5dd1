import ClientLoom.Text.Split
import ClientLoom.Width

/-! # Semantic versions

Versions such as `v1.2.3-rc.1+build`.  The parts behind the first number may be missing and
numbers may start with zeros.  `Semver.newer` compares two versions; what is built from a version
plays no part. -/

namespace ClientLoom

/-- A semantic version without what describes its build. -/
structure Semver where
  major : Nat
  minor : Nat
  patch : Nat
  /-- the parts of the pre-release; none for a release -/
  pre : List String
  deriving DecidableEq, Repr

namespace Semver

/-- Whether a character may stand in a pre-release. -/
def isPartChar (c : Char) : Bool := c.isAlphanum || c == '-'

/-- The number that digits spell, when it fits into 64 bits. -/
def number? (ds : List Char) : Option Nat :=
  let n := ds.foldl (fun n c => 10 * n + (c.toNat - '0'.toNat)) 0
  if !ds.isEmpty && ds.all Char.isDigit && n < Width.limit then some n else none

/-- The number at the front of a text, and the rest. -/
def leading? (cs : List Char) : Option (Nat × List Char) :=
  (number? (cs.takeWhile Char.isDigit)).map fun n => (n, cs.dropWhile Char.isDigit)

/-- The number behind a point, or zero when there is none. -/
def further? (cs : List Char) : Option (Nat × List Char) :=
  match cs with
  | '.' :: rest => leading? rest
  | cs => some (0, cs)

/-- The parts between points, when each holds characters that may stand there. -/
def parts? (cs : List Char) : Option (List String) :=
  let parts := Text.splitChar '.' cs
  if parts.all fun p => !p.isEmpty && p.all isPartChar then some (parts.map String.ofList)
  else none

/-- Whether a part is a number that starts with a needless zero. -/
def hasNeedlessZero (part : String) : Bool :=
  part.toList.all Char.isDigit && part.toList.head? == some '0' && part != "0"

/-- The pre-release between the numbers and the build, and whether the build is in order. -/
def tail? (cs : List Char) : Option (List String) :=
  let (pre, build) :=
    match Text.cutAt? ['+'] cs with
    | some (pre, build) => (pre, some build)
    | none => (cs, none)
  if build.all fun b => (parts? b).isSome then
    match pre with
    | [] => some []
    | '-' :: pre => (parts? pre).bind fun ps => if ps.any hasNeedlessZero then none else some ps
    | _ => none
  else none

/-- Reads a version. -/
def parse? (s : String) : Option Semver := do
  let cs :=
    match s.toList with
    | 'v' :: cs => cs
    | cs => cs
  let (major, cs) ← leading? cs
  let (minor, cs) ← further? cs
  let (patch, cs) ← further? cs
  let pre ← tail? cs
  pure ⟨major, minor, patch, pre⟩

/-- Compares two parts of pre-releases: numbers come before words. -/
def comparePart (a b : String) : Ordering :=
  match number? a.toList, number? b.toList with
  | some m, some n => compare m n
  | some _, none => .lt
  | none, some _ => .gt
  | none, none => compare a b

/-- Compares the parts of two pre-releases from the front; a missing part comes first. -/
def compareParts : List String → List String → Ordering
  | [], [] => .eq
  | [], _ :: _ => .lt
  | _ :: _, [] => .gt
  | a :: as, b :: bs => (comparePart a b).then (compareParts as bs)

/-- Compares two pre-releases; a release comes behind all of them. -/
def comparePre (a b : List String) : Ordering :=
  match a, b with
  | [], [] => .eq
  | [], _ => .gt
  | _, [] => .lt
  | a, b => compareParts a b

/-- The order of versions. -/
def compare (v w : Semver) : Ordering :=
  (Ord.compare v.major w.major).then <| (Ord.compare v.minor w.minor).then <|
    (Ord.compare v.patch w.patch).then (comparePre v.pre w.pre)

/-- Whether the first text is a version that comes behind the second; texts that are no versions
never do. -/
def newer (a b : String) : Bool :=
  match parse? a, parse? b with
  | some v, some w => v.compare w == .gt
  | _, _ => false

end Semver
end ClientLoom
