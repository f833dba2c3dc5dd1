import ClientLoom.Text.RawByte
import ClientLoom.Text.Split

/-! # Failures

A failure has a cause, the trail of places it came through, outermost first, and hints for the
user.  `Failure.message` joins the trail and the text of the cause with colons.  Names from the
input may hold line ends: the outermost place is shown as it is, and everything further in has
its line ends squeezed. -/

namespace ClientLoom

/-- Why an operation failed. -/
inductive Cause where
  /-- a declaration that the model cannot represent -/
  | unsupported
  /-- a document that does not follow the schema of dumps -/
  | malformed
  /-- one name declared as a struct and as an enum -/
  | kindClash
  /-- partial modules of different names merged together -/
  | nameMismatch
  /-- one module name contributed by two groups -/
  | groupCollision
  /-- a function whose first parameter cannot become a receiver -/
  | receiver
  /-- an absent declaration -/
  | missing
  /-- an absent trait impl -/
  | missingTrait
  /-- a builder asked for something that is not a struct -/
  | notStruct
  /-- the run was cancelled -/
  | cancelled
  /-- a document whose expressions refer to themselves -/
  | endless
  /-- the program could not go on -/
  | breakdown (text : String)
  /-- a complaint with a text of its own -/
  | invalid (text : String)
  /-- a complaint of the file system -/
  | system (text : String)
  /-- a complaint about the arguments of the program -/
  | usage (text : String)
  deriving DecidableEq, Repr

/-- A cause with the places it came through. -/
structure Failure where
  /-- places, outermost first -/
  trail : List String
  cause : Cause
  hints : List String := []
  deriving DecidableEq, Repr

/-- The two characters that delimit redactable parts of a message are never shown. -/
def maskMarkers (s : String) : String :=
  s.map fun c => if c = '‹' || c = '›' then '?' else c

/-- A name as it stands in a message: a question mark closes it off when it ends with a byte that
is no text. -/
def inMessage (name : String) : String := if Text.endsRaw name then name ++ "?" else name

/-- Runs of line ends become one, and there is none at either end. -/
def squeezeLines (s : String) : String :=
  "\n".intercalate ((Text.split s '\n').filter (· ≠ ""))

/-- The text of a cause. -/
def Cause.text : Cause → String
  | .unsupported => "unsupported declaration"
  | .malformed => "malformed declaration dump"
  | .kindClash => "declaration kind clash"
  | .nameMismatch => "partial modules do not share a name"
  | .groupCollision => "module name used by more than one input group"
  | .receiver => "first parameter cannot become a receiver"
  | .missing => "declaration not found"
  | .missingTrait => "trait impl not found"
  | .notStruct => "builder source is not a struct"
  | .cancelled => "context canceled"
  | .endless => "expression without end"
  | .breakdown text => text
  | .invalid text => maskMarkers text
  | .system text => text
  | .usage text => text

/-- The text of a cause below a place: complaints of the file system are taken as they are. -/
def Cause.innerText : Cause → String
  | .system text => text
  | c => squeezeLines c.text

namespace Failure

/-- A failure at the place where it arises. -/
def of (cause : Cause) : Failure := ⟨[], cause, []⟩

/-- A complaint with a text of its own. -/
def invalid (text : String) : Failure := of (.invalid text)

/-- A cause seen from the given places, outermost first. -/
def along (trail : List String) (cause : Cause) : Failure := ⟨trail, cause, []⟩

/-- The same failure seen from a place further out.  A breakdown is seen from nowhere else. -/
def within (place : String) (f : Failure) : Failure :=
  match f.cause with
  | .breakdown _ => f
  | _ => { f with trail := place :: f.trail }

/-- The places below the outermost and the cause, with line ends squeezed. -/
def innerTexts (places : List String) (cause : Cause) : List String :=
  places.map (fun p => squeezeLines (maskMarkers p)) ++ [cause.innerText]

/-- The places and the cause, joined with colons. -/
def message (f : Failure) : String :=
  match f.trail with
  | [] => f.cause.text
  | place :: places => ": ".intercalate (maskMarkers place :: innerTexts places f.cause)

/-- The message of a failure that stops the program on the spot: line ends are squeezed in the
outermost place too. -/
def abortMessage (f : Failure) : String :=
  ": ".intercalate (innerTexts f.trail f.cause)

@[simp] theorem within_cause (place : String) (f : Failure) :
    (f.within place).cause = f.cause := by
  unfold within
  split <;> rfl

end Failure

/-- The state that an operation leaves when it succeeds. -/
def settled {σ : Type} (out : σ × Except Failure Unit) : Except Failure σ :=
  out.2.map fun _ => out.1

/-- Names the place that a computation stands for in the trail of its failure. -/
def locate {α : Type} (place : String) (r : Except Failure α) : Except Failure α :=
  r.mapError (Failure.within place)

end ClientLoom
