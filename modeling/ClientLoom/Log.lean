import ClientLoom.Failure
import ClientLoom.Text.Quoted

/-! # Log records

A run tells what it does in records.  `Logged` computations keep their records when they fail;
`Log.shown` selects those that a verbosity lets through. -/

namespace ClientLoom

namespace Log

/-- How important a record is. -/
inductive Level where
  | debug
  | info
  | warn
  deriving DecidableEq, Repr

namespace Level

/-- The position of a level in the order of importance. -/
def rank : Level → Nat
  | .debug => 0
  | .info => 1
  | .warn => 2

/-- The word for a level. -/
def text : Level → String
  | .debug => "debug"
  | .info => "info"
  | .warn => "warn"

/-- The least important level that is shown at a verbosity. -/
def ofVerbosity (n : Int) : Level :=
  if n ≤ 0 then .warn else if n = 1 then .info else .debug

end Level

/-- A value in a record. -/
inductive Value where
  | text (s : String)
  | number (n : Nat)
  deriving DecidableEq, Repr

/-- A record: a message with named values. -/
structure Record where
  level : Level
  message : String
  fields : List (String × Value) := []
  deriving DecidableEq, Repr

/-- The records that a verbosity lets through. -/
def shown (verbosity : Int) (records : List Record) : List Record :=
  records.filter fun r => (Level.ofVerbosity verbosity).rank ≤ r.level.rank

/-- A value as it is written. -/
def Value.written : Value → String
  | .text s => Text.quote s
  | .number n => toString n

/-- Named values as they are written. -/
def written (fields : List (String × Value)) : String :=
  ", ".intercalate (fields.map fun f => Text.quote f.1 ++ ": " ++ f.2.written)

/-- The line for a record: its level, its message and its values, or all of them as one object. -/
def Record.line (r : Record) (asObject : Bool) : String :=
  if asObject then
    "\x7b" ++ written ([("level", .text r.level.text), ("msg", .text r.message)] ++ r.fields) ++
      "\x7d"
  else
    r.level.text.map Char.toUpper ++ "\t" ++ r.message ++
      (if r.fields.isEmpty then "" else "\t\x7b" ++ written r.fields ++ "\x7d")

end Log

/-- A computation that leaves records behind, whether it fails or not. -/
structure Logged (α : Type) where
  records : List Log.Record
  result : Except Failure α

namespace Logged

variable {α β : Type}

/-- Goes on with the result, unless there is none. -/
protected def bind (x : Logged α) (f : α → Logged β) : Logged β :=
  match x.result with
  | .error e => ⟨x.records, .error e⟩
  | .ok a => ⟨x.records ++ (f a).records, (f a).result⟩

instance : Monad Logged where
  pure a := ⟨[], .ok a⟩
  bind := Logged.bind

/-- A computation without records. -/
def ofExcept (r : Except Failure α) : Logged α := ⟨[], r⟩

/-- A failure without records. -/
def fail (f : Failure) : Logged α := ⟨[], .error f⟩

/-- Leaves a record. -/
def log (r : Log.Record) : Logged Unit := ⟨[r], .ok ()⟩

/-- Leaves records. -/
def logAll (rs : List Log.Record) : Logged Unit := ⟨rs, .ok ()⟩

/-- Leaves a record for those who debug. -/
def debug (message : String) (fields : List (String × Log.Value)) : Logged Unit :=
  log ⟨.debug, message, fields⟩

/-- Leaves a record of what was done. -/
def info (message : String) (fields : List (String × Log.Value)) : Logged Unit :=
  log ⟨.info, message, fields⟩

/-- Leaves a warning. -/
def warn (message : String) (fields : List (String × Log.Value)) : Logged Unit :=
  log ⟨.warn, message, fields⟩

@[simp] theorem result_pure (a : α) : (pure a : Logged α).result = .ok a := rfl

/-- The records play no part in the result. -/
theorem result_bind (x : Logged α) (f : α → Logged β) :
    (x >>= f).result = x.result >>= fun a => (f a).result := by
  change (Logged.bind x f).result = _
  unfold Logged.bind
  cases x.result <;> rfl

@[simp] theorem result_ofExcept (r : Except Failure α) : (ofExcept r).result = r := rfl

end Logged
end ClientLoom
