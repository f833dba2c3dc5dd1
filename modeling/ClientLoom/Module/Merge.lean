import ClientLoom.Module.Basic
import ClientLoom.Text.Order

/-! # Merging partial modules

`Module.merge` combines partial modules of one name.  The parts are ordered by origin and then
by fingerprint, so the order they are supplied in does not matter to parts that these tell
apart. -/

namespace ClientLoom

namespace Module

/-- The order in which partial modules are merged: by origin, then by fingerprint. -/
def comesBefore (a b : Module) : Bool :=
  if a.origin = b.origin then decide (Text.rank a.fingerprint ≤ Text.rank b.fingerprint)
  else decide (Text.rank a.origin ≤ Text.rank b.origin)

/-- Adds the attributes and declarations of a part to a merged module. -/
def addPart (m part : Module) : Except Failure Module :=
  locate ("merge " ++ inMessage m.name ++ " (from " ++ part.origin ++ ")")
    (settled ({ m with attrs := m.attrs ++ part.attrs }.pushAll part.decls))

/-- Merges partial modules of one name.  The origin is kept when there is only one part. -/
def merge : List Module → Except Failure Module
  | [] => .error (.invalid "merge: no modules")
  | first :: rest =>
      match rest.find? (·.name != first.name) with
      | some other =>
          .error
            (.along ["merge: " ++ inMessage first.name ++ " and " ++ inMessage other.name]
              .nameMismatch)
      | none =>
          let origin := if rest.isEmpty then first.origin else ""
          ((first :: rest).mergeSort comesBefore).foldlM addPart
            { name := first.name, origin := origin }

end Module
end ClientLoom
