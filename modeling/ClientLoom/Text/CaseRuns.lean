/-! # Case mappings given by runs

A mapping from characters to characters of the other case, one to one.  From the first to the
last code point of a run, in equal steps, the mapping adds a fixed difference. -/

namespace ClientLoom.Text

/-- Code points in equal steps that a mapping moves by the same difference. -/
structure CaseRun where
  first : Nat
  last : Nat
  step : Nat
  difference : Int

/-- Whether a run moves a code point. -/
def CaseRun.covers (r : CaseRun) (n : Nat) : Bool :=
  decide (r.first ≤ n) && decide (n ≤ r.last) && (n - r.first) % r.step == 0

/-- Where the first run that covers it moves a character; the other characters stay. -/
def moveByRuns (runs : List CaseRun) (c : Char) : Char :=
  match runs.find? (·.covers c.toNat) with
  | some r => Char.ofNat ((c.toNat : Int) + r.difference).toNat
  | none => c

end ClientLoom.Text
