/-! # Keys without regard to case

Comparing keys without regard to case.  Known keys are ASCII, so of all other characters only
those matter that are another form of an ASCII letter. -/

namespace ClientLoom.Text

/-- A key in which the forms of a letter are the same. -/
def foldKey (s : String) : String :=
  s.map fun c => if c = '\u212A' then 'k' else if c = '\u017F' then 's' else c.toLower

end ClientLoom.Text
