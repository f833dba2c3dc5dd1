import ClientLoom.Toml.Draft
import ClientLoom.Toml.Reader

/-! # TOML

`Toml.parse?` reads the table that a text defines, in one of the dialects. -/

namespace ClientLoom.Toml

/-- The table that a text defines. -/
def parse? (d : Dialect) (text : String) : Option Table :=
  (statements? d text).bind (if d.redefinition then Draft.table? else Document.table?)

end ClientLoom.Toml
