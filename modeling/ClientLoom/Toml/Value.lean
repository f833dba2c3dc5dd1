import ClientLoom.Double

/-! # TOML values

The values of a TOML document.  A number with a fraction or an exponent is kept as the nearest
double; of points in time only that they are such is kept. -/

namespace ClientLoom.Toml

/-- A number with a fraction or an exponent: a double with a sign, or one of the special
values. -/
inductive Decimal where
  | finite (negative : Bool) (x : Double)
  | infinite (negative : Bool)
  | undefined
  deriving DecidableEq, Repr

/-- A value. -/
inductive Value where
  | text (s : String)
  | integer (n : Int)
  | decimal (d : Decimal)
  | truth (b : Bool)
  | time
  | list (items : List Value)
  | table (entries : List (String × Value))
  deriving Inhabited

/-- The entries of a table, in the order in which they were defined. -/
abbrev Table := List (String × Value)

/-- Whether a value is a table. -/
def Value.isTable : Value → Bool
  | .table _ => true
  | _ => false

namespace Decimal

/-- The text of a number without an exponent. -/
def text : Decimal → String
  | .undefined => "NaN"
  | .infinite negative => if negative then "-Inf" else "+Inf"
  | .finite negative x => (if negative then "-" else "") ++ x.text

/-- The integer part of a number, when there is one. -/
def truncate? : Decimal → Option Int
  | .finite negative x => some (if negative then -(x.floor : Int) else x.floor)
  | _ => none

end Decimal
end ClientLoom.Toml
