/-! # Numbers of 64 bits

The bounds of the numbers that fit into 64 bits, with and without a sign. -/

namespace ClientLoom.Width

/-- The first number that needs more than 64 bits. -/
def limit : Nat := 0x10000000000000000

/-- The first number that needs more than 63 bits. -/
def half : Nat := 0x8000000000000000

/-- Whether an integer fits into 64 bits with a sign. -/
def fits (n : Int) : Bool := decide (-(half : Int) ≤ n) && decide (n < (half : Int))

end ClientLoom.Width
