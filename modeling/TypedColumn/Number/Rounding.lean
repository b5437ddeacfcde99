import TypedColumn.Number.Fields

namespace TypedColumn.Precision

/-- The nearest multiple of a unit; of two equally near, the one that is an even number of units. -/
def nearestMultiple (unit n : Nat) : Nat :=
  let down := n / unit
  if 2 * (n % unit) < unit then unit * down
  else if unit < 2 * (n % unit) then unit * (down + 1)
  else unit * (down + down % 2)

def nearest (p : Precision) (n : Nat) : Nat :=
  nearestMultiple (2 ^ (n.log2 - p.fractionBits)) n

def bound (p : Precision) : Nat := 2 ^ (2 ^ (p.exponentBits - 1) : Nat)

end TypedColumn.Precision
