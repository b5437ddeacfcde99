import TypedColumn.Number.Fields

namespace TypedColumn.Precision

variable {p : Precision}

def rank (x : p.Bits) : Nat :=
  if x.msb then 2 ^ (8 * p.bytes) - 1 - x.toNat else 2 ^ (8 * p.bytes) + x.toNat

def order (x y : p.Bits) : Ordering := compare (rank x) (rank y)

def sort (xs : List p.Bits) : List p.Bits := xs.mergeSort fun x y => rank x ≤ rank y

def greatest? : List p.Bits → Option p.Bits
  | [] => none
  | x :: xs => some (xs.foldl (fun m y => if rank m ≤ rank y then y else m) x)

end TypedColumn.Precision
