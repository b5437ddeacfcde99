import TypedColumn.Number

namespace TypedColumn

namespace Precision

abbrev Bits (p : Precision) := BitVec (8 * p.bytes)

def fractionBits : Precision → Nat
  | .single => 23
  | .double => 52

def exponentBits : Precision → Nat
  | .single => 8
  | .double => 11

def topExponent (p : Precision) : Nat := 2 ^ p.exponentBits - 1

variable {p : Precision}

def negative (x : p.Bits) : Bool := x.msb

def exponent (x : p.Bits) : Nat := x.toNat / 2 ^ p.fractionBits % 2 ^ p.exponentBits

def fraction (x : p.Bits) : Nat := x.toNat % 2 ^ p.fractionBits

def isNaN (x : p.Bits) : Bool := exponent x == p.topExponent && fraction x != 0

end Precision

end TypedColumn
