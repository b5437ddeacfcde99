import TypedColumn.Number.Fields

/-!
The decimal text of a float: the fewest digits that read back as the float, of those the nearest to
it, of two equally near the greater. The text is positional whatever the exponent.

A finite float is a whole number of units `10 ^ -places`, and so are the bounds between which a
decimal reads back as it. All arithmetic is on these whole numbers.
-/

namespace TypedColumn.Precision

variable {p : Precision}

def places (p : Precision) : Nat := 2 ^ (p.exponentBits - 1) + p.fractionBits

def significand (x : p.Bits) : Nat :=
  if exponent x = 0 then fraction x else 2 ^ p.fractionBits + fraction x

def quarter (x : p.Bits) : Nat := 2 ^ (max (exponent x) 1 - 1) * 5 ^ p.places

def magnitude (x : p.Bits) : Nat := 4 * significand x * quarter x

def upper (x : p.Bits) : Nat := (4 * significand x + 2) * quarter x

def lower (x : p.Bits) : Nat :=
  if fraction x = 0 ∧ 1 < exponent x then (4 * significand x - 1) * quarter x
  else (4 * significand x - 2) * quarter x

def readsBack (x : p.Bits) (n : Nat) : Bool :=
  if significand x % 2 = 0 then lower x ≤ n && n ≤ upper x else lower x < n && n < upper x

/-- The first grid `10 ^ k`, from the coarsest down, on which a neighbour of `n` is accepted. -/
def coarsest (accept : Nat → Bool) (n : Nat) : Nat → Nat
  | 0 => n
  | k + 1 =>
    let step := 10 ^ (k + 1)
    let down := n / step * step
    let up := down + step
    match accept down, accept up with
    | true, true => if n - down < up - n then down else up
    | true, false => down
    | false, true => up
    | false, false => coarsest accept n k

def shortest (x : p.Bits) : Nat :=
  coarsest (readsBack x) (magnitude x) ((Nat.toDigits 10 (magnitude x)).length - 1)

def unitsText (places n : Nat) : String :=
  let digits := Nat.toDigits 10 (n % 10 ^ places)
  let padded := List.replicate (places - digits.length) '0' ++ digits
  let kept := (padded.reverse.dropWhile (· == '0')).reverse
  toString (n / 10 ^ places) ++ (if kept.isEmpty then "" else "." ++ String.ofList kept)

def text (x : p.Bits) : String :=
  if isNaN x then "NaN"
  else
    let sign := if negative x then "-" else ""
    if exponent x = p.topExponent then sign ++ "inf"
    else if magnitude x = 0 then sign ++ "0"
    else sign ++ unitsText p.places (shortest x)

end TypedColumn.Precision
