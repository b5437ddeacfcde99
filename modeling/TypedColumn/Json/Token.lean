import TypedColumn.Bytes.Hex
import TypedColumn.Json
import TypedColumn.Text.Digits

namespace TypedColumn.Json

inductive Mark : Type
  | beginArray : Mark
  | endArray : Mark
  | beginObject : Mark
  | endObject : Mark
  | comma : Mark
  | colon : Mark
  deriving DecidableEq

inductive Token : Type
  | mark : Mark → Token
  | scalar : Json → Token

def Mark.ofChar? : Char → Option Mark
  | '[' => some .beginArray
  | ']' => some .endArray
  | '\x7b' => some .beginObject
  | '\x7d' => some .endObject
  | ',' => some .comma
  | ':' => some .colon
  | _ => none

def isSpace (c : Char) : Bool := c == ' ' || c == '\t' || c == '\n' || c == '\r'

def joinUnits : List Nat → Option (List Char)
  | [] => some []
  | u :: us =>
    if 0xD800 ≤ u ∧ u < 0xDC00 then
      match us with
      | v :: us =>
        if 0xDC00 ≤ v ∧ v < 0xE000 then
          (joinUnits us).map (Char.ofNat (0x10000 + (u - 0xD800) * 0x400 + (v - 0xDC00)) :: ·)
        else none
      | [] => none
    else if 0xDC00 ≤ u ∧ u < 0xE000 then none
    else (joinUnits us).map (Char.ofNat u :: ·)

def fraction? : List Char → Option (List Char × List Char)
  | '.' :: cs => Text.digits? cs
  | cs => some ([], cs)

def exponent? : List Char → Option Int
  | [] => some 0
  | e :: cs =>
    if e = 'e' ∨ e = 'E' then
      match cs with
      | '-' :: cs => (Text.toNat? cs).map fun n => -(n : Int)
      | '+' :: cs => (Text.toNat? cs).map fun n => (n : Int)
      | cs => (Text.toNat? cs).map fun n => (n : Int)
    else none

/-- Digits without needless zeros in front, then perhaps a fraction and an exponent. Digits of the
whole part that no longer fit a word count as zeros, and the fraction ends at its first digit that
does not fit. -/
def magnitude? (negative : Bool) (cs : List Char) : Option Json := do
  let (whole, cs) ← Text.digits? cs
  if whole.head? = some '0' ∧ whole.length ≠ 1 then none
  else
    let (part, cs) ← fraction? cs
    let e ← exponent? cs
    let (n, left) := Text.appendWithin greatestWord 0 whole
    let (n, rest) := Text.appendWithin greatestWord n part
    return .number negative n (e + left.length - (part.length - rest.length))

def word? (cs : List Char) : Option Json :=
  if cs = "null".toList then some .null
  else if cs = "true".toList then some (.bool true)
  else if cs = "false".toList then some (.bool false)
  else
    match cs with
    | '-' :: cs => magnitude? true cs
    | cs => magnitude? false cs

inductive Place : Type
  | between : Place
  | word : List Char → Place
  | string : (units : List Nat) → Place
  | escape : (units : List Nat) → Place
  | unit : (units : List Nat) → (missing value : Nat) → Place

def escaped? : Char → Option Nat
  | '"' => some 0x22
  | '\x5c' => some 0x5C
  | '/' => some 0x2F
  | 'b' => some 8
  | 'f' => some 12
  | 'n' => some 10
  | 'r' => some 13
  | 't' => some 9
  | _ => none

def start (c : Char) : List Token × Place :=
  match Mark.ofChar? c with
  | some m => ([.mark m], .between)
  | none =>
    if isSpace c then ([], .between)
    else if c = '"' then ([], .string [])
    else ([], .word [c])

def Place.step (c : Char) : Place → Option (List Token × Place)
  | .between => some (start c)
  | .word cs =>
    if (Mark.ofChar? c).isNone ∧ !isSpace c ∧ c ≠ '"' then some ([], .word (c :: cs))
    else do
      let j ← word? cs.reverse
      let (tokens, place) := start c
      return (tokens ++ [.scalar j], place)
  | .string units =>
    if c = '"' then
      some ([.scalar (.string ((joinUnits units.reverse).map String.ofList))], .between)
    else if c = '\x5c' then some ([], .escape units)
    else if c.toNat < 0x20 then none
    else some ([], .string (c.toNat :: units))
  | .escape units =>
    if c = 'u' then some ([], .unit units 3 0)
    else (escaped? c).map fun u => ([], .string (u :: units))
  | .unit units missing value => do
    let value := 16 * value + (← Hex.value? c)
    match missing with
    | 0 => return ([], .string (value :: units))
    | n + 1 => return ([], .unit units n value)

def Place.finish : Place → Option (List Token)
  | .between => some []
  | .word cs => (word? cs.reverse).map fun j => [.scalar j]
  | _ => none

def tokens? (cs : List Char) : Option (List Token) := do
  let (place, done) ← cs.foldlM
    (fun (place, done) c => do
      let (tokens, place) ← Place.step c place
      return (place, tokens ++ done))
    (Place.between, [])
  return ((← place.finish) ++ done).reverse

end TypedColumn.Json
