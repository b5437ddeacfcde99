import TypedColumn.Number.Rounding

/-!
JSON documents. Strings may name code units that no text holds, and numbers are kept as their leading
digits and an exponent, so that a reader of documents decides what it accepts.
-/

namespace TypedColumn

inductive Json : Type
  | null : Json
  | bool : Bool → Json
  | number : (negative : Bool) → (digits : Nat) → (exponent : Int) → Json
  | string : Option String → Json
  | array : List Json → Json
  | object : List (Option String × Json) → Json

namespace Json

abbrev Key := Option String

mutual
def depth : Json → Nat
  | .array items => depths items + 1
  | .object members => memberDepths members + 1
  | _ => 0
def depths : List Json → Nat
  | [] => 0
  | j :: js => max (depth j) (depths js)
def memberDepths : List (Option String × Json) → Nat
  | [] => 0
  | (_, j) :: ms => max (depth j) (memberDepths ms)
end

def greatestPower : Nat := 308

def isFinite (digits : Nat) (exponent : Int) : Bool :=
  match exponent with
  | .ofNat e =>
    digits = 0 || (e ≤ greatestPower &&
      Precision.double.nearest (Precision.double.nearest digits * Precision.double.nearest (10 ^ e))
        < Precision.double.bound)
  | .negSucc _ => true

mutual
def sound : Json → Bool
  | .null => true
  | .bool _ => true
  | .number _ digits exponent => isFinite digits exponent
  | .string text => text.isSome
  | .array items => soundItems items
  | .object members => soundMembers members
def soundItems : List Json → Bool
  | [] => true
  | j :: js => sound j && soundItems js
def soundMembers : List (Option String × Json) → Bool
  | [] => true
  | (key, j) :: ms => key.isSome && sound j && soundMembers ms
end

end Json

end TypedColumn
