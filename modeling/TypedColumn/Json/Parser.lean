import TypedColumn.Json.Token

namespace TypedColumn.Json

inductive Container : Type
  | array : (items : List Json) → Container
  | object : (members : List (Key × Json)) → Container
  | member : (members : List (Key × Json)) → Key → Container

inductive Expected : Type
  | value : Expected
  | valueOrEnd : Expected
  | key : Expected
  | keyOrEnd : Expected
  | colon : Expected
  | commaOrEnd : Expected
  deriving DecidableEq

inductive State : Type
  | inside : Expected → List Container → State
  | complete : Json → State

def State.close (j : Json) : List Container → State
  | .array items :: stack => .inside .commaOrEnd (.array (j :: items) :: stack)
  | .member members key :: stack => .inside .commaOrEnd (.object ((key, j) :: members) :: stack)
  | .object _ :: _ => .complete j
  | [] => .complete j

def State.step : State → Token → Option State
  | .inside expected stack, token =>
    match expected, token, stack with
    | .value, .scalar j, stack => some (close j stack)
    | .valueOrEnd, .scalar j, stack => some (close j stack)
    | .value, .mark .beginArray, stack => some (.inside .valueOrEnd (.array [] :: stack))
    | .valueOrEnd, .mark .beginArray, stack => some (.inside .valueOrEnd (.array [] :: stack))
    | .value, .mark .beginObject, stack => some (.inside .keyOrEnd (.object [] :: stack))
    | .valueOrEnd, .mark .beginObject, stack => some (.inside .keyOrEnd (.object [] :: stack))
    | .valueOrEnd, .mark .endArray, .array _ :: stack => some (close (.array []) stack)
    | .key, .scalar (.string key), .object ms :: stack =>
      some (.inside .colon (.member ms key :: stack))
    | .keyOrEnd, .scalar (.string key), .object ms :: stack =>
      some (.inside .colon (.member ms key :: stack))
    | .keyOrEnd, .mark .endObject, .object _ :: stack => some (close (.object []) stack)
    | .colon, .mark .colon, stack => some (.inside .value stack)
    | .commaOrEnd, .mark .comma, .array items :: stack =>
      some (.inside .value (.array items :: stack))
    | .commaOrEnd, .mark .comma, .object ms :: stack => some (.inside .key (.object ms :: stack))
    | .commaOrEnd, .mark .endArray, .array items :: stack =>
      some (close (.array items.reverse) stack)
    | .commaOrEnd, .mark .endObject, .object ms :: stack =>
      some (close (.object ms.reverse) stack)
    | _, _, _ => none
  | .complete _, _ => none

def parse? (text : String) : Option Json := do
  let tokens ← tokens? text.toList
  match ← tokens.foldlM State.step (.inside .value []) with
  | .complete j => some j
  | .inside _ _ => none

end TypedColumn.Json
