import TypedColumn.Fault
import TypedColumn.Json.Parser
import TypedColumn.Settings

namespace TypedColumn

namespace Json

def under (name : String) (members : List (Key × Json)) : List Json :=
  (members.filter fun m => m.1 == some name).map (·.2)

def name? : Json → Option String
  | .string text => text
  | .object [(key, .null)] => key
  | .object [(key, .object [])] => key
  | _ => none

end Json

def TextEncoding.ofJson? (j : Json) : Option TextEncoding := do
  match ← j.name? with
  | "utf8" => some .utf8
  | "latin1" => some .latin1
  | _ => none

def Fallback.ofJson? (j : Json) : Option Fallback := do
  match ← j.name? with
  | "raw" => some .raw
  | "hex" => some .hex
  | _ => none

namespace FixedForm

def part? {α : Type} (read : Json → Option α) (absent : α) : List Json → Option α
  | [] => some absent
  | [j] => read j
  | _ => none

def ofParts? (method : String) (encodings fallbacks : List Json) : Option FixedForm :=
  match method with
  | "raw" => some .raw
  | "hex" => some .hex
  | "decode" => do
    let encoding ← part? TextEncoding.ofJson? .utf8 encodings
    let fallback ← part? Fallback.ofJson? .raw fallbacks
    return .decode encoding fallback
  | _ => none

def ofJson? (j : Json) : Option FixedForm :=
  if j.sound ∧ j.depth < 127 then
    match j with
    | .object members =>
      match Json.under "method" members with
      | [.string (some method)] =>
        ofParts? method (Json.under "encoding" members) (Json.under "on_error" members)
      | _ => none
    | .array [.string (some method)] => ofParts? method [] []
    | .array [.string (some "decode"), encoding] => ofParts? "decode" [encoding] []
    | .array [.string (some "decode"), encoding, fallback] =>
      ofParts? "decode" [encoding] [fallback]
    | _ => none
  else none

def toJson : FixedForm → Json
  | .raw => .object [(some "method", .string "raw")]
  | .hex => .object [(some "method", .string "hex")]
  | .decode encoding fallback => .object
      [(some "method", .string "decode"),
        (some "encoding", .string (match encoding with | .utf8 => "utf8" | .latin1 => "latin1")),
        (some "on_error", .string (match fallback with | .raw => "raw" | .hex => "hex"))]

end FixedForm

namespace Settings

def ofFixedString? : List Json → Option Settings
  | [] => some {}
  | [j] => (FixedForm.ofJson? j).map fun form => { fixedString := form }
  | _ => none

def ofJson? : Json → Option Settings
  | .object members =>
    if members.all fun m => m.1.isSome then ofFixedString? (Json.under "fixed_string" members)
    else none
  | .array items => ofFixedString? items
  | _ => none

def toJson (s : Settings) : Json := .object [(some "fixed_string", s.fixedString.toJson)]

def parse (text : String) : Except Fault Settings :=
  match Json.parse? text with
  | none => .error (.settings .grammar)
  | some j =>
    match ofJson? j with
    | none => .error (.settings .content)
    | some s => .ok s

end Settings

end TypedColumn
