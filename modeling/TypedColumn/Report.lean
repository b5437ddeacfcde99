import TypedColumn.Fault

namespace TypedColumn

structure Report : Type where
  code : String
  message : String
  label : Option String
  help : Option String
  notes : List String
  deriving DecidableEq

namespace Report

def rendered (r : Report) : String :=
  r.code ++ ": " ++ r.message
    ++ (match r.label with | some l => "\n  --> " ++ l | none => "")
    ++ (match r.help with | some h => "\n  help: " ++ h | none => "")
    ++ String.join (r.notes.map ("\n  note: " ++ ·))

def nestedArray (type : String) : Report where
  code := "CODEC_001"
  message := "nested arrays are not supported: " ++ type
  label := some ("'" ++ type ++ "' nests an array inside an array")
  help := some "flatten the column or wrap the inner array in a Tuple"
  notes := ["array nesting is rejected when the codec is built, before any data is decoded"]

def nestedNullable (type : String) : Report where
  code := "CODEC_001"
  message := "nested nullable types are not supported: " ++ type
  label := some ("'" ++ type ++ "' nests a Nullable inside a Nullable")
  help := some "a single Nullable wrapper already admits null values"
  notes := []

end Report

def Operation.text : Operation → String
  | .readRow => "row decode"
  | .writeRow => "row encode"
  | .readColumn => "bulk decode"

namespace Report

def unsupported (type : String) (operation : Operation) : Report where
  code := "CODEC_002"
  message := operation.text ++ " is not supported for " ++ type
  label := some (type ++ " has no " ++ operation.text ++ " path")
  help := none
  notes :=
    (if "AggregateFunction".toList.isPrefixOf type.toList then
      ["aggregate function states use an engine specific binary layout"] else [])
    ++ (if operation = .readColumn then ["read the column in row-oriented format instead"] else [])

def underrun (position needed available : Nat) : Report where
  code := "CODEC_003"
  message := "buffer underrun at position " ++ toString position ++ ": needed " ++ toString needed
    ++ " bytes, " ++ toString available ++ " available"
  label := some ("reading bytes " ++ toString position ++ ".."
    ++ toString (min (position + needed) greatestWord) ++ " of a "
    ++ toString (min (position + available) greatestWord) ++ " byte buffer")
  help := some "the buffer is truncated or does not hold the declared type"
  notes := []

def lengthOverflow (position : Nat) : Report where
  code := "CODEC_004"
  message := "length prefix at position " ++ toString position ++ " overflows"
  label := some "LEB128 length prefix longer than 10 bytes or larger than 64 bits"
  help := none
  notes := []

def mismatch (type found : String) : Report where
  code := "CODEC_005"
  message := type ++ " cannot encode a " ++ found ++ " value"
  label := some ("a " ++ found ++ " value was passed to the " ++ type ++ " codec")
  help := some "convert the value to the column type before encoding"
  notes := []

def parameter (type reason : String) : Report where
  code := "CODEC_006"
  message := "invalid parameter for " ++ type ++ ": " ++ reason
  label := none
  help := some
    "check the parameters of the type name, e.g. FixedString(16) or Map(String, UInt64)"
  notes := []

def offsets (type : String) (row previous current : Nat) : Report where
  code := "CODEC_007"
  message := "offsets of " ++ type ++ " decrease at row " ++ toString row ++ ": "
    ++ toString previous ++ " then " ++ toString current
  label := some ("offset of row " ++ toString row ++ " is smaller than the offset before it")
  help := some "array offsets are cumulative element counts and never decrease"
  notes := []

def unencodable (type encoding text : String) : Report where
  code := "CODEC_008"
  message := type ++ " cannot represent '" ++ text ++ "' in " ++ encoding
  label := some ("text contains characters outside " ++ encoding)
  help := some "pass raw bytes or configure a wider text encoding"
  notes := []

def arity (type : String) (expected found : Nat) : Report where
  code := "CODEC_009"
  message := type ++ " expects " ++ toString expected ++ " elements, got " ++ toString found
  label := some ("expected " ++ toString expected ++ " elements, found " ++ toString found)
  help := none
  notes := []

def settings (reason : String) : Report where
  code := "CODEC_010"
  message := "invalid codec configuration: " ++ reason
  label := none
  help := some ("example: \x7b\"fixed_string\": \x7b\"method\": \"decode\", \"encoding\": \"utf8\", "
    ++ "\"on_error\": \"hex\"\x7d\x7d")
  notes := []

def unknownType (name : String) : Report where
  code := "TYPE_001"
  message := "unknown type: " ++ name
  label := some ("no codec is registered under '" ++ name ++ "'")
  help := some "type names are case sensitive, e.g. UInt64 rather than uint64"
  notes := []

def malformed (text reason : String) : Report where
  code := "TYPE_002"
  message := "malformed type name '" ++ text ++ "': " ++ reason
  label := none
  help := some "use Name or Name(param, ...), e.g. Array(String)"
  notes := []

def uuid (text : String) : Report where
  code := "TYPE_003"
  message := "invalid UUID '" ++ text ++ "'"
  label := some ("'" ++ text ++ "' is not a valid UUID")
  help := some "use the hyphenated form (e.g., 550e8400-e29b-41d4-a716-446655440000)"
  notes := ["valid: 550e8400-e29b-41d4-a716-446655440000",
    "valid: 550e8400e29b41d4a716446655440000"]

end Report

def TextFault.text : TextFault → String
  | .noName => "type name is empty"
  | .badName => "type name may only contain letters, digits and '_'"
  | .emptyParameter => "empty type parameter"
  | .unterminated => "unterminated quoted literal"
  | .unbalanced => "unbalanced parentheses"
  | .trailing => "unexpected characters after closing parenthesis"

def ParameterFault.text : ParameterFault → String
  | .notNumeric => "not a numeric type"
  | .count expected found =>
    "expected " ++ toString expected ++ " type parameters, found " ++ toString found
  | .size => "size must be a positive integer"
  | .noElement => "a tuple needs at least one element type"
  | .noFunction => "missing aggregate function name"
  | .noValueType => "expected a function name and a value type"
  | .noAliased => "alias needs a parameter"

def SettingsFault.text : SettingsFault → String
  | .grammar => "the document is not JSON"
  | .content => "the document does not describe settings"

def Fault.report : Fault → Report
  | .underrun position needed available => .underrun position needed available
  | .lengthOverflow position => .lengthOverflow position
  | .unsupported type operation => .unsupported type operation
  | .mismatch type found => .mismatch type found.name
  | .unencodable type encoding text => .unencodable type encoding.name text
  | .arity type expected found => .arity type expected found
  | .offsets type row previous current => .offsets type row previous current
  | .nestedArray type => .nestedArray type
  | .nestedNullable type => .nestedNullable type
  | .parameter type reason => .parameter type reason.text
  | .unknownType name => .unknownType name
  | .malformed text reason => .malformed text reason.text
  | .uuid text => .uuid text
  | .settings reason => .settings reason.text

end TypedColumn
