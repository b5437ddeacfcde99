import TypedColumn.Text.Encoding
import TypedColumn.Value

namespace TypedColumn

inductive Operation : Type
  | readRow : Operation
  | writeRow : Operation
  | readColumn : Operation
  deriving DecidableEq

inductive TextFault : Type
  | noName : TextFault
  | badName : TextFault
  | emptyParameter : TextFault
  | unterminated : TextFault
  | unbalanced : TextFault
  | trailing : TextFault
  deriving DecidableEq

inductive ParameterFault : Type
  | notNumeric : ParameterFault
  | count : (expected found : Nat) → ParameterFault
  | size : ParameterFault
  | noElement : ParameterFault
  | noFunction : ParameterFault
  | noValueType : ParameterFault
  | noAliased : ParameterFault
  deriving DecidableEq

inductive SettingsFault : Type
  | grammar : SettingsFault
  | content : SettingsFault
  deriving DecidableEq

inductive Fault : Type
  | underrun : (position needed available : Nat) → Fault
  | lengthOverflow : (position : Nat) → Fault
  | unsupported : (type : String) → Operation → Fault
  | mismatch : (type : String) → (found : Value.Kind) → Fault
  | unencodable : (type : String) → TextEncoding → (text : String) → Fault
  | arity : (type : String) → (expected found : Nat) → Fault
  | offsets : (type : String) → (row previous current : Nat) → Fault
  | nestedArray : (type : String) → Fault
  | nestedNullable : (type : String) → Fault
  | parameter : (type : String) → ParameterFault → Fault
  | unknownType : (name : String) → Fault
  | malformed : (text : String) → TextFault → Fault
  | uuid : (text : String) → Fault
  | settings : SettingsFault → Fault
  deriving DecidableEq

end TypedColumn
