import TypedColumn.Bytes.Hex
import TypedColumn.Text.Encoding
import TypedColumn.Value

namespace TypedColumn

inductive Fallback : Type
  | raw : Fallback
  | hex : Fallback
  deriving DecidableEq

inductive FixedForm : Type
  | raw : FixedForm
  | decode : TextEncoding → Fallback → FixedForm
  | hex : FixedForm
  deriving DecidableEq

structure Settings : Type where
  fixedString : FixedForm := .raw
  deriving DecidableEq

def Fallback.recover (bs : Bytes) : Fallback → Value
  | .raw => .bytes bs
  | .hex => .string bs.hex

namespace FixedForm

def encoding : FixedForm → TextEncoding
  | .decode e _ => e
  | _ => .utf8

def render (bs : Bytes) : FixedForm → Value
  | .raw => .bytes bs
  | .hex => .string bs.hex
  | .decode e fallback =>
    match e.decode? bs with
    | some text => .string text
    | none => fallback.recover bs

def renderValue (form : FixedForm) : Value → Value
  | .bytes bs => form.render bs
  | v => v

end FixedForm

end TypedColumn
