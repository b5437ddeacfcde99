import TypedColumn.Value
import TypedColumn.Number.Decimal

namespace TypedColumn

def Number.text : Number → String
  | .bool b => if b then "true" else "false"
  | .int _ x => toString x.toInt
  | .uint _ x => toString x.toNat
  | .float _ x => Precision.text x

namespace Value

mutual
def text : Value → String
  | .null => "NULL"
  | .number n => n.text
  | .string s => "'" ++ s ++ "'"
  | .bytes b => "0x" ++ b.hex
  | .uuid u => u.text
  | .array vs => "[" ++ ", ".intercalate (texts vs) ++ "]"
  | .tuple vs => "(" ++ ", ".intercalate (texts vs) ++ ")"
  | .map ps => "\x7b" ++ ", ".intercalate (pairTexts ps) ++ "\x7d"
def texts : List Value → List String
  | [] => []
  | v :: vs => text v :: texts vs
def pairTexts : List (Value × Value) → List String
  | [] => []
  | (k, v) :: ps => (text k ++ ": " ++ text v) :: pairTexts ps
end

end Value

end TypedColumn
