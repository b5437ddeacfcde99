import TypedColumn.Fault

namespace TypedColumn.Uuid

def ofDigits? (cs : List Char) : Option Uuid :=
  if cs.length = 32 then (Hex.toBytes? cs).map ofBytes else none

def ofGroups? (cs : List Char) : Option Uuid :=
  if cs.length = 36 ∧ cs[8]? = some '-' ∧ cs[13]? = some '-' ∧ cs[18]? = some '-'
      ∧ cs[23]? = some '-' then
    ofDigits? (cs.take 8 ++ (cs.drop 9).take 4 ++ (cs.drop 14).take 4 ++ (cs.drop 19).take 4
      ++ cs.drop 24)
  else none

def ofText? (text : String) : Option Uuid :=
  match text.toList with
  | '\x7b' :: rest => if rest.getLast? = some '\x7d' then ofGroups? rest.dropLast else none
  | cs =>
    if (cs.take 9).map Char.toLower = "urn:uuid:".toList then ofGroups? (cs.drop 9)
    else if cs.length = 32 then ofDigits? cs
    else ofGroups? cs

def parse (text : String) : Except Fault Uuid :=
  match ofText? text with
  | some u => .ok u
  | none => .error (.uuid text)

end TypedColumn.Uuid
