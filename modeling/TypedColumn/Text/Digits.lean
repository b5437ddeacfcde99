namespace TypedColumn.Text

def append (n : Nat) (c : Char) : Nat := 10 * n + (c.toNat - '0'.toNat)

def ofDigits (ds : List Char) : Nat := ds.foldl append 0

def appendWithin (limit n : Nat) : List Char → Nat × List Char
  | [] => (n, [])
  | c :: cs => if append n c ≤ limit then appendWithin limit (append n c) cs else (n, c :: cs)

def digits? (cs : List Char) : Option (List Char × List Char) :=
  match cs.takeWhile Char.isDigit with
  | [] => none
  | d :: ds => some (d :: ds, cs.dropWhile Char.isDigit)

def toNat? (cs : List Char) : Option Nat :=
  match digits? cs with
  | some (ds, []) => some (ofDigits ds)
  | _ => none

end TypedColumn.Text
