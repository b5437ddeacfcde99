import TypedColumn.Descriptor
import TypedColumn.Fault
import TypedColumn.Text.Blank

/-!
Type texts. A text is a name of letters, digits and `_`, alone or before a list of parameters in
parentheses. Commas part the parameters, save inside nested parentheses and single quotes; inside
quotes a backslash takes the character after it as it is. Blanks around the parts do not count.
-/

namespace TypedColumn.Descriptor

inductive Quote : Type
  | outside : Quote
  | inside : Quote
  | escaped : Quote
  deriving DecidableEq

def isNameChar (c : Char) : Bool := c.isAlphanum || c == '_'

/-- Splits what follows an opening parenthesis: the parameters, and what is left after the closing
one. The segment and the parameters so far are kept in reverse. -/
def scan : Quote → Nat → List Char → List String → List Char →
    Except TextFault (List String × List Char)
  | .outside, _, _, _, [] => .error .unbalanced
  | .inside, _, _, _, [] => .error .unterminated
  | .escaped, _, _, _, [] => .error .unterminated
  | .escaped, depth, segment, done, c :: cs => scan .inside depth (c :: segment) done cs
  | .inside, depth, segment, done, c :: cs =>
    if c = '\x5c' then scan .escaped depth (c :: segment) done cs
    else if c = '\x27' then scan .outside depth (c :: segment) done cs
    else scan .inside depth (c :: segment) done cs
  | .outside, depth, segment, done, c :: cs =>
    if c = '\x27' then scan .inside depth (c :: segment) done cs
    else if c = '(' then scan .outside (depth + 1) (c :: segment) done cs
    else if c = ')' then
      match depth with
      | depth + 1 => scan .outside depth (c :: segment) done cs
      | 0 =>
        match Text.trim segment.reverse, done with
        | [], [] => .ok ([], cs)
        | [], _ :: _ => .error .emptyParameter
        | last, done => .ok ((String.ofList last :: done).reverse, cs)
    else if c = ',' ∧ depth = 0 then
      match Text.trim segment.reverse with
      | [] => .error .emptyParameter
      | value => scan .outside 0 [] (String.ofList value :: done) cs
    else scan .outside depth (c :: segment) done cs

def checkName (name : List Char) : Except TextFault String :=
  if name.isEmpty then .error .noName
  else if name.all isNameChar then .ok (String.ofList name)
  else .error .badName

def ofTrimmed (cs : List Char) : Except TextFault Descriptor :=
  let front := cs.takeWhile (· != '(')
  match cs.dropWhile (· != '(') with
  | [] => do
    let name ← checkName front
    return ⟨name, [], ""⟩
  | parenthesis :: body => do
    let name ← checkName (Text.trimEnd front)
    match ← scan .outside 0 [] [] body with
    | (parameters, []) => return ⟨name, parameters, String.ofList (parenthesis :: body)⟩
    | (_, _ :: _) => .error .trailing

def parse (text : String) : Except Fault Descriptor :=
  let cs := Text.trim text.toList
  match ofTrimmed cs with
  | .ok d => .ok d
  | .error reason => .error (.malformed (String.ofList cs) reason)

end TypedColumn.Descriptor
