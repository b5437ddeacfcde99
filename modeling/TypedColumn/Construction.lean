import TypedColumn.Descriptor.Parser
import TypedColumn.Layout
import TypedColumn.Text.Digits

/-!
Construction of layouts. A constructor is called with the descriptor of a type and a scope, through
which it has the layouts of other types. Every form of layout has a constructor of its own; these keep
arrays out of arrays, nullable types out of nullable types, and tuples from being empty.
-/

namespace TypedColumn

/-- What a constructor sees of the registry that calls it. -/
structure Scope : Type where
  settings : Settings
  isRegistered : String → Bool
  build : Descriptor → Except Fault Layout

abbrev Constructor := Scope → Descriptor → Except Fault Layout

def Scope.resolve (scope : Scope) (text : String) : Except Fault Layout := do
  scope.build (← Descriptor.parse text)

def Descriptor.expect (d : Descriptor) (count : Nat) : Except Fault Unit :=
  if d.parameters.length = count then .ok ()
  else .error (.parameter d.text (.count count d.parameters.length))

def Descriptor.size? (text : String) : Option Nat := do
  let n ← Text.toNat? (match text.toList with | '+' :: cs => cs | cs => cs)
  if 0 < n ∧ n ≤ greatestWord then some n else none

namespace Layout

def numberOf (d : Descriptor) : Except Fault Layout :=
  match NumberKind.ofName? d.name with
  | none => .error (.parameter d.text .notNumeric)
  | some k => do
    d.expect 0
    return .number k

def fixedStringOf (form : FixedForm) (d : Descriptor) : Except Fault Layout := do
  d.expect 1
  match d.parameters.head?.bind Descriptor.size? with
  | some size => return .fixedString d.text size form
  | none => .error (.parameter d.text .size)

def nullableOf (scope : Scope) (d : Descriptor) : Except Fault Layout :=
  match d.parameters with
  | [inner] => do
    match ← scope.resolve inner with
    | .nullable _ _ => .error (.nestedNullable d.text)
    | inner => return .nullable d.text inner
  | vs => .error (.parameter d.text (.count 1 vs.length))

def arrayOf (scope : Scope) (d : Descriptor) : Except Fault Layout :=
  match d.parameters with
  | [element] => do
    if (← Descriptor.parse element).name = "Array" then .error (.nestedArray d.text)
    else
      match ← scope.resolve element with
      | .array _ _ => .error (.nestedArray d.text)
      | element => return .array d.text element
  | vs => .error (.parameter d.text (.count 1 vs.length))

def tupleOf (scope : Scope) (d : Descriptor) : Except Fault Layout :=
  if d.parameters.isEmpty then .error (.parameter d.text .noElement)
  else return .tuple d.text (← d.parameters.mapM scope.resolve)

def mapOf (scope : Scope) (d : Descriptor) : Except Fault Layout :=
  match d.parameters with
  | [key, value] => do
    let key ← scope.resolve key
    let value ← scope.resolve value
    return .map d.text key value
  | vs => .error (.parameter d.text (.count 2 vs.length))

def aggregateStateOf (d : Descriptor) : Except Fault Layout :=
  if d.parameters.isEmpty then .error (.parameter d.text .noFunction)
  else .ok (.aggregateState d.text)

def simpleAggregateOf (scope : Scope) (d : Descriptor) : Except Fault Layout :=
  match d.parameters with
  | _ :: inner :: _ => return .simpleAggregate d.text (← scope.resolve inner)
  | _ => .error (.parameter d.text .noValueType)

end Layout

inductive Form : Type
  | number : Form
  | string : Form
  | uuid : Form
  | fixedString : Form
  | nothing : Form
  | nullable : Form
  | array : Form
  | tuple : Form
  | map : Form
  | aggregateState : Form
  | simpleAggregate : Form
  deriving DecidableEq

def Form.construct (form : Form) (scope : Scope) (d : Descriptor) : Except Fault Layout :=
  match form with
  | .number => Layout.numberOf d
  | .string => do
    d.expect 0
    return .string
  | .uuid => do
    d.expect 0
    return .uuid
  | .fixedString => Layout.fixedStringOf scope.settings.fixedString d
  | .nothing => do
    d.expect 0
    return .nothing
  | .nullable => Layout.nullableOf scope d
  | .array => Layout.arrayOf scope d
  | .tuple => Layout.tupleOf scope d
  | .map => Layout.mapOf scope d
  | .aggregateState => Layout.aggregateStateOf d
  | .simpleAggregate => Layout.simpleAggregateOf scope d

namespace Constructor

def ofNumber (k : NumberKind) : Constructor := fun _ _ => .ok (.number k)

def ofText (text : String) : Constructor := fun scope _ => scope.resolve text

def ofParameter : Constructor := fun scope d =>
  match d.parameters with
  | v :: _ => scope.resolve v
  | [] => .error (.parameter d.text .noAliased)

end Constructor

end TypedColumn
