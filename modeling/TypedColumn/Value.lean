import TypedColumn.Number
import TypedColumn.Uuid

namespace TypedColumn

inductive Value : Type
  | null : Value
  | number : Number → Value
  | string : String → Value
  | bytes : Bytes → Value
  | uuid : Uuid → Value
  | array : List Value → Value
  | tuple : List Value → Value
  | map : List (Value × Value) → Value

abbrev Pairs := List (Value × Value)

namespace Value

/-- The bytes of memory that a value takes, whatever it holds elsewhere. -/
def size : Nat := 80

inductive Kind : Type
  | null : Kind
  | number : NumberKind → Kind
  | string : Kind
  | bytes : Kind
  | uuid : Kind
  | array : Kind
  | tuple : Kind
  | map : Kind
  deriving DecidableEq

def Kind.name : Kind → String
  | .null => "Null"
  | .number k => k.name
  | .string => "String"
  | .bytes => "Bytes"
  | .uuid => "UUID"
  | .array => "Array"
  | .tuple => "Tuple"
  | .map => "Map"

def kind : Value → Kind
  | .null => .null
  | .number n => .number n.kind
  | .string _ => .string
  | .bytes _ => .bytes
  | .uuid _ => .uuid
  | .array _ => .array
  | .tuple _ => .tuple
  | .map _ => .map

def isNull : Value → Bool
  | .null => true
  | _ => false

@[induction_eliminator]
theorem inductionOn {P : Value → Prop}
    (null : P .null)
    (number : ∀ n, P (.number n))
    (string : ∀ s, P (.string s))
    (bytes : ∀ bs, P (.bytes bs))
    (uuid : ∀ u, P (.uuid u))
    (array : ∀ vs, (∀ v ∈ vs, P v) → P (.array vs))
    (tuple : ∀ vs, (∀ v ∈ vs, P v) → P (.tuple vs))
    (map : ∀ ps : List (Value × Value), (∀ p ∈ ps, P p.1 ∧ P p.2) → P (.map ps))
    (v : Value) : P v :=
  @Value.rec P (fun vs => ∀ v ∈ vs, P v) (fun ps => ∀ p ∈ ps, P p.1 ∧ P p.2)
    (fun p => P p.1 ∧ P p.2) null number string bytes uuid array tuple map (by simp)
    (fun v vs hv hvs => by simpa using ⟨hv, hvs⟩) (by simp)
    (fun p ps hp hps => List.forall_mem_cons.2 ⟨hp, hps⟩) (fun _ _ hk hv => ⟨hk, hv⟩) v

mutual
/-- Sameness of values: of one kind with the same content. -/
def same : Value → Value → Bool
  | .null, .null => true
  | .number a, .number b => a = b
  | .string a, .string b => a = b
  | .bytes a, .bytes b => a = b
  | .uuid a, .uuid b => a = b
  | .array as, .array bs => sameAll as bs
  | .tuple as, .tuple bs => sameAll as bs
  | .map ps, .map qs => ps.length == qs.length && within ps qs
  | _, _ => false
def sameAll : List Value → List Value → Bool
  | [], [] => true
  | a :: as, b :: bs => same a b && sameAll as bs
  | _, _ => false
def within : List (Value × Value) → List (Value × Value) → Bool
  | [], _ => true
  | (k, v) :: ps, qs =>
    (match qs.find? fun q => same k q.1 with
      | some q => same v q.2
      | none => false) && within ps qs
end

instance : BEq Value := ⟨same⟩

end Value

namespace Pairs

/-- The bytes of memory that a pair takes: its key and value, and a hash. -/
def entrySize : Nat := 176

def find? (ps : Pairs) (k : Value) : Option Value := (List.find? (fun p => k.same p.1) ps).map (·.2)

/-- A key that is there keeps its place and takes the new value; any other comes last. -/
def insert (k v : Value) : Pairs → Pairs
  | [] => [(k, v)]
  | (k', v') :: ps => if k.same k' then (k', v) :: ps else (k', v') :: insert k v ps

def ofList (ps : List (Value × Value)) : Pairs := ps.foldl (fun m p => insert p.1 p.2 m) []

end Pairs

end TypedColumn
