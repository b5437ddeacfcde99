import TypedColumn.Settings

/-!
Layouts: how the values of a type lie in bytes. A layout is a tree of the shape of its type; a node
that was built from parameters keeps the text of its type as its name.
-/

namespace TypedColumn

inductive Layout : Type
  | number : NumberKind → Layout
  | string : Layout
  | uuid : Layout
  | fixedString : (name : String) → (size : Nat) → FixedForm → Layout
  | nothing : Layout
  | nullable : (name : String) → (inner : Layout) → Layout
  | array : (name : String) → (element : Layout) → Layout
  | tuple : (name : String) → (elements : List Layout) → Layout
  | map : (name : String) → (key value : Layout) → Layout
  | aggregateState : (name : String) → Layout
  | simpleAggregate : (name : String) → (inner : Layout) → Layout

namespace Layout

def typeName : Layout → String
  | .number k => k.name
  | .string => "String"
  | .uuid => "UUID"
  | .fixedString name _ _ => name
  | .nothing => "Nothing"
  | .nullable name _ => name
  | .array name _ => name
  | .tuple name _ => name
  | .map name _ _ => name
  | .aggregateState name => name
  | .simpleAggregate name _ => name

mutual
/-- The fewest bytes that one value takes in a row, as far as a word counts them. -/
def minWidth : Layout → Nat
  | .number k => k.width
  | .string => 1
  | .uuid => 16
  | .fixedString _ size _ => size
  | .nothing => 0
  | .nullable _ _ => 1
  | .array _ _ => 1
  | .tuple _ elements => minWidths elements
  | .map _ _ _ => 1
  | .aggregateState _ => 0
  | .simpleAggregate _ inner => minWidth inner
def minWidths : List Layout → Nat
  | [] => 0
  | l :: ls => addWords (minWidth l) (minWidths ls)
end

@[induction_eliminator]
theorem inductionOn {P : Layout → Prop}
    (number : ∀ k, P (.number k))
    (string : P .string)
    (uuid : P .uuid)
    (fixedString : ∀ name size form, P (.fixedString name size form))
    (nothing : P .nothing)
    (nullable : ∀ name inner, P inner → P (.nullable name inner))
    (array : ∀ name element, P element → P (.array name element))
    (tuple : ∀ name elements, (∀ l ∈ elements, P l) → P (.tuple name elements))
    (map : ∀ name key value, P key → P value → P (.map name key value))
    (aggregateState : ∀ name, P (.aggregateState name))
    (simpleAggregate : ∀ name inner, P inner → P (.simpleAggregate name inner))
    (l : Layout) : P l :=
  @Layout.rec P (fun ls => ∀ l ∈ ls, P l) number string uuid fixedString nothing nullable array
    tuple map aggregateState simpleAggregate (by simp) (fun l ls hl hls => by simpa using ⟨hl, hls⟩) l

mutual
def same : Layout → Layout → Bool
  | .number a, .number b => a = b
  | .string, .string => true
  | .uuid, .uuid => true
  | .fixedString a n f, .fixedString b m g => a = b && n = m && f = g
  | .nothing, .nothing => true
  | .nullable a l, .nullable b m => a = b && same l m
  | .array a l, .array b m => a = b && same l m
  | .tuple a ls, .tuple b ms => a = b && sameAll ls ms
  | .map a k v, .map b l w => a = b && same k l && same v w
  | .aggregateState a, .aggregateState b => a = b
  | .simpleAggregate a l, .simpleAggregate b m => a = b && same l m
  | _, _ => false
def sameAll : List Layout → List Layout → Bool
  | [], [] => true
  | l :: ls, m :: ms => same l m && sameAll ls ms
  | _, _ => false
end

theorem sameAll_iff {ls : List Layout} (ih : ∀ l ∈ ls, ∀ m, same l m ↔ l = m) (ms : List Layout) :
    sameAll ls ms ↔ ls = ms := by
  induction ls generalizing ms with
  | nil => cases ms <;> simp [sameAll]
  | cons l ls ihs =>
    cases ms with
    | nil => simp [sameAll]
    | cons m ms =>
      simp only [List.mem_cons, forall_eq_or_imp] at ih
      simp [sameAll, ih.1 m, ihs ih.2 ms]

theorem same_iff (l m : Layout) : same l m ↔ l = m := by
  induction l generalizing m with
  | number k => cases m <;> simp [same]
  | string => cases m <;> simp [same]
  | uuid => cases m <;> simp [same]
  | fixedString name size form => cases m <;> simp [same, and_assoc]
  | nothing => cases m <;> simp [same]
  | nullable name inner ih => cases m <;> simp [same, ih]
  | array name element ih => cases m <;> simp [same, ih]
  | tuple name elements ih => cases m <;> simp [same, sameAll_iff ih]
  | map name key value ihk ihv => cases m <;> simp [same, ihk, ihv, and_assoc]
  | aggregateState name => cases m <;> simp [same]
  | simpleAggregate name inner ih => cases m <;> simp [same, ih]

instance : DecidableEq Layout := fun l m => decidable_of_iff (same l m) (same_iff l m)

end Layout

end TypedColumn
