import TypedColumn.Construction

/-!
Registries: constructors by name, and the layouts that were looked up so far. A type is built by the
constructor of its name, which may come back for other types. A looked-up layout is shared by all
look-ups of the same descriptor text until a constructor is registered.

A constructor that asks for types with shorter parameters only, as all forms do, comes to an end by
itself. One that asks for another type takes a detour, and detours are followed up to a limit.
-/

namespace TypedColumn

abbrev Table := List (String × Constructor)

namespace Table

def builtin : Table :=
  NumberKind.all.map (fun k => (k.name, Form.number.construct)) ++
    [("String", Form.string.construct),
      ("UUID", Form.uuid.construct),
      ("FixedString", Form.fixedString.construct),
      ("Nothing", Form.nothing.construct),
      ("Nullable", Form.nullable.construct),
      ("Array", Form.array.construct),
      ("Tuple", Form.tuple.construct),
      ("Map", Form.map.construct),
      ("AggregateFunction", Form.aggregateState.construct),
      ("SimpleAggregateFunction", Form.simpleAggregate.construct)]

/-- Builds the layout of a descriptor. A type that takes one detour too many is left to `beyond`. -/
def build (table : Table) (settings : Settings) (beyond : Descriptor → Except Fault Layout)
    (detours : Nat) (d : Descriptor) : Except Fault Layout :=
  match table.lookup d.name with
  | none => .error (.unknownType d.name)
  | some construct =>
    construct
      { settings := settings
        isRegistered := fun name => (table.lookup name).isSome
        build := fun inner =>
          if inner.reach < d.reach then build table settings beyond detours inner
          else
            match detours with
            | 0 => beyond inner
            | n + 1 => build table settings beyond n inner } d
termination_by (detours, d.reach)

end Table

/-- A layout that several look-ups may share, told apart from others by its number. -/
structure Shared : Type where
  number : Nat
  layout : Layout
  deriving DecidableEq

/-- How many detours in a row are followed, and what is said of a type beyond them. Constructors that
come to an end by themselves do so within some limit. -/
structure Limit : Type where
  detours : Nat := greatestWord
  beyond : Descriptor → Fault := fun d => .unknownType d.name

structure Registry : Type where
  limit : Limit := {}
  settings : Settings := {}
  table : Table := Table.builtin
  known : List (String × Shared) := []
  issued : Nat := 0

namespace Registry

def new (settings : Settings) : Registry := { settings := settings }

def within (r : Registry) (limit : Limit) : Registry := { r with limit := limit }

def renew (r : Registry) (settings : Settings) : Registry :=
  { limit := r.limit, settings := settings, issued := r.issued }

def isRegistered (r : Registry) (name : String) : Bool := (r.table.lookup name).isSome

/-- Puts a constructor in the place of one with the same name and forgets all shared layouts. -/
def register (r : Registry) (name : String) (construct : Constructor) : Registry :=
  { r with table := (name, construct) :: r.table, known := [] }

def build (r : Registry) (d : Descriptor) : Except Fault Layout :=
  r.table.build r.settings (Except.error ∘ r.limit.beyond) r.limit.detours d

def resolve (r : Registry) (text : String) : Except Fault Layout := do
  r.build (← Descriptor.parse text)

def scope (r : Registry) : Scope where
  settings := r.settings
  isRegistered := r.isRegistered
  build := r.build

def share (r : Registry) (key : String) (l : Layout) : Shared × Registry :=
  let shared : Shared := ⟨r.issued, l⟩
  (shared, { r with known := (key, shared) :: r.known, issued := r.issued + 1 })

def lookup (r : Registry) (text : String) : Except Fault Shared × Registry :=
  match Descriptor.parse text with
  | .error f => (.error f, r)
  | .ok d =>
    match r.known.lookup d.text with
    | some shared => (.ok shared, r)
    | none =>
      match r.build d with
      | .error f => (.error f, r)
      | .ok l =>
        let (shared, r) := r.share d.text l
        (.ok shared, r)

end Registry

end TypedColumn
