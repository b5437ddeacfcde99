import TypedColumn.Layout.Column
import TypedColumn.Registry
import TypedColumn.Settings.Document

/-!
Sessions: a registry, a current layout, a buffer with a position, and what was written so far. A step
that fails leaves all of these alone, save that a failed writing keeps the bytes it came to.
-/

namespace TypedColumn

inductive Step : Type
  | configure : (document : String) → Step
  | register : (name : String) → Constructor → Step
  | isRegistered : (name : String) → Step
  | lookup : (text : String) → Step
  | resolve : (text : String) → Step
  | build : Descriptor → Step
  | load : Bytes → Step
  | turn : Step
  | seek : Nat → Step
  | readRow : Step
  | readColumn : (rows : Nat) → (swap native : Bool) → Step
  | write : Value → Step
  | readCount : Step
  | writeCount : Nat → Step

inductive Answer : Type
  | settings : Settings → Answer
  | registered : (name : String) → Answer
  | truth : Bool → Answer
  | shared : Layout → (first : Nat) → Answer
  | layout : Layout → Answer
  | done : Answer
  | bytes : Bytes → Answer
  | value : Value → (next : Nat) → Answer
  | values : List Value → (next : Nat) → Answer
  | count : Nat → Answer
  | fault : Fault → Answer
  | noLayout : Answer

structure Session : Type where
  registry : Registry := {}
  current : Option Layout := none
  buffer : Bytes := []
  position : Nat := 0
  written : Bytes := []
  givenAt : List (Nat × Nat) := []
  steps : Nat := 0

namespace Session

def read {α : Type} (s : Session) (r : Reader α) (answer : α → Nat → Answer) : Answer × Session :=
  match r s.buffer s.position with
  | .ok (a, next) => (answer a next, { s with position := next })
  | .error f => (.fault f, s)

def write (s : Session) (w : Writer) : Answer × Session :=
  match w s.written with
  | (.ok _, out) => (.done, { s with written := out })
  | (.error f, out) => (.fault f, { s with written := out })

def withLayout (s : Session) (act : Layout → Answer × Session) : Answer × Session :=
  match s.current with
  | some l => act l
  | none => (.noLayout, s)

def give (s : Session) (shared : Shared) : Answer × Session :=
  match s.givenAt.lookup shared.number with
  | some first => (.shared shared.layout first, { s with current := some shared.layout })
  | none =>
    (.shared shared.layout s.steps,
      { s with
        current := some shared.layout
        givenAt := (shared.number, s.steps) :: s.givenAt })

def act (s : Session) : Step → Answer × Session
  | .configure document =>
    match Settings.parse document with
    | .ok settings => (.settings settings, { s with registry := s.registry.renew settings })
    | .error f => (.fault f, s)
  | .register name construct =>
    (.registered name, { s with registry := s.registry.register name construct })
  | .isRegistered name => (.truth (s.registry.isRegistered name), s)
  | .lookup text =>
    match s.registry.lookup text with
    | (.ok shared, registry) => give { s with registry := registry } shared
    | (.error f, registry) => (.fault f, { s with registry := registry })
  | .resolve text =>
    match s.registry.resolve text with
    | .ok l => (.layout l, s)
    | .error f => (.fault f, s)
  | .build d =>
    match s.registry.build d with
    | .ok l => (.layout l, { s with current := some l })
    | .error f => (.fault f, s)
  | .load bs => (.done, { s with buffer := bs, position := 0 })
  | .turn => (.bytes s.written, { s with buffer := s.written, position := 0, written := [] })
  | .seek position => (.done, { s with position := position })
  | .readRow => s.withLayout fun l => s.read l.read .value
  | .readColumn rows swap native => s.withLayout fun l =>
    s.read (if native then l.readColumn swap rows else l.readRows swap rows) .values
  | .write v => s.withLayout fun l => s.write (l.write v)
  | .readCount => s.read CountPrefix.read fun n _ => .count n
  | .writeCount n => s.write (CountPrefix.write n)

def step (s : Session) (a : Step) : Answer × Session :=
  let (answer, s) := s.act a
  (answer, { s with steps := s.steps + 1 })

def run (s : Session) : List Step → List (Answer × Session)
  | [] => []
  | a :: as =>
    let (answer, s) := s.step a
    (answer, s) :: run s as

end Session

end TypedColumn
