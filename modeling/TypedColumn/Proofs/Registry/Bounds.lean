import Mathlib
import TypedColumn.Proofs.Descriptor.Pieces
import TypedColumn.Proofs.Registry.Language

namespace TypedColumn

namespace Layout

mutual
def nodes : Layout → Nat
  | .nullable _ inner => nodes inner + 1
  | .array _ element => nodes element + 1
  | .tuple _ elements => nodesEach elements + 1
  | .map _ key value => nodes key + nodes value + 1
  | .simpleAggregate _ inner => nodes inner + 1
  | _ => 1
def nodesEach : List Layout → Nat
  | [] => 0
  | l :: ls => nodes l + nodesEach ls
end

variable {form : FixedForm}

theorem nodesEach_le {ls : List Layout} {ps : List String} (h : MirrorsEach form ls ps)
    (ih : ∀ l ∈ ls, ∀ {p e}, Descriptor.parse p = .ok e → l.Mirrors form e →
      l.nodes ≤ p.utf8ByteSize) : nodesEach ls ≤ (ps.map String.utf8ByteSize).sum := by
  induction ls generalizing ps with
  | nil => exact Nat.zero_le _
  | cons l ls ihs =>
    rw [List.forall_mem_cons] at ih
    obtain ⟨p, e, rest, rfl, he, hl, hrest⟩ := h
    rw [nodesEach, List.map_cons, List.sum_cons]
    exact Nat.add_le_add (ih.1 he hl) (ihs hrest ih.2)

theorem Mirrors.nodes_le {l : Layout} {text : String} {d : Descriptor}
    (hparse : Descriptor.parse text = .ok d) (h : l.Mirrors form d) :
    l.nodes ≤ text.utf8ByteSize := by
  -- each part has a parameter of its own, and the node itself the parentheses
  induction l generalizing text d with
  | nullable name inner ih =>
    obtain ⟨-, -, -, p, e, hp, he, hinner⟩ := h
    have shorter := Descriptor.size_parameter_lt hparse (p := p) (by simp [hp])
    exact Nat.lt_of_le_of_lt (ih he hinner) shorter
  | array name element ih =>
    obtain ⟨-, -, -, p, e, hp, he, helement⟩ := h
    have shorter := Descriptor.size_parameter_lt hparse (p := p) (by simp [hp])
    exact Nat.lt_of_le_of_lt (ih he helement) shorter
  | tuple name elements ih =>
    obtain ⟨-, -, hsome, helements⟩ := h
    have parts := nodesEach_le helements ih
    have room := Descriptor.sum_parameters_le hparse hsome
    rw [nodes]
    omega
  | map name key value ihk ihv =>
    obtain ⟨-, -, p, e, q, e', hp, he, hkey, he', hvalue⟩ := h
    have keys := ihk he hkey
    have values := ihv he' hvalue
    have room := Descriptor.sum_parameters_le hparse (by simp [hp])
    simp only [hp, List.map_cons, List.map_nil, List.sum_cons, List.sum_nil] at room
    rw [nodes]
    omega
  | simpleAggregate name inner ih =>
    obtain ⟨-, -, f, p, rest, e, hp, he, hinner⟩ := h
    have shorter := Descriptor.size_parameter_lt hparse (p := p) (by simp [hp])
    exact Nat.lt_of_le_of_lt (ih he hinner) shorter
  | _ => exact Descriptor.size_of_parsed_pos hparse

end Layout

section Scopes

variable {scope scope' : Scope} {d : Descriptor}

theorem mapM_congr {α β : Type} {f g : α → Except Fault β} {as : List α}
    (h : ∀ a ∈ as, f a = g a) : as.mapM f = as.mapM g := by
  induction as with
  | nil => rfl
  | cons a as ih =>
    rw [List.forall_mem_cons] at h
    rw [List.mapM_cons, List.mapM_cons, h.1, ih h.2]

theorem Form.construct_congr (form : Form) (hsettings : scope.settings = scope'.settings)
    (h : ∀ p ∈ d.parameters, scope.resolve p = scope'.resolve p) :
    form.construct scope d = form.construct scope' d := by
  cases form with
  | fixedString => rw [construct, construct, hsettings]
  | nullable =>
    simp only [construct, Layout.nullableOf]
    split
    · rename_i p hp
      rw [h p (by simp [hp])]
    · rfl
  | array =>
    simp only [construct, Layout.arrayOf]
    split
    · rename_i p hp
      rw [h p (by simp [hp])]
    · rfl
  | tuple => rw [construct, construct, Layout.tupleOf, Layout.tupleOf, mapM_congr h]
  | map =>
    simp only [construct, Layout.mapOf]
    split
    · rename_i p q hp
      rw [h p (by simp [hp]), h q (by simp [hp])]
    · rfl
  | simpleAggregate =>
    simp only [construct, Layout.simpleAggregateOf]
    split
    · rename_i p rest hp
      rw [h p (by simp [hp])]
    · rfl
  | _ => rfl

end Scopes

namespace Table

variable {settings : Settings} {build build' : Descriptor → Except Fault Layout} {d : Descriptor}

def step (table : Table) (settings : Settings) (build : Descriptor → Except Fault Layout)
    (d : Descriptor) : Except Fault Layout :=
  match table.lookup d.name with
  | none => .error (.unknownType d.name)
  | some construct =>
    construct
      { settings := settings
        isRegistered := fun name => (table.lookup name).isSome
        build := build } d

theorem construct_congr {construct : Constructor} {scope scope' : Scope}
    (hlookup : builtin.lookup d.name = some construct)
    (hsettings : scope.settings = scope'.settings)
    (h : ∀ p ∈ d.parameters, scope.resolve p = scope'.resolve p) :
    construct scope d = construct scope' d := by
  obtain ⟨form, -, rfl⟩ := lookup_builtin_iff.1 hlookup
  exact form.construct_congr hsettings h

theorem step_congr
    (h : ∀ p ∈ d.parameters, ∀ e, Descriptor.parse p = .ok e → build e = build' e) :
    builtin.step settings build d = builtin.step settings build' d := by
  rw [step, step]
  split
  · rfl
  · rename_i construct hlookup
    refine construct_congr hlookup rfl fun p hp => ?_
    rw [Scope.resolve, Scope.resolve]
    cases hparse : Descriptor.parse p with
    | error f => rfl
    | ok e => exact h p hp e hparse

theorem build_eq_step (settings : Settings) (beyond : Descriptor → Except Fault Layout)
    (detours : Nat) (d : Descriptor) :
    builtin.build settings beyond detours d =
      builtin.step settings (builtin.build settings beyond detours) d := by
  rw [step]
  split
  · rename_i hnone
    rw [Table.build, hnone]
  · rename_i construct hlookup
    rw [build_of_lookup hlookup]
    exact construct_congr hlookup rfl fun p hp => builtin.resolve_parameter hp

theorem eq_of_step (h : ∀ d, build d = builtin.step settings build d)
    (h' : ∀ d, build' d = builtin.step settings build' d) : build = build' := by
  -- the recursion leaves no choice: the parameters get shorter
  funext d
  induction hreach : d.reach using Nat.strong_induction_on generalizing d with
  | h n ih =>
    subst hreach
    rw [h, h']
    exact step_congr fun p hp e he => ih _ (Descriptor.reach_lt_of_parameter hp he) e rfl

end Table

namespace Registry

/-- The parameters of a text are pieces of it, shorter together than the text. No constructor asks
for a text that is not shorter. So the recursion has one outcome without a limit, which is the same
within any limit, whatever is said of types beyond it. The layout has at most a node for each byte of
the text. -/
theorem resolve_bounded (settings : Settings) (text : String) :
    (∀ d, Descriptor.parse text = .ok d → (∀ p ∈ d.parameters, p ≠ "") ∧
        (d.parameters ≠ [] → Descriptor.Encloses text.toList d.parameters ∧
          (d.parameters.map String.utf8ByteSize).sum + d.parameters.length + 2 ≤
            text.utf8ByteSize)) ∧
      (∀ d construct, Descriptor.parse text = .ok d →
        Table.builtin.lookup d.name = some construct →
        ∀ scope scope' : Scope, scope.settings = scope'.settings →
          (∀ p, p.utf8ByteSize < text.utf8ByteSize → scope.resolve p = scope'.resolve p) →
          construct scope d = construct scope' d) ∧
      (∀ build, (∀ d, build d = Table.builtin.step settings build d) ↔
        build = (new settings).build) ∧
      (∀ beyond detours, Descriptor.parse text >>= Table.builtin.build settings beyond detours =
        (new settings).resolve text) ∧
      ∀ l, (new settings).resolve text = .ok l → l.nodes ≤ text.utf8ByteSize := by
  refine ⟨fun d h => ⟨Descriptor.parameters_ne_empty h, fun hps =>
    ⟨Descriptor.encloses_parameters h hps, Descriptor.sum_parameters_le h hps⟩⟩, ?_, ?_, ?_, ?_⟩
  · intro d construct h hlookup scope scope' hsettings hshorter
    exact Table.construct_congr hlookup hsettings fun p hp =>
      hshorter p (Descriptor.size_parameter_lt h hp)
  · intro build
    constructor
    · intro h
      exact Table.eq_of_step h (Table.build_eq_step settings _ _)
    · rintro rfl
      exact Table.build_eq_step settings _ _
  · intro beyond detours
    have alike : Table.builtin.build settings beyond detours = (new settings).build :=
      Table.eq_of_step (Table.build_eq_step settings beyond detours)
        (Table.build_eq_step settings _ _)
    rw [alike]
    rfl
  · intro l h
    obtain ⟨d, hparse, hmirrors⟩ := resolve_eq_ok_iff.1 h
    exact hmirrors.nodes_le hparse

theorem resolve_bounded_blanks :
    let text := " Map( AggregateFunction(größe,UInt8) ,\tTuple( Nullable(UUID),String))"
    let inner : Layout := .tuple "Tuple( Nullable(UUID),String)"
      [.nullable "Nullable(UUID)" .uuid, .string]
    let l : Layout := .map "Map( AggregateFunction(größe,UInt8) ,\tTuple( Nullable(UUID),String))"
      (.aggregateState "AggregateFunction(größe,UInt8)") inner
    let d : Descriptor :=
      { name := "Map"
        parameters := ["AggregateFunction(größe,UInt8)", "Tuple( Nullable(UUID),String)"]
        written := "( AggregateFunction(größe,UInt8) ,\tTuple( Nullable(UUID),String))" }
    Descriptor.parse text = .ok d ∧ Descriptor.Encloses text.toList d.parameters ∧
      (new {}).resolve text = .ok l ∧
      Descriptor.parse text >>= Table.builtin.build {} (fun d => .error (.unknownType d.name)) 0 =
        .ok l ∧
      l.nodes ≤ text.utf8ByteSize ∧ l.nodes = 6 ∧ text.utf8ByteSize = 71 := by
  intro text inner l d
  have hparse : Descriptor.parse text = .ok d := by
    simp only [text, d]
    cbv
  have hresolve : (new {}).resolve text = .ok l := by
    simp only [text, l, inner]
    cbv
  obtain ⟨pieces, -, -, bound, size⟩ := resolve_bounded {} text
  exact ⟨hparse, ((pieces d hparse).2 (by simp [d])).1, hresolve, (bound _ 0).trans hresolve,
    size l hresolve, rfl, by decide⟩

end Registry

end TypedColumn
