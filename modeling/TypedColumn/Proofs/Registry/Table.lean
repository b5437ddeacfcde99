import TypedColumn.Registry

namespace TypedColumn

def Form.names : Form → List String
  | .number => NumberKind.all.map NumberKind.name
  | .string => ["String"]
  | .uuid => ["UUID"]
  | .fixedString => ["FixedString"]
  | .nothing => ["Nothing"]
  | .nullable => ["Nullable"]
  | .array => ["Array"]
  | .tuple => ["Tuple"]
  | .map => ["Map"]
  | .aggregateState => ["AggregateFunction"]
  | .simpleAggregate => ["SimpleAggregateFunction"]

namespace Table

section Building

variable {table : Table} {settings : Settings} {beyond : Descriptor → Except Fault Layout}
variable {detours : Nat} {d : Descriptor}

def scopeOf (table : Table) (settings : Settings) (beyond : Descriptor → Except Fault Layout)
    (detours : Nat) (d : Descriptor) : Scope where
  settings := settings
  isRegistered := fun name => (table.lookup name).isSome
  build := fun inner =>
    if inner.reach < d.reach then table.build settings beyond detours inner
    else
      match detours with
      | 0 => beyond inner
      | n + 1 => table.build settings beyond n inner

theorem build_of_lookup {construct : Constructor} (h : table.lookup d.name = some construct) :
    table.build settings beyond detours d =
      construct (table.scopeOf settings beyond detours d) d := by
  rw [build, h]
  rfl

theorem forall_build {P : Layout → Prop}
    (h : ∀ {name construct}, table.lookup name = some construct → ∀ scope : Scope,
      (∀ d l, scope.build d = .ok l → P l) → ∀ d l, construct scope d = .ok l → P l)
    (hbeyond : ∀ d l, beyond d = .ok l → P l) (d : Descriptor) :
    ∀ l, table.build settings beyond detours d = .ok l → P l := by
  induction detours, d using Table.build.induct table with
  | case1 detours d hnone =>
    intro l hl
    rw [build, hnone] at hl
    cases hl
  | case2 detours d construct hsome shorter further =>
    intro l hl
    rw [build_of_lookup hsome] at hl
    refine h hsome _ (fun inner m hm => ?_) d l hl
    simp only [scopeOf] at hm
    split at hm
    · rename_i hlt
      exact shorter inner hlt m hm
    · cases detours with
      | zero => exact hbeyond inner m hm
      | succ n => exact further inner m hm

theorem build_succ (table : Table) (settings : Settings)
    (beyond : Descriptor → Except Fault Layout) (detours : Nat) (d : Descriptor) :
    table.build settings beyond (detours + 1) d =
      table.build settings (table.build settings beyond 0) detours d := by
  induction detours, d using Table.build.induct table with
  | case1 detours d hnone => rw [build, build, hnone]
  | case2 detours d construct hsome shorter further =>
    rw [build_of_lookup hsome, build_of_lookup hsome]
    congr 1
    simp only [scopeOf, Scope.mk.injEq, true_and]
    funext inner
    split
    · rename_i hlt
      exact shorter inner hlt
    · cases detours with
      | zero => rfl
      | succ n => exact further inner

/-- Building comes to an end within the limit: what is said beyond it is not heard. -/
def Ends (table : Table) (settings : Settings) (detours : Nat) (d : Descriptor)
    (outcome : Except Fault Layout) : Prop :=
  ∀ beyond, table.build settings beyond detours d = outcome

theorem Ends.mono {outcome : Except Fault Layout} {more : Nat} (hle : detours ≤ more)
    (h : table.Ends settings detours d outcome) : table.Ends settings more d outcome := by
  induction hle with
  | refl => exact h
  | step _ ih =>
    intro beyond
    rw [build_succ]
    exact ih _

end Building

theorem forms_of_builtin :
    ∀ p ∈ builtin, ∃ form : Form, p.1 ∈ form.names ∧ p.2 = form.construct := by
  rw [builtin, List.forall_mem_append, List.forall_mem_map]
  refine ⟨fun k hk => ⟨.number, List.mem_map_of_mem hk, rfl⟩, ?_⟩
  simp only [List.forall_mem_cons]
  exact ⟨⟨.string, .head _, rfl⟩, ⟨.uuid, .head _, rfl⟩, ⟨.fixedString, .head _, rfl⟩,
    ⟨.nothing, .head _, rfl⟩, ⟨.nullable, .head _, rfl⟩, ⟨.array, .head _, rfl⟩,
    ⟨.tuple, .head _, rfl⟩, ⟨.map, .head _, rfl⟩, ⟨.aggregateState, .head _, rfl⟩,
    ⟨.simpleAggregate, .head _, rfl⟩, List.forall_mem_nil _⟩

theorem lookup_builtin {form : Form} :
    ∀ name ∈ form.names, builtin.lookup name = some form.construct := by
  cases form with
  | number =>
    rw [Form.names, List.forall_mem_map]
    intro k _
    rcases k with _ | w | w | p
    · rfl
    · cases w <;> rfl
    · cases w <;> rfl
    · cases p <;> rfl
  | _ => exact List.forall_mem_singleton.2 rfl

theorem lookup_builtin_iff {name : String} {construct : Constructor} :
    builtin.lookup name = some construct ↔
      ∃ form : Form, name ∈ form.names ∧ construct = form.construct := by
  constructor
  · intro h
    obtain ⟨front, back, hbuiltin, -⟩ := List.lookup_eq_some_iff.1 h
    exact forms_of_builtin (name, construct) (by simp [hbuiltin])
  · rintro ⟨form, hname, rfl⟩
    exact lookup_builtin name hname

end Table

theorem Registry.build_within {r : Registry} {d : Descriptor} {outcome : Except Fault Layout}
    (h : r.table.Ends r.settings r.limit.detours d outcome) {limit : Limit}
    (hle : r.limit.detours ≤ limit.detours) : (r.within limit).build d = r.build d :=
  (h.mono hle _).trans (h _).symm

example : Table.Ends (("Bytes", .ofText "Array(UInt8)") :: Table.builtin) {} 1 ⟨"Bytes", [], ""⟩
    (.ok (.array "Array(UInt8)" (.number (.uint .w8)))) := by
  intro beyond
  cbv

end TypedColumn
