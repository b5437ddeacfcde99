import TypedColumn.Proofs.Registry.Table
import TypedColumn.Proofs.Rendering

namespace TypedColumn

structure Scope.Restyles (scope scope' : Scope) : Prop where
  isRegistered : scope'.isRegistered = scope.isRegistered
  build (d : Descriptor) :
    scope'.build d = (scope.build d).map (Layout.inForm scope'.settings.fixedString)

def Constructor.Uniform (construct : Constructor) : Prop := ∀ scope scope' : Scope,
  scope.Restyles scope' → ∀ d, construct scope' d =
    (construct scope d).map (Layout.inForm scope'.settings.fixedString)

namespace Scope.Restyles

variable {scope scope' : Scope}

theorem resolve (h : scope.Restyles scope') (text : String) : scope'.resolve text =
    (scope.resolve text).map (Layout.inForm scope'.settings.fixedString) := by
  rw [Scope.resolve, Scope.resolve]
  cases Descriptor.parse text with
  | error f => rfl
  | ok d => exact h.build d

theorem resolveEach (h : scope.Restyles scope') (texts : List String) :
    texts.mapM scope'.resolve =
      (texts.mapM scope.resolve).map (Layout.inFormEach scope'.settings.fixedString) := by
  induction texts with
  | nil => rfl
  | cons text texts ih =>
    rw [List.mapM_cons, List.mapM_cons, h.resolve, ih]
    cases scope.resolve text with
    | error f => rfl
    | ok l => cases texts.mapM scope.resolve <;> rfl

end Scope.Restyles

theorem Form.uniform (form : Form) : Constructor.Uniform form.construct := by
  intro scope scope' h d
  cases form with
  | number =>
    rw [Form.construct, Form.construct, Layout.numberOf]
    cases NumberKind.ofName? d.name with
    | none => rfl
    | some k => cases d.expect 0 <;> rfl
  | string =>
    rw [Form.construct, Form.construct]
    cases d.expect 0 <;> rfl
  | uuid =>
    rw [Form.construct, Form.construct]
    cases d.expect 0 <;> rfl
  | fixedString =>
    rw [Form.construct, Form.construct, Layout.fixedStringOf, Layout.fixedStringOf]
    cases d.expect 1 with
    | error f => rfl
    | ok _ => cases d.parameters.head?.bind Descriptor.size? <;> rfl
  | nothing =>
    rw [Form.construct, Form.construct]
    cases d.expect 0 <;> rfl
  | nullable =>
    rw [Form.construct, Form.construct, Layout.nullableOf, Layout.nullableOf]
    split
    · rename_i inner _
      rw [h.resolve]
      cases scope.resolve inner with
      | error f => rfl
      | ok l => cases l <;> rfl
    · rfl
  | array =>
    rw [Form.construct, Form.construct, Layout.arrayOf, Layout.arrayOf]
    split
    · rename_i element _
      rw [h.resolve]
      cases Descriptor.parse element with
      | error f => rfl
      | ok inner =>
        simp only [bind, Except.bind]
        split
        · rfl
        · cases scope.resolve element with
          | error f => rfl
          | ok l => cases l <;> rfl
    · rfl
  | tuple =>
    rw [Form.construct, Form.construct, Layout.tupleOf, Layout.tupleOf, h.resolveEach]
    split
    · rfl
    · cases d.parameters.mapM scope.resolve <;> rfl
  | map =>
    rw [Form.construct, Form.construct, Layout.mapOf, Layout.mapOf]
    split
    · rename_i key value _
      rw [h.resolve, h.resolve]
      cases scope.resolve key with
      | error f => rfl
      | ok k => cases scope.resolve value <;> rfl
    · rfl
  | aggregateState =>
    rw [Form.construct, Form.construct, Layout.aggregateStateOf]
    split <;> rfl
  | simpleAggregate =>
    rw [Form.construct, Form.construct, Layout.simpleAggregateOf, Layout.simpleAggregateOf]
    split
    · rename_i inner _ _
      rw [h.resolve]
      cases scope.resolve inner <;> rfl
    · rfl

namespace Table

theorem build_inForm {table : Table}
    (uniform : ∀ {name construct}, table.lookup name = some construct → construct.Uniform)
    (settings settings' : Settings) (beyond : Descriptor → Fault) (detours : Nat) (d : Descriptor) :
    table.build settings' (Except.error ∘ beyond) detours d =
      (table.build settings (Except.error ∘ beyond) detours d).map
        (Layout.inForm settings'.fixedString) := by
  induction detours, d using Table.build.induct table with
  | case1 detours d hnone =>
    rw [build, build, hnone]
    rfl
  | case2 detours d construct hsome shorter further =>
    have restyles : (table.scopeOf settings (Except.error ∘ beyond) detours d).Restyles
        (table.scopeOf settings' (Except.error ∘ beyond) detours d) := by
      refine ⟨rfl, fun inner => ?_⟩
      simp only [scopeOf]
      split
      · rename_i hlt
        exact shorter inner hlt
      · cases detours with
        | zero => rfl
        | succ n => exact further inner
    rw [build_of_lookup hsome, build_of_lookup hsome]
    exact uniform hsome _ _ restyles d

theorem uniform_of_lookup_builtin {name : String} {construct : Constructor}
    (h : builtin.lookup name = some construct) : construct.Uniform := by
  obtain ⟨form, -, rfl⟩ := lookup_builtin_iff.1 h
  exact form.uniform

end Table

namespace Registry

theorem resolve_inForm (settings settings' : Settings) (text : String) :
    (new settings').resolve text =
      ((new settings).resolve text).map (Layout.inForm settings'.fixedString) := by
  rw [resolve, resolve]
  cases Descriptor.parse text with
  | error f => rfl
  | ok d => exact Table.build_inForm Table.uniform_of_lookup_builtin settings settings' _ _ d

/-- Under any two settings the same texts name types and the same buffers can be read, with the same
failures and the same places. The values are those of the raw form with their fixed-width strings
rendered, so that maps have the same pairs in the same order; no form renders two byte strings of one
length as the same value. -/
theorem reading_settings (settings settings' : Settings) (text : String) :
    ((∃ f, (new settings).resolve text = .error f ∧ (new settings').resolve text = .error f) ∨
      ∃ raw l l', (new {}).resolve text = .ok raw ∧ (new settings).resolve text = .ok l ∧
        (new settings').resolve text = .ok l' ∧
        (∀ buf pos, (∃ f, l.read buf pos = .error f ∧ l'.read buf pos = .error f) ∨
          ∃ v next, raw.read buf pos = .ok (v, next) ∧
            l.read buf pos = .ok (raw.render settings.fixedString v, next) ∧
            l'.read buf pos = .ok (raw.render settings'.fixedString v, next)) ∧
        ∀ swap rows buf pos, (∃ f, l.readColumn swap rows buf pos = .error f ∧
            l'.readColumn swap rows buf pos = .error f) ∨
          ∃ vs next, raw.readColumn swap rows buf pos = .ok (vs, next) ∧
            l.readColumn swap rows buf pos =
              .ok (vs.map fun v => raw.render settings.fixedString v, next) ∧
            l'.readColumn swap rows buf pos =
              .ok (vs.map fun v => raw.render settings'.fixedString v, next)) ∧
      ∀ bs bs' : Bytes, bs.length = bs'.length →
        (settings.fixedString.render bs = settings.fixedString.render bs' ↔ bs = bs') := by
  refine ⟨?_, fun bs bs' hlen => FixedForm.render_inj hlen⟩
  rw [resolve_inForm {} settings, resolve_inForm {} settings']
  have raw_inForm := resolve_inForm {} {} text
  generalize (new {}).resolve text = outcome at raw_inForm ⊢
  cases outcome with
  | error f => exact .inl ⟨f, rfl, rfl⟩
  | ok raw =>
    -- under the default settings fixed-width strings are raw bytes
    have hraw : raw = raw.inForm .raw := Except.ok.inj raw_inForm
    refine .inr ⟨raw, _, _, rfl, rfl, rfl, fun buf pos => ?_, fun swap rows buf pos => ?_⟩
    · have h := Layout.read_alike settings.fixedString raw buf pos
      have h' := Layout.read_alike settings'.fixedString raw buf pos
      rw [← hraw] at h h'
      exact h.both h'
    · have h := Layout.readColumn_alike swap settings.fixedString raw rows buf pos
      have h' := Layout.readColumn_alike swap settings'.fixedString raw rows buf pos
      rw [← hraw] at h h'
      exact h.both h'

end Registry

end TypedColumn
