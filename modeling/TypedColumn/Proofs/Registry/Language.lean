import Mathlib
import TypedColumn.Proofs.Construction
import TypedColumn.Proofs.Descriptor.Parameters
import TypedColumn.Proofs.Registry.Table
import TypedColumn.Report

namespace TypedColumn

namespace Layout

mutual
/-- The descriptor describes the layout: its parameters describe the parts, in their order, and
fixed-width strings have the given form. -/
def Mirrors (form : FixedForm) : Layout → Descriptor → Prop
  | .number k, d => d.name = k.name ∧ d.parameters = []
  | .string, d => d.name = "String" ∧ d.parameters = []
  | .uuid, d => d.name = "UUID" ∧ d.parameters = []
  | .fixedString name size f, d => d.name = "FixedString" ∧ name = d.text ∧ f = form ∧
      ∃ p, d.parameters = [p] ∧ Descriptor.SpellsSize p size
  | .nothing, d => d.name = "Nothing" ∧ d.parameters = []
  | .nullable name inner, d => d.name = "Nullable" ∧ name = d.text ∧ ¬inner.IsNullable ∧
      ∃ p e, d.parameters = [p] ∧ Descriptor.parse p = .ok e ∧ Mirrors form inner e
  | .array name element, d => d.name = "Array" ∧ name = d.text ∧ ¬element.IsArray ∧
      ∃ p e, d.parameters = [p] ∧ Descriptor.parse p = .ok e ∧ Mirrors form element e
  | .tuple name elements, d => d.name = "Tuple" ∧ name = d.text ∧ d.parameters ≠ [] ∧
      MirrorsEach form elements d.parameters
  | .map name key value, d => d.name = "Map" ∧ name = d.text ∧
      ∃ p e q e', d.parameters = [p, q] ∧ Descriptor.parse p = .ok e ∧ Mirrors form key e ∧
        Descriptor.parse q = .ok e' ∧ Mirrors form value e'
  | .aggregateState name, d => d.name = "AggregateFunction" ∧ name = d.text ∧ d.parameters ≠ []
  | .simpleAggregate name inner, d => d.name = "SimpleAggregateFunction" ∧ name = d.text ∧
      ∃ f p rest e, d.parameters = f :: p :: rest ∧ Descriptor.parse p = .ok e ∧
        Mirrors form inner e
def MirrorsEach (form : FixedForm) : List Layout → List String → Prop
  | [], ps => ps = []
  | l :: ls, ps => ∃ p e rest, ps = p :: rest ∧ Descriptor.parse p = .ok e ∧ Mirrors form l e ∧
      MirrorsEach form ls rest
end

variable {form : FixedForm}

theorem mirrorsEach_iff {ps : List String} {ls : List Layout} : MirrorsEach form ls ps ↔
    List.Forall₂ (fun p l => ∃ e, Descriptor.parse p = .ok e ∧ l.Mirrors form e) ps ls := by
  induction ls generalizing ps with
  | nil => rw [List.forall₂_nil_right_iff, MirrorsEach]
  | cons l ls ih =>
    rw [List.forall₂_cons_right_iff, MirrorsEach]
    constructor
    · rintro ⟨p, e, rest, rfl, he, hl, hrest⟩
      exact ⟨p, rest, ⟨e, he, hl⟩, ih.1 hrest, rfl⟩
    · rintro ⟨p, rest, ⟨e, he, hl⟩, hrest, rfl⟩
      exact ⟨p, e, rest, rfl, he, hl, ih.2 hrest⟩

theorem Mirrors.isArray {l : Layout} {d : Descriptor} (h : l.Mirrors form d)
    (hname : d.name = "Array") : l.IsArray := by
  cases l with
  | array name element => trivial
  | number k =>
    have others : ∀ k ∈ NumberKind.all, "Array" ≠ k.name := by decide
    exact absurd (hname.symm.trans h.1) (others k k.mem_all)
  | _ => exact absurd (hname.symm.trans h.1) (by decide)

end Layout

theorem NumberKind.ofName?_eq_some_iff {name : String} {k : NumberKind} :
    ofName? name = some k ↔ name = k.name := by
  constructor
  · intro h
    rw [ofName?] at h
    have hk := List.find?_some h
    exact (beq_iff_eq.1 hk).symm
  · rintro rfl
    have named : ∀ k ∈ all, ofName? k.name = some k := by decide
    exact named k k.mem_all

section Layer

variable {form : FixedForm} {Stands : String → Layout → Prop} {d : Descriptor} {l : Layout}

theorem Form.Builds.mirrors {f : Form} (h : f.Builds form Stands d l) (hname : d.name ∈ f.names)
    (hstands : ∀ p ∈ d.parameters, ∀ m, Stands p m →
      ∃ e, Descriptor.parse p = .ok e ∧ m.Mirrors form e) : l.Mirrors form d := by
  cases h with
  | number hk hp => exact ⟨NumberKind.ofName?_eq_some_iff.1 hk, hp⟩
  | string hp => exact ⟨List.mem_singleton.1 hname, hp⟩
  | uuid hp => exact ⟨List.mem_singleton.1 hname, hp⟩
  | fixedString hp hsize =>
    exact ⟨List.mem_singleton.1 hname, rfl, rfl, _, hp, Descriptor.size?_eq_some_iff.1 hsize⟩
  | nothing hp => exact ⟨List.mem_singleton.1 hname, hp⟩
  | nullable hp hinner hkind =>
    obtain ⟨e, he, hinner⟩ := hstands _ (by simp [hp]) _ hinner
    exact ⟨List.mem_singleton.1 hname, rfl, hkind, _, e, hp, he, hinner⟩
  | array hp _ _ helement hkind =>
    obtain ⟨e, he, helement⟩ := hstands _ (by simp [hp]) _ helement
    exact ⟨List.mem_singleton.1 hname, rfl, hkind, _, e, hp, he, helement⟩
  | tuple hsome helements =>
    refine ⟨List.mem_singleton.1 hname, rfl, hsome, Layout.mirrorsEach_iff.2 ?_⟩
    exact forall₂_imp_of_mem helements hstands
  | map hp hkey hvalue =>
    obtain ⟨e, he, hkey⟩ := hstands _ (by simp [hp]) _ hkey
    obtain ⟨e', he', hvalue⟩ := hstands _ (by simp [hp]) _ hvalue
    exact ⟨List.mem_singleton.1 hname, rfl, _, e, _, e', hp, he, hkey, he', hvalue⟩
  | aggregateState hsome => exact ⟨List.mem_singleton.1 hname, rfl, hsome⟩
  | simpleAggregate hp hinner =>
    obtain ⟨e, he, hinner⟩ := hstands _ (by simp [hp]) _ hinner
    exact ⟨List.mem_singleton.1 hname, rfl, _, _, _, e, hp, he, hinner⟩

theorem Layout.Mirrors.builds (h : l.Mirrors form d)
    (hstands : ∀ p ∈ d.parameters, ∀ m,
      (∃ e, Descriptor.parse p = .ok e ∧ m.Mirrors form e) → Stands p m) :
    ∃ f : Form, d.name ∈ f.names ∧ f.Builds form Stands d l := by
  cases l with
  | number k =>
    obtain ⟨hname, hp⟩ := h
    exact ⟨.number, hname ▸ List.mem_map_of_mem k.mem_all,
      .number (NumberKind.ofName?_eq_some_iff.2 hname) hp⟩
  | string => exact ⟨.string, List.mem_singleton.2 h.1, .string h.2⟩
  | uuid => exact ⟨.uuid, List.mem_singleton.2 h.1, .uuid h.2⟩
  | fixedString name size f =>
    obtain ⟨hname, rfl, rfl, p, hp, hsize⟩ := h
    exact ⟨.fixedString, List.mem_singleton.2 hname,
      .fixedString hp (Descriptor.size?_eq_some_iff.2 hsize)⟩
  | nothing => exact ⟨.nothing, List.mem_singleton.2 h.1, .nothing h.2⟩
  | nullable name inner =>
    obtain ⟨hname, rfl, hkind, p, e, hp, he, hinner⟩ := h
    have inner := hstands p (by simp [hp]) _ ⟨e, he, hinner⟩
    exact ⟨.nullable, List.mem_singleton.2 hname, .nullable hp inner hkind⟩
  | array name element =>
    obtain ⟨hname, rfl, hkind, p, e, hp, he, helement⟩ := h
    have element := hstands p (by simp [hp]) _ ⟨e, he, helement⟩
    exact ⟨.array, List.mem_singleton.2 hname,
      .array hp he (fun harray => hkind (helement.isArray harray)) element hkind⟩
  | tuple name elements =>
    obtain ⟨hname, rfl, hsome, helements⟩ := h
    have elements := forall₂_imp_of_mem (Layout.mirrorsEach_iff.1 helements) hstands
    exact ⟨.tuple, List.mem_singleton.2 hname, .tuple hsome elements⟩
  | map name key value =>
    obtain ⟨hname, rfl, p, e, q, e', hp, he, hkey, he', hvalue⟩ := h
    have key := hstands p (by simp [hp]) _ ⟨e, he, hkey⟩
    have value := hstands q (by simp [hp]) _ ⟨e', he', hvalue⟩
    exact ⟨.map, List.mem_singleton.2 hname, .map hp key value⟩
  | aggregateState name =>
    obtain ⟨hname, rfl, hsome⟩ := h
    exact ⟨.aggregateState, List.mem_singleton.2 hname, .aggregateState hsome⟩
  | simpleAggregate name inner =>
    obtain ⟨hname, rfl, f, p, rest, e, hp, he, hinner⟩ := h
    have inner := hstands p (by simp [hp]) _ ⟨e, he, hinner⟩
    exact ⟨.simpleAggregate, List.mem_singleton.2 hname, .simpleAggregate hp inner⟩

end Layer

namespace Table

variable {settings : Settings} {beyond : Descriptor → Except Fault Layout} {detours : Nat}
variable {d : Descriptor} {l : Layout}

theorem resolve_parameter (table : Table) {p : String} (hp : p ∈ d.parameters) :
    (table.scopeOf settings beyond detours d).resolve p =
      Descriptor.parse p >>= table.build settings beyond detours := by
  -- no parameter of a parameter is as long as the longest one, so that building a parameter is no
  -- detour
  rw [Scope.resolve]
  cases hparse : Descriptor.parse p with
  | error f => rfl
  | ok e =>
    exact if_pos (Descriptor.reach_lt_of_parameter hp hparse)

theorem resolve_parameter_iff {table : Table} {p : String} (hp : p ∈ d.parameters) :
    (table.scopeOf settings beyond detours d).resolve p = .ok l ↔
      ∃ e, Descriptor.parse p = .ok e ∧ table.build settings beyond detours e = .ok l := by
  rw [table.resolve_parameter hp, except_bind_eq_ok_iff]

theorem build_eq_ok_iff :
    builtin.build settings beyond detours d = .ok l ↔ l.Mirrors settings.fixedString d := by
  induction detours, d using Table.build.induct builtin generalizing l with
  | case1 detours d hnone =>
    rw [build, hnone]
    constructor
    · intro h
      cases h
    · intro h
      obtain ⟨form, hname, -⟩ : ∃ f : Form, d.name ∈ f.names ∧
          f.Builds settings.fixedString (fun _ _ => True) d l := h.builds fun _ _ _ _ => trivial
      cases hnone.symm.trans (lookup_builtin _ hname)
  | case2 detours d construct hsome shorter further =>
    have stands : ∀ p ∈ d.parameters, ∀ m,
        (builtin.scopeOf settings beyond detours d).resolve p = .ok m ↔
          ∃ e, Descriptor.parse p = .ok e ∧ m.Mirrors settings.fixedString e := by
      intro p hp m
      rw [resolve_parameter_iff hp]
      exact exists_congr fun e => and_congr_right fun he =>
        shorter e (Descriptor.reach_lt_of_parameter hp he)
    constructor
    · intro h
      obtain ⟨form, hname, rfl⟩ := lookup_builtin_iff.1 hsome
      rw [build_of_lookup hsome] at h
      exact (Form.construct_eq_ok_iff.1 h).mirrors hname fun p hp m => (stands p hp m).1
    · intro h
      obtain ⟨form, hname, hbuilds⟩ := h.builds fun p hp m => (stands p hp m).2
      rw [build_of_lookup (lookup_builtin _ hname)]
      exact Form.construct_eq_ok_iff.2 hbuilds

inductive Refusal : Fault → Prop
  | malformed (text : String) (reason : TextFault) : Refusal (.malformed text reason)
  | unknownType (name : String) : Refusal (.unknownType name)
  | parameter (type : String) (reason : ParameterFault) : Refusal (.parameter type reason)
  | nestedArray (type : String) : Refusal (.nestedArray type)
  | nestedNullable (type : String) : Refusal (.nestedNullable type)

theorem refusal_of_parse {text : String} {f : Fault} (h : Descriptor.parse text = .error f) :
    Refusal f := by
  simp only [Descriptor.parse] at h
  split at h
  · cases h
  · cases h
    exact .malformed _ _

theorem refusal_of_build {f : Fault} (h : builtin.build settings beyond detours d = .error f) :
    Refusal f := by
  induction detours, d using Table.build.induct builtin with
  | case1 detours d hnone =>
    rw [build, hnone] at h
    cases h
    exact .unknownType _
  | case2 detours d construct hsome shorter further =>
    rw [build_of_lookup hsome] at h
    obtain ⟨form, -, rfl⟩ := lookup_builtin_iff.1 hsome
    cases form.refuses_of_construct h with
    | parameter reason => exact .parameter _ reason
    | nestedNullable => exact .nestedNullable _
    | nestedArray => exact .nestedArray _
    | passed hp hfails =>
      rw [builtin.resolve_parameter hp, except_bind_eq_error_iff] at hfails
      obtain hparse | ⟨e, he, hbuild⟩ := hfails
      · exact refusal_of_parse hparse
      · exact shorter e (Descriptor.reach_lt_of_parameter hp he) hbuild

end Table

namespace Registry

theorem resolve_eq_ok_iff {settings : Settings} {text : String} {l : Layout} :
    (new settings).resolve text = .ok l ↔
      ∃ d, Descriptor.parse text = .ok d ∧ l.Mirrors settings.fixedString d := by
  rw [resolve, except_bind_eq_ok_iff]
  exact exists_congr fun d => and_congr_right fun _ => Table.build_eq_ok_iff

/-- A text names a type exactly when its descriptor is in the language of types, and is resolved to
the layout that mirrors the descriptor, in the form of the settings. Of every other text a report
says that it is malformed, that a name is unknown, that a parameter does not fit or that types are
nested which must not be. -/
theorem resolve_mirrors (settings : Settings) (text : String) :
    (∀ l, (new settings).resolve text = .ok l ↔
        ∃ d, Descriptor.parse text = .ok d ∧ l.Mirrors settings.fixedString d) ∧
      ∀ f, (new settings).resolve text = .error f →
        f.report.code ∈ ["TYPE_001", "TYPE_002", "CODEC_001", "CODEC_006"] := by
  refine ⟨fun l => resolve_eq_ok_iff, fun f h => ?_⟩
  have refusal : Table.Refusal f := by
    obtain hparse | ⟨d, -, hbuild⟩ := except_bind_eq_error_iff.1 h
    · exact Table.refusal_of_parse hparse
    · exact Table.refusal_of_build hbuild
  cases refusal with
  | unknownType name => exact .head _
  | malformed text reason => exact .tail _ (.head _)
  | nestedArray type => exact .tail _ (.tail _ (.head _))
  | nestedNullable type => exact .tail _ (.tail _ (.head _))
  | parameter type reason => exact .tail _ (.tail _ (.tail _ (.head _)))

theorem resolve_mirrors_aggregate_of_arrays :
    let settings : Settings := { fixedString := .hex }
    let text := " Array ( SimpleAggregateFunction(any, Array(FixedString( +02))) )"
    let inner : Layout := .array "Array(FixedString( +02))" (.fixedString "FixedString( +02)" 2 .hex)
    let l : Layout := .array "Array( SimpleAggregateFunction(any, Array(FixedString( +02))) )"
      (.simpleAggregate "SimpleAggregateFunction(any, Array(FixedString( +02)))" inner)
    let f : Fault := .nestedArray "Array(Array(UInt8))"
    (new settings).resolve text = .ok l ∧
      (∃ d, Descriptor.parse text = .ok d ∧ l.Mirrors .hex d) ∧
      (new settings).resolve "Array(Array(UInt8))" = .error f ∧
      f.report.code ∈ ["TYPE_001", "TYPE_002", "CODEC_001", "CODEC_006"] := by
  intro settings text inner l f
  have accepted : (new settings).resolve text = .ok l := by
    simp only [settings, text, l, inner]
    cbv
  have refused : (new settings).resolve "Array(Array(UInt8))" = .error f := by
    simp only [settings, f]
    cbv
  exact ⟨accepted, ((resolve_mirrors settings text).1 l).1 accepted, refused,
    (resolve_mirrors settings _).2 f refused⟩

end Registry

end TypedColumn
