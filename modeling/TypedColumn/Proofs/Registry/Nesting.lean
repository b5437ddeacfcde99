import TypedColumn.Proofs.Construction
import TypedColumn.Proofs.Parts
import TypedColumn.Proofs.Registry.Coherence
import TypedColumn.Proofs.Registry.Table

namespace TypedColumn

namespace Layout

def Proper : Layout → Prop
  | .fixedString _ size _ => 0 < size
  | .nullable _ inner => ¬inner.IsNullable
  | .array _ element => ¬element.IsArray
  | .tuple _ elements => elements ≠ []
  | _ => True

def WellNested (l : Layout) : Prop := ∀ part : Layout, part.PartOf l → part.Proper

end Layout

open Layout (WellNested)

theorem Form.Builds.wellNested {form : FixedForm} {Stands : String → Layout → Prop} {d : Descriptor}
    {f : Form} {l : Layout} (h : f.Builds form Stands d l)
    (hstands : ∀ p m, Stands p m → WellNested m) : WellNested l := by
  intro part hpart
  cases h with
  | number hk hp =>
    cases hpart
    trivial
  | string hp =>
    cases hpart
    trivial
  | uuid hp =>
    cases hpart
    trivial
  | fixedString hp hsize =>
    cases hpart
    exact Descriptor.size?_pos hsize
  | nothing hp =>
    cases hpart
    trivial
  | nullable hp hinner hkind =>
    cases hpart with
    | self => exact hkind
    | nullable _ hpart => exact hstands _ _ hinner part hpart
  | array hp he hname helement hkind =>
    cases hpart with
    | self => exact hkind
    | array _ hpart => exact hstands _ _ helement part hpart
  | tuple hsome helements =>
    cases hpart with
    | self =>
      rintro rfl
      exact hsome (List.forall₂_nil_right_iff.1 helements)
    | tuple _ hl hpart =>
      obtain ⟨p, -, hp⟩ := exists_of_mem_right helements hl
      exact hstands p _ hp part hpart
  | map hp hkey hvalue =>
    cases hpart with
    | self => trivial
    | key _ _ hpart => exact hstands _ _ hkey part hpart
    | value _ _ hpart => exact hstands _ _ hvalue part hpart
  | aggregateState hsome =>
    cases hpart
    trivial
  | simpleAggregate hp hinner =>
    cases hpart with
    | self => trivial
    | simpleAggregate _ hpart => exact hstands _ _ hinner part hpart

theorem Scope.exists_of_resolve {scope : Scope} {text : String} {l : Layout}
    (h : scope.resolve text = .ok l) :
    ∃ d, Descriptor.parse text = .ok d ∧ scope.build d = .ok l := by
  rw [resolve, except_bind_eq_ok_iff] at h
  exact h

/-- The layouts that a constructor can come by: those that the registry that called it builds, those
that it knows and a look-up may find, and those that the forms build for any scope, as long as what
that scope builds can be come by, too. -/
inductive Scope.Obtains (scope : Scope) (known : List (String × Shared)) : Layout → Prop
  | built {d : Descriptor} {l : Layout} : scope.build d = .ok l → Obtains scope known l
  | found {key : String} {shared : Shared} : (key, shared) ∈ known →
      Obtains scope known shared.layout
  | formed {form : Form} {other : Scope} {d : Descriptor} {l : Layout} :
      (∀ e m, other.build e = .ok m → Obtains scope known m) → form.construct other d = .ok l →
      Obtains scope known l

namespace Constructor

def Obtains (construct : Constructor) (known : List (String × Shared)) : Prop :=
  ∀ scope d l, construct scope d = .ok l → scope.Obtains known l

def Keeps (construct : Constructor) : Prop := ∀ scope : Scope,
  (∀ d l, scope.build d = .ok l → WellNested l) → ∀ d l, construct scope d = .ok l → WellNested l

theorem keeps_form (form : Form) : Keeps form.construct := by
  intro scope hscope d l h
  refine (Form.construct_eq_ok_iff.1 h).wellNested fun p m hm => ?_
  obtain ⟨e, -, he⟩ := Scope.exists_of_resolve hm
  exact hscope e m he

end Constructor

theorem Scope.Obtains.wellNested {scope : Scope} {known : List (String × Shared)} {l : Layout}
    (h : scope.Obtains known l) (hscope : ∀ d l, scope.build d = .ok l → WellNested l)
    (hknown : ∀ p ∈ known, WellNested p.2.layout) : WellNested l := by
  induction h with
  | built hbuild => exact hscope _ _ hbuild
  | found hmem => exact hknown _ hmem
  | formed _ hform ih => exact Constructor.keeps_form _ _ ih _ _ hform

theorem Constructor.Obtains.keeps {construct : Constructor} {known : List (String × Shared)}
    (h : construct.Obtains known) (hknown : ∀ p ∈ known, WellNested p.2.layout) :
    construct.Keeps :=
  fun scope hscope d l hl => (h scope d l hl).wellNested hscope hknown

namespace Registry

/-- The registries that a new one becomes, within any limit. Constructors may look types up in the
registry that called them: a look-up leaves its layout behind, and what a constructor answers may
change with what is known. -/
inductive Reached (settings : Settings) : Registry → Prop
  | new (limit : Limit) : Reached settings ((Registry.new settings).within limit)
  | register {r : Registry} {construct : Constructor} (name : String) : Reached settings r →
      construct.Obtains [] → Reached settings (r.register name construct)
  | call {r : Registry} {c : Call} : Reached settings r → ¬c.isRegister →
      Reached settings (r.call c)
  | lookedUp {r : Registry} {shared : Shared} (key : String) : Reached settings r →
      r.scope.Obtains r.known shared.layout →
      Reached settings { r with known := (key, shared) :: r.known }
  | answers {r : Registry} {construct : Constructor} (name : String) : Reached settings r →
      construct.Obtains r.known → Reached settings { r with table := (name, construct) :: r.table }

structure Keeps (r : Registry) : Prop where
  table : ∀ p ∈ r.table, p.2.Keeps
  known : ∀ p ∈ r.known, WellNested p.2.layout

variable {settings : Settings} {r : Registry}

theorem Keeps.build (h : Keeps r) (d : Descriptor) (l : Layout) (hl : r.build d = .ok l) :
    WellNested l := by
  refine Table.forall_build (fun {name construct} hlookup => ?_) (fun _ _ h => nomatch h) d l hl
  obtain ⟨front, back, htable, -⟩ := List.lookup_eq_some_iff.1 hlookup
  exact h.table (name, construct) (by simp [htable])

theorem keeps_new (settings : Settings) (limit : Limit) :
    Keeps ((Registry.new settings).within limit) where
  table p hp := by
    obtain ⟨form, -, hform⟩ := Table.forms_of_builtin p hp
    exact hform ▸ Constructor.keeps_form form
  known := List.forall_mem_nil _

theorem Keeps.call (h : Keeps r) {c : Call} (hc : ¬c.isRegister) : Keeps (r.call c) := by
  have hturn := r.turns c
  generalize r.call c = r' at hturn
  cases hturn with
  | same => exact h
  | forgot name construct => exact absurd rfl hc
  | kept _ _ hbuild => exact ⟨h.table, List.forall_mem_cons.2 ⟨h.build _ _ hbuild, h.known⟩⟩

theorem Reached.keeps (h : Reached settings r) : Keeps r := by
  induction h with
  | new limit => exact keeps_new settings limit
  | register name _ hobtains ih =>
    exact ⟨List.forall_mem_cons.2 ⟨hobtains.keeps (List.forall_mem_nil _), ih.table⟩,
      List.forall_mem_nil _⟩
  | call _ hc ih => exact ih.call hc
  | lookedUp key _ hobtains ih =>
    have hshared := hobtains.wellNested ih.build ih.known
    exact ⟨ih.table, List.forall_mem_cons.2 ⟨hshared, ih.known⟩⟩
  | answers name _ hobtains ih =>
    exact ⟨List.forall_mem_cons.2 ⟨hobtains.keeps ih.known, ih.table⟩, ih.known⟩

/-- Whatever constructors were registered and however far they are followed, as long as they come by
their layouts through the forms and through the registries that call them, no array is handed out
with arrays as its elements, no nullable layout of nullable ones, no fixed-width string without width
and no tuple without elements, at any depth. -/
theorem nesting_kept (h : Reached settings r) :
    (∀ text shared, (r.lookup text).1 = .ok shared → WellNested shared.layout) ∧
      (∀ text l, r.resolve text = .ok l → WellNested l) ∧
      ∀ d l, r.build d = .ok l → WellNested l := by
  have keeps := h.keeps
  refine ⟨fun text shared hshared => ?_, fun text l hl => ?_, keeps.build⟩
  · have hlook := r.looksUp text
    rw [hshared] at hlook
    generalize (r.lookup text).2 = r' at hlook
    cases hlook with
    | found _ hknown => exact keeps.known _ (mem_of_lookup hknown)
    | made _ _ hbuild => exact keeps.build _ _ hbuild
  · rw [resolve, except_bind_eq_ok_iff] at hl
    obtain ⟨d, -, hbuild⟩ := hl
    exact keeps.build d l hbuild

theorem nesting_kept_aliases :
    let octets : Layout := .array "Array(UInt8)" (.number (.uint .w8))
    let first : Registry := (Registry.new {}).register "Bytes" (.ofText "Array(UInt8)")
    let r : Registry := { first.call (.lookup "Bytes") with
      table := ("Octets", fun _ _ => .ok octets) :: (first.call (.lookup "Bytes")).table }
    let l : Layout :=
      .map "Map(Octets, Nullable(Bytes))" octets (.nullable "Nullable(Bytes)" octets)
    Reached {} r ∧ (r.lookup "Map(Octets, Nullable(Bytes))").1 = .ok ⟨1, l⟩ ∧ WellNested l ∧
      (r.lookup "Array(Octets)").1 = .error (.nestedArray "Array(Octets)") ∧
      (r.lookup "Array(Bytes)").1 = .error (.nestedArray "Array(Bytes)") := by
  intro octets first r l
  have resolves : Constructor.Obtains (.ofText "Array(UInt8)") [] := by
    intro scope d m hm
    obtain ⟨e, -, he⟩ := Scope.exists_of_resolve hm
    exact .built he
  have known : ("Bytes", ⟨0, octets⟩) ∈ (first.call (.lookup "Bytes")).known := by
    have looked : (first.call (.lookup "Bytes")).known = [("Bytes", ⟨0, octets⟩)] := by
      simp only [first, octets]
      cbv
    rw [looked]
    exact List.mem_singleton_self _
  have finds :
      Constructor.Obtains (fun _ _ => .ok octets) (first.call (.lookup "Bytes")).known := by
    intro scope d m hm
    cases hm
    exact .found known
  have reached : Reached {} r :=
    .answers "Octets" (.call (.register "Bytes" (.new {}) resolves) Bool.false_ne_true) finds
  have looked : (r.lookup "Map(Octets, Nullable(Bytes))").1 = .ok ⟨1, l⟩ := by
    simp only [r, first, l, octets]
    cbv
  have refused : (r.lookup "Array(Octets)").1 = .error (.nestedArray "Array(Octets)") := by
    simp only [r, first, octets]
    cbv
  have refused' : (r.lookup "Array(Bytes)").1 = .error (.nestedArray "Array(Bytes)") := by
    simp only [r, first, octets]
    cbv
  exact ⟨reached, looked, (nesting_kept reached).1 _ _ looked, refused, refused'⟩

end Registry

end TypedColumn
