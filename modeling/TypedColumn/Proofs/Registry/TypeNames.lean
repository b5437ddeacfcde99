import TypedColumn.Proofs.Parts
import TypedColumn.Proofs.Registry.Coherence
import TypedColumn.Proofs.Registry.Language

namespace TypedColumn

namespace Descriptor

theorem parse_name {name : String} (h : IsName name.toList) :
    parse name = .ok ⟨name, [], ""⟩ := by
  have htrimmed : Text.Trimmed name.toList := fun _ => ⟨h.not_isBlank_head, h.not_isBlank_getLast⟩
  rw [parse_eq_ok_iff, htrimmed.trim_eq]
  have spelled := Spells.bare h
  rwa [String.ofList_toList] at spelled

end Descriptor

theorem NumberKind.isName (k : NumberKind) : Descriptor.IsName k.name.toList := by
  have named : ∀ k ∈ all, k.name ≠ "" ∧ k.name.toList.all Descriptor.isNameChar := by decide
  exact Descriptor.isName_of_all (named k k.mem_all)

namespace Layout

variable {form : FixedForm}

def Written (form : FixedForm) (l : Layout) : Prop :=
  ∃ text d, Descriptor.parse text = .ok d ∧ l.Mirrors form d

theorem MirrorsEach.written {ls : List Layout} {ps : List String} (h : MirrorsEach form ls ps)
    {l : Layout} (hl : l ∈ ls) : l.Written form := by
  induction ls generalizing ps with
  | nil => cases hl
  | cons m ls ih =>
    obtain ⟨p, e, rest, -, he, hm, hrest⟩ := h
    obtain rfl | hl := List.mem_cons.1 hl
    · exact ⟨p, e, he, hm⟩
    · exact ih hrest hl

theorem Written.part {l part : Layout} (h : l.Written form) (hpart : part.PartOf l) :
    part.Written form := by
  induction hpart with
  | self => exact h
  | nullable name _ ih =>
    obtain ⟨_, _, -, -, -, -, p, e, -, he, hinner⟩ := h
    exact ih ⟨p, e, he, hinner⟩
  | array name _ ih =>
    obtain ⟨_, _, -, -, -, -, p, e, -, he, helement⟩ := h
    exact ih ⟨p, e, he, helement⟩
  | tuple name hl _ ih =>
    obtain ⟨_, _, -, -, -, -, helements⟩ := h
    exact ih (helements.written hl)
  | key name value _ ih =>
    obtain ⟨_, _, -, -, -, p, e, _, _, -, he, hkey, -⟩ := h
    exact ih ⟨p, e, he, hkey⟩
  | value name key _ ih =>
    obtain ⟨_, _, -, -, -, _, _, q, e, -, -, -, he, hvalue⟩ := h
    exact ih ⟨q, e, he, hvalue⟩
  | simpleAggregate name _ ih =>
    obtain ⟨_, _, -, -, -, _, p, _, e, -, he, hinner⟩ := h
    exact ih ⟨p, e, he, hinner⟩

theorem Written.typeName {l : Layout} (h : l.Written form) :
    ∃ d, Descriptor.parse l.typeName = .ok d ∧ l.Mirrors form d := by
  obtain ⟨text, d, hparse, hmirrors⟩ := h
  have again := Descriptor.parse_text hparse
  cases l with
  | number k => exact ⟨_, Descriptor.parse_name k.isName, rfl, rfl⟩
  | string => exact ⟨_, Descriptor.parse_name (Descriptor.isName_of_all (by decide)), rfl, rfl⟩
  | uuid => exact ⟨_, Descriptor.parse_name (Descriptor.isName_of_all (by decide)), rfl, rfl⟩
  | nothing => exact ⟨_, Descriptor.parse_name (Descriptor.isName_of_all (by decide)), rfl, rfl⟩
  | _ =>
    obtain ⟨-, rfl, -⟩ := id hmirrors
    exact ⟨d, again, hmirrors⟩

end Layout

namespace Registry

variable {r : Registry}

theorem resolve_calls {cs : List Call} (hcs : ∀ c ∈ cs, ¬c.isRegister) (text : String) :
    (r.calls cs).resolve text = r.resolve text := by
  induction cs generalizing r with
  | nil => rfl
  | cons c cs ih =>
    rw [List.forall_mem_cons] at hcs
    refine (ih hcs.2).trans ?_
    have hturn := r.turns c
    generalize r.call c = r' at hturn
    cases hturn with
    | same => rfl
    | forgot name construct => exact absurd rfl hcs.1
    | kept => rfl

/-- The name of a layout that a text is resolved to is resolved to the same layout, and so is the
name of every part of it. A look-up cannot tell the name from the text. -/
theorem resolve_typeName {settings : Settings} {text : String} {l : Layout}
    (h : (new settings).resolve text = .ok l) :
    (∀ part : Layout, part.PartOf l → (new settings).resolve part.typeName = .ok part) ∧
      ∀ cs : List Call, (∀ c ∈ cs, ¬c.isRegister) →
        (((new settings).calls cs).lookup text).1.map Shared.layout = .ok l ∧
          (((new settings).calls cs).lookup l.typeName).1.map Shared.layout = .ok l := by
  have written : l.Written settings.fixedString := by
    obtain ⟨d, hparse, hmirrors⟩ := resolve_eq_ok_iff.1 h
    exact ⟨text, d, hparse, hmirrors⟩
  have named : ∀ part : Layout, part.PartOf l → (new settings).resolve part.typeName = .ok part :=
    fun part hpart => resolve_eq_ok_iff.2 (written.part hpart).typeName
  refine ⟨named, fun cs hcs => ?_⟩
  have coherent : Coherent ((new settings).calls cs) := (Coherent.new settings {}).calls cs
  rw [coherent.lookup_eq_resolve, coherent.lookup_eq_resolve, resolve_calls hcs, resolve_calls hcs]
  exact ⟨h, named l (.self l)⟩

theorem resolve_typeName_blanks :
    let text := "  Map ( String ,Array( Nullable ( UInt8( ) ) ) )"
    let nullable : Layout := .nullable "Nullable( UInt8( ) )" (.number (.uint .w8))
    let l : Layout := .map "Map( String ,Array( Nullable ( UInt8( ) ) ) )" .string
      (.array "Array( Nullable ( UInt8( ) ) )" nullable)
    (new {}).resolve text = .ok l ∧ (new {}).resolve "Nullable( UInt8( ) )" = .ok nullable ∧
      (new {}).resolve "UInt8" = .ok (.number (.uint .w8)) ∧
      (((new {}).calls [.lookup text]).lookup l.typeName).1.map Shared.layout = .ok l := by
  intro text nullable l
  have h : (new {}).resolve text = .ok l := by
    simp only [text, l, nullable]
    cbv
  obtain ⟨named, looked⟩ := resolve_typeName h
  refine ⟨h, named nullable (.value _ _ (.array _ (.self _))),
    named _ (.value _ _ (.array _ (.nullable _ (.self _)))), (looked _ ?_).2⟩
  exact List.forall_mem_singleton.2 Bool.false_ne_true

end Registry

end TypedColumn
