import Mathlib
import TypedColumn.Proofs.Descriptor.Normal
import TypedColumn.Session

namespace TypedColumn

namespace Registry

inductive Call : Type
  | register : (name : String) → Constructor → Call
  | lookup : (text : String) → Call
  | resolve : (text : String) → Call
  | build : Descriptor → Call

def Call.isRegister : Call → Bool
  | .register _ _ => true
  | _ => false

def call (r : Registry) : Call → Registry
  | .register name construct => r.register name construct
  | .lookup text => (r.lookup text).2
  | .resolve _ => r
  | .build _ => r

def calls (r : Registry) (cs : List Call) : Registry := cs.foldl call r

variable {r : Registry}

inductive LooksUp (r : Registry) (text : String) : Except Fault Shared → Registry → Prop
  | failed {f : Fault} : r.resolve text = .error f → LooksUp r text (.error f) r
  | found {d : Descriptor} {shared : Shared} : Descriptor.parse text = .ok d →
      r.known.lookup d.text = some shared → LooksUp r text (.ok shared) r
  | made {d : Descriptor} {l : Layout} : Descriptor.parse text = .ok d →
      r.known.lookup d.text = none → r.build d = .ok l →
      LooksUp r text (.ok ⟨r.issued, l⟩)
        { r with known := (d.text, ⟨r.issued, l⟩) :: r.known, issued := r.issued + 1 }

theorem resolve_of_parse {text : String} {d : Descriptor} (h : Descriptor.parse text = .ok d) :
    r.resolve text = r.build d := by
  rw [resolve, h]
  rfl

theorem looksUp (r : Registry) (text : String) :
    LooksUp r text (r.lookup text).1 (r.lookup text).2 := by
  cases hparse : Descriptor.parse text with
  | error f =>
    simp only [lookup, hparse]
    refine .failed ?_
    rw [resolve, hparse]
    rfl
  | ok d =>
    cases hknown : r.known.lookup d.text with
    | some shared =>
      simp only [lookup, hparse, hknown]
      exact .found hparse hknown
    | none =>
      cases hbuild : r.build d with
      | error f =>
        simp only [lookup, hparse, hknown, hbuild]
        exact .failed ((resolve_of_parse hparse).trans hbuild)
      | ok l =>
        simp only [lookup, hparse, hknown, hbuild]
        exact .made hparse hknown hbuild

inductive Turns (r : Registry) : Call → Registry → Prop
  | same {c : Call} : ¬c.isRegister → Turns r c r
  | forgot (name : String) (construct : Constructor) :
      Turns r (.register name construct) (r.register name construct)
  | kept {text : String} {d : Descriptor} {l : Layout} : Descriptor.parse text = .ok d →
      r.known.lookup d.text = none → r.build d = .ok l →
      Turns r (.lookup text)
        { r with known := (d.text, ⟨r.issued, l⟩) :: r.known, issued := r.issued + 1 }

theorem turns (r : Registry) (c : Call) : Turns r c (r.call c) := by
  cases c with
  | register name construct => exact .forgot name construct
  | resolve text => exact .same Bool.false_ne_true
  | build d => exact .same Bool.false_ne_true
  | lookup text =>
    rw [call]
    have hlook := r.looksUp text
    generalize (r.lookup text).1 = answer, (r.lookup text).2 = r' at hlook
    cases hlook with
    | failed hresolve => exact .same Bool.false_ne_true
    | found hparse hknown => exact .same Bool.false_ne_true
    | made hparse hknown hbuild => exact .kept hparse hknown hbuild

/-- Every shared layout is stored under the text of a descriptor that is built to it, and has a
number of its own. -/
structure Coherent (r : Registry) : Prop where
  rebuilt {key : String} {shared : Shared} : (key, shared) ∈ r.known →
    ∃ d, Descriptor.parse key = .ok d ∧ d.text = key ∧ r.build d = .ok shared.layout
  issued {key : String} {shared : Shared} : (key, shared) ∈ r.known → shared.number < r.issued
  apart : (r.known.map fun p => p.2.number).Nodup

theorem mem_of_lookup {key : String} {shared : Shared} (h : r.known.lookup key = some shared) :
    (key, shared) ∈ r.known := by
  obtain ⟨front, back, hknown, -⟩ := List.lookup_eq_some_iff.1 h
  rw [hknown]
  exact List.mem_append_right front (List.mem_cons_self ..)

namespace Coherent

theorem forgotten (hknown : r.known = []) : Coherent r where
  rebuilt h := absurd (hknown ▸ h) List.not_mem_nil
  issued h := absurd (hknown ▸ h) List.not_mem_nil
  apart := by
    rw [hknown]
    exact List.nodup_nil

theorem call (h : Coherent r) (c : Call) : Coherent (r.call c) := by
  have hturn := r.turns c
  generalize r.call c = r' at hturn
  cases hturn with
  | same hc => exact h
  | forgot name construct => exact forgotten rfl
  | @kept text d l hparse hknown hbuild =>
    refine ⟨fun hmem => ?_, fun hmem => ?_, ?_⟩
    · obtain hmem | hmem := List.mem_cons.1 hmem
      · obtain ⟨rfl, rfl⟩ := Prod.mk.inj hmem
        exact ⟨d, Descriptor.parse_text hparse, rfl, hbuild⟩
      · exact h.rebuilt hmem
    · obtain hmem | hmem := List.mem_cons.1 hmem
      · obtain ⟨-, rfl⟩ := Prod.mk.inj hmem
        exact Nat.lt_succ_self r.issued
      · exact Nat.lt_succ_of_lt (h.issued hmem)
    · refine List.nodup_cons.2 ⟨fun hmem => ?_, h.apart⟩
      obtain ⟨⟨key, shared⟩, hmem, hnumber⟩ := List.mem_map.1 hmem
      exact absurd hnumber (Nat.ne_of_lt (h.issued hmem))

theorem calls (h : Coherent r) (cs : List Call) : Coherent (r.calls cs) := by
  induction cs generalizing r with
  | nil => exact h
  | cons c cs ih => exact ih (h.call c)

theorem new (settings : Settings) (limit : Limit) :
    Coherent ((Registry.new settings).within limit) := forgotten rfl

theorem lookup_eq_resolve (h : Coherent r) (text : String) :
    (r.lookup text).1.map Shared.layout = r.resolve text := by
  have hlook := r.looksUp text
  generalize (r.lookup text).1 = answer, (r.lookup text).2 = r' at hlook
  cases hlook with
  | failed hresolve => exact hresolve.symm
  | found hparse hknown =>
    obtain ⟨d', hparse', -, hbuild⟩ := h.rebuilt (mem_of_lookup hknown)
    rw [Descriptor.parse_text hparse] at hparse'
    rw [resolve_of_parse hparse, Except.ok.inj hparse', hbuild]
    rfl
  | made hparse hknown hbuild =>
    rw [resolve_of_parse hparse, hbuild]
    rfl

theorem key_eq (h : Coherent r) {key key' : String} {shared shared' : Shared}
    (hmem : (key, shared) ∈ r.known) (hmem' : (key', shared') ∈ r.known)
    (hnumber : shared.number = shared'.number) : key = key' :=
  congrArg Prod.fst (List.inj_on_of_nodup_map h.apart hmem hmem' hnumber)

end Coherent

theorem known_of_lookup {text : String} {shared : Shared} (h : (r.lookup text).1 = .ok shared) :
    ∃ d, Descriptor.parse text = .ok d ∧ (r.lookup text).2.known.lookup d.text = some shared := by
  have hlook := r.looksUp text
  rw [h] at hlook
  generalize (r.lookup text).2 = r' at hlook
  cases hlook with
  | found hparse hknown => exact ⟨_, hparse, hknown⟩
  | made hparse hknown hbuild => exact ⟨_, hparse, List.lookup_cons_self⟩

theorem known_call {c : Call} (hc : ¬c.isRegister) {key : String} {shared : Shared}
    (h : r.known.lookup key = some shared) : (r.call c).known.lookup key = some shared := by
  have hturn := r.turns c
  generalize r.call c = r' at hturn
  cases hturn with
  | same => exact h
  | forgot name construct => exact absurd rfl hc
  | @kept text d l hparse hknown hbuild =>
    have hne : key ≠ d.text := by
      rintro rfl
      exact nomatch h.symm.trans hknown
    rw [List.lookup_cons, beq_eq_false_iff_ne.2 hne]
    exact h

theorem known_calls {cs : List Call} (hcs : ∀ c ∈ cs, ¬c.isRegister) {key : String}
    {shared : Shared} (h : r.known.lookup key = some shared) :
    (r.calls cs).known.lookup key = some shared := by
  induction cs generalizing r with
  | nil => exact h
  | cons c cs ih =>
    rw [List.forall_mem_cons] at hcs
    exact ih hcs.2 (known_call hcs.1 h)

structure Since (n : Nat) (r : Registry) : Prop where
  issued : n ≤ r.issued
  known {key : String} {shared : Shared} : (key, shared) ∈ r.known → n ≤ shared.number

namespace Since

variable {n : Nat}

theorem forgotten (hissued : n ≤ r.issued) (hknown : r.known = []) : Since n r where
  issued := hissued
  known h := absurd (hknown ▸ h) List.not_mem_nil

theorem call (h : Since n r) (c : Call) : Since n (r.call c) := by
  have hturn := r.turns c
  generalize r.call c = r' at hturn
  cases hturn with
  | same => exact h
  | forgot name construct => exact forgotten h.issued rfl
  | kept hparse hknown hbuild =>
    refine ⟨Nat.le_succ_of_le h.issued, fun hmem => ?_⟩
    obtain hmem | hmem := List.mem_cons.1 hmem
    · obtain ⟨-, rfl⟩ := Prod.mk.inj hmem
      exact h.issued
    · exact h.known hmem

theorem calls (h : Since n r) (cs : List Call) : Since n (r.calls cs) := by
  induction cs generalizing r with
  | nil => exact h
  | cons c cs ih => exact ih (h.call c)

end Since

theorem issued_le_call (r : Registry) (c : Call) : r.issued ≤ (r.call c).issued := by
  have hturn := r.turns c
  generalize r.call c = r' at hturn
  cases hturn with
  | same => exact Nat.le_refl _
  | forgot name construct => exact Nat.le_refl _
  | kept => exact Nat.le_succ _

theorem since_calls {cs : List Call} (h : ∃ c ∈ cs, c.isRegister) {n : Nat} (hn : n ≤ r.issued) :
    Since n (r.calls cs) := by
  induction cs generalizing r with
  | nil =>
    obtain ⟨c, hmem, -⟩ := h
    exact absurd hmem List.not_mem_nil
  | cons c cs ih =>
    have hn' : n ≤ (r.call c).issued := Nat.le_trans hn (r.issued_le_call c)
    obtain ⟨c', hmem, hc'⟩ := h
    obtain rfl | hmem := List.mem_cons.1 hmem
    · cases c' with
      | register name construct =>
        have forgotten : Since n (r.register name construct) := .forgotten hn rfl
        exact forgotten.calls cs
      | _ => nomatch hc'
    · exact ih ⟨c', hmem, hc'⟩ hn'

theorem Coherent.lookup_shared (h : Coherent r) {text text' : String} {between : List Call}
    {shared shared' : Shared} (hshared : (r.lookup text).1 = .ok shared)
    (hshared' : ((r.calls (.lookup text :: between)).lookup text').1 = .ok shared') :
    (shared.number = shared'.number ↔
      (∃ d, Descriptor.parse text = .ok d ∧ Descriptor.parse text' = .ok d) ∧
        ∀ c ∈ between, ¬c.isRegister) ∧
      (shared.number = shared'.number → shared = shared') := by
  obtain ⟨d, hparse, hknown⟩ := known_of_lookup hshared
  obtain ⟨d', hparse', hknown'⟩ := known_of_lookup hshared'
  by_cases hbetween : ∀ c ∈ between, ¬c.isRegister
  · have still := known_call (c := .lookup text') Bool.false_ne_true (known_calls hbetween hknown)
    have last : Coherent ((r.calls (.lookup text :: between)).call (.lookup text')) :=
      (h.calls _).call _
    have same_of_number : shared.number = shared'.number → d = d' := fun hnumber =>
      Descriptor.text_inj hparse hparse'
        (last.key_eq (mem_of_lookup still) (mem_of_lookup hknown') hnumber)
    have shared_of_same : d = d' → shared = shared' := by
      rintro rfl
      exact Option.some.inj (still.symm.trans hknown')
    refine ⟨⟨fun hnumber => ?_, fun hsame => ?_⟩, fun hnumber => ?_⟩
    · exact ⟨⟨d, hparse, same_of_number hnumber ▸ hparse'⟩, hbetween⟩
    · obtain ⟨⟨e, he, he'⟩, -⟩ := hsame
      rw [hparse] at he
      rw [hparse'] at he'
      rw [shared_of_same ((Except.ok.inj he).trans (Except.ok.inj he').symm)]
    · exact shared_of_same (same_of_number hnumber)
  · have hregister : ∃ c ∈ between, c.isRegister := by simpa using hbetween
    have hlt : shared.number < (r.call (.lookup text)).issued :=
      (h.call _).issued (mem_of_lookup hknown)
    have hle : (r.call (.lookup text)).issued ≤ shared'.number :=
      ((since_calls hregister (Nat.le_refl _)).call (.lookup text')).known (mem_of_lookup hknown')
    have hne : shared.number ≠ shared'.number := Nat.ne_of_lt (Nat.lt_of_lt_of_le hlt hle)
    exact ⟨⟨fun hnumber => absurd hnumber hne, fun hsame => absurd hsame.2 hbetween⟩,
      fun hnumber => absurd hnumber hne⟩

end Registry

/-- The calls of its registry that a step of a session makes. A new configuration is none of them: it
makes another registry. -/
def Step.calls : Step → List Registry.Call
  | .register name construct => [.register name construct]
  | .lookup text => [.lookup text]
  | .resolve text => [.resolve text]
  | .build d => [.build d]
  | _ => []

namespace Session

theorem registry_give (s : Session) (shared : Shared) : (s.give shared).2.registry = s.registry := by
  rw [give]
  split <;> rfl

theorem registry_read {α : Type} (s : Session) (r : Reader α) (answer : α → Nat → Answer) :
    (s.read r answer).2.registry = s.registry := by
  rw [read]
  split <;> rfl

theorem registry_write (s : Session) (w : Writer) : (s.write w).2.registry = s.registry := by
  rw [write]
  split <;> rfl

theorem registry_withLayout (s : Session) {act : Layout → Answer × Session}
    (h : ∀ l, (act l).2.registry = s.registry) : (s.withLayout act).2.registry = s.registry := by
  rw [withLayout]
  split
  · exact h _
  · rfl

theorem registry_step (s : Session) {a : Step} (h : ∀ document, a ≠ .configure document) :
    (s.step a).2.registry = s.registry.calls a.calls := by
  change (s.act a).2.registry = _
  cases a with
  | configure document => exact absurd rfl (h document)
  | lookup text =>
    change _ = (s.registry.lookup text).2
    rw [act]
    split
    · rename_i hlook
      rw [registry_give, hlook]
    · rename_i hlook
      rw [hlook]
  | resolve text =>
    rw [act]
    split <;> rfl
  | build d =>
    rw [act]
    split <;> rfl
  | readRow => exact registry_withLayout s fun l => registry_read s _ _
  | readColumn rows swap native => exact registry_withLayout s fun l => registry_read s _ _
  | write v => exact registry_withLayout s fun l => registry_write s _
  | readCount => exact registry_read s _ _
  | writeCount n => exact registry_write s _
  | _ => rfl

end Session

namespace Registry

/-- Within any limit and whatever calls a new registry has taken, a look-up gives the layout that the
text resolves to at the time, or fails in the same way. A look-up that fails leaves the registry
alone, as resolving and building do. Whatever is known is stored under the text of a descriptor that
would be built to it now, and two look-ups give one shared layout when their texts are parsed to one
descriptor and no constructor was registered in between, and only then. -/
theorem lookup_coherent (settings : Settings) (limit : Limit) (before : List Call) :
    let r := ((new settings).within limit).calls before
    (∀ text, (r.lookup text).1.map Shared.layout = r.resolve text) ∧
      (∀ text f, (r.lookup text).1 = .error f → (r.lookup text).2 = r) ∧
      (∀ s : Session, s.registry = r → ∀ text d,
        (s.step (.resolve text)).2.registry = r ∧ (s.step (.build d)).2.registry = r) ∧
      (∀ key shared, (key, shared) ∈ r.known →
        ∃ d, Descriptor.parse key = .ok d ∧ d.text = key ∧ r.build d = .ok shared.layout) ∧
      ∀ text shared between text' shared', (r.lookup text).1 = .ok shared →
        ((r.calls (.lookup text :: between)).lookup text').1 = .ok shared' →
          (shared.number = shared'.number ↔
            (∃ d, Descriptor.parse text = .ok d ∧ Descriptor.parse text' = .ok d) ∧
              ∀ c ∈ between, ¬c.isRegister) ∧
          (shared.number = shared'.number → shared = shared') := by
  intro r
  have coherent : Coherent r := (Coherent.new settings limit).calls before
  refine ⟨coherent.lookup_eq_resolve, fun text f hf => ?_, fun s hs text d => ?_,
    fun key shared => coherent.rebuilt, fun text shared between text' shared' => ?_⟩
  · have hlook := r.looksUp text
    rw [hf] at hlook
    generalize (r.lookup text).2 = r' at hlook ⊢
    cases hlook
    rfl
  · rw [← hs]
    exact ⟨s.registry_step (fun _ h => nomatch h), s.registry_step (fun _ h => nomatch h)⟩
  · exact coherent.lookup_shared

theorem lookup_coherent_replaced_element :
    let narrow : Call := .register "Id" (.ofNumber (.uint .w8))
    let wide : Call := .register "Id" (.ofNumber (.uint .w64))
    let shared : Shared := ⟨0, .array "Array( Id)" (.number (.uint .w8))⟩
    let shared' : Shared := ⟨1, .array "Array( Id)" (.number (.uint .w64))⟩
    let r := (new {}).calls [narrow]
    (r.lookup " Array( Id)").1 = .ok shared ∧
      ((r.calls [.lookup " Array( Id)"]).lookup "Array ( Id)").1 = .ok shared ∧
      (∃ d, Descriptor.parse " Array( Id)" = .ok d ∧ Descriptor.parse "Array ( Id)" = .ok d) ∧
      ((r.calls [.lookup " Array( Id)", wide]).lookup "Array ( Id)").1 = .ok shared' := by
  intro narrow wide shared shared' r
  have first : (r.lookup " Array( Id)").1 = .ok shared := by
    simp only [r, narrow, shared]
    cbv
  have second : ((r.calls [.lookup " Array( Id)"]).lookup "Array ( Id)").1 = .ok shared := by
    simp only [r, narrow, shared]
    cbv
  have third : ((r.calls [.lookup " Array( Id)", wide]).lookup "Array ( Id)").1 = .ok shared' := by
    simp only [r, narrow, wide, shared']
    cbv
  obtain ⟨-, -, -, -, share⟩ := lookup_coherent {} {} [narrow]
  have both := share _ _ [] _ _ first second
  exact ⟨first, second, (both.1.1 rfl).1, third⟩

end Registry

end TypedColumn
