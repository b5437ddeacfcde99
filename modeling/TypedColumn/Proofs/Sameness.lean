import Mathlib.Data.List.Pairwise
import TypedColumn.Proofs.Pairs
import TypedColumn.Proofs.Partners

/-!
Sameness of values whose maps tell their keys apart: on them it is an equivalence. Two maps are
compared by their sizes and by looking the pairs of the first up in the second. Each pair finds one
partner and no two find the same one, so that with as many pairs on either side none is left over.
-/

namespace TypedColumn

namespace Pairs

def Linked (p q : Value × Value) : Prop := p.1.same q.1 ∧ p.2.same q.2

/-- The same pairs in whatever order. -/
def Rearranges (ps qs : Pairs) : Prop := ∃ rs : Pairs, List.Forall₂ Linked ps rs ∧ rs.Perm qs

def Apart (ps : Pairs) : Prop := (keys ps).Pairwise fun k k' => ¬ k.same k' ∧ ¬ k'.same k

theorem Distinct.eq_of_same {ps : Pairs} (h : ps.Distinct) {p q : Value × Value} (hp : p ∈ ps)
    (hq : q ∈ ps) (hpq : p.1.same q.1) (hqp : q.1.same p.1) : p = q := by
  induction ps with
  | nil => cases hp
  | cons r ps ih =>
    obtain ⟨later, rest⟩ := List.pairwise_cons.1 h
    rcases List.mem_cons.1 hp with rfl | hp'
    · rcases List.mem_cons.1 hq with rfl | hq'
      · rfl
      · exact absurd hqp (later q.1 (List.mem_map_of_mem hq'))
    · rcases List.mem_cons.1 hq with rfl | hq'
      · exact absurd hpq (later p.1 (List.mem_map_of_mem hp'))
      · exact ih rest hp' hq'

end Pairs

open Pairs (Linked Rearranges)

namespace Value

/-- At every depth, inside keys too, no map repeats a key. -/
inductive WellKeyed : Value → Prop
  | null : WellKeyed .null
  | number (n : Number) : WellKeyed (.number n)
  | string (text : String) : WellKeyed (.string text)
  | bytes (bs : Bytes) : WellKeyed (.bytes bs)
  | uuid (u : Uuid) : WellKeyed (.uuid u)
  | array {vs : List Value} : (∀ v ∈ vs, WellKeyed v) → WellKeyed (.array vs)
  | tuple {vs : List Value} : (∀ v ∈ vs, WellKeyed v) → WellKeyed (.tuple vs)
  | map {ps : Pairs} : ps.Distinct → (∀ p ∈ ps, WellKeyed p.1) → (∀ p ∈ ps, WellKeyed p.2) →
      WellKeyed (.map ps)

inductive Inside : Value → Value → Prop
  | self (v : Value) : Inside v v
  | array {v w : Value} {vs : List Value} : w ∈ vs → Inside v w → Inside v (.array vs)
  | tuple {v w : Value} {vs : List Value} : w ∈ vs → Inside v w → Inside v (.tuple vs)
  | key {v : Value} {p : Value × Value} {ps : Pairs} : p ∈ ps → Inside v p.1 → Inside v (.map ps)
  | value {v : Value} {p : Value × Value} {ps : Pairs} : p ∈ ps → Inside v p.2 → Inside v (.map ps)

theorem WellKeyed.of_inside {v w : Value} (hv : v.Inside w) (hw : w.WellKeyed) : v.WellKeyed := by
  induction hv with
  | self => exact hw
  | array hmem _ ih =>
    cases hw with
    | array h => exact ih (h _ hmem)
  | tuple hmem _ ih =>
    cases hw with
    | tuple h => exact ih (h _ hmem)
  | key hmem _ ih =>
    cases hw with
    | map _ hk _ => exact ih (hk _ hmem)
  | value hmem _ ih =>
    cases hw with
    | map _ _ hv => exact ih (hv _ hmem)

structure Lawful (v : Value) : Prop where
  refl : v.same v
  congr {w x : Value} : w.WellKeyed → x.WellKeyed → v.same w → v.same x = w.same x

theorem lawful_of_eq {v : Value} (self : v.same v) (h : ∀ {w}, v.same w → v = w) : v.Lawful where
  refl := self
  congr _ _ hvw := by rw [h hvw]

section Members

variable {vs ws xs : List Value}

theorem sameAll_self (h : ∀ v ∈ vs, v.Lawful) : sameAll vs vs := by
  induction vs with
  | nil => rfl
  | cons v vs ih =>
    rw [List.forall_mem_cons] at h
    rw [sameAll, h.1.refl, ih h.2]
    rfl

theorem sameAll_congr (h : ∀ v ∈ vs, v.Lawful) (hw : ∀ w ∈ ws, w.WellKeyed)
    (hx : ∀ x ∈ xs, x.WellKeyed) (hs : sameAll vs ws) : sameAll vs xs = sameAll ws xs := by
  induction vs generalizing ws xs with
  | nil =>
    cases ws with
    | nil => rfl
    | cons w ws => cases hs
  | cons v vs ih =>
    cases ws with
    | nil => cases hs
    | cons w ws =>
      cases xs with
      | nil => rfl
      | cons x xs =>
        rw [sameAll, Bool.and_eq_true] at hs
        rw [List.forall_mem_cons] at h hw hx
        rw [sameAll, sameAll, h.1.congr hw.1 hx.1 hs.1, ih h.2 hw.2 hx.2 hs.2]

end Members

section Maps

variable {ps qs xs : Pairs}

theorem WellKeyed.distinct (h : (Value.map ps).WellKeyed) : ps.Distinct := by
  cases h with
  | map hd _ _ => exact hd

theorem WellKeyed.parts (h : (Value.map ps).WellKeyed) :
    ∀ p ∈ ps, p.1.WellKeyed ∧ p.2.WellKeyed := by
  cases h with
  | map _ hk hv => exact fun p hp => ⟨hk p hp, hv p hp⟩

theorem within_iff
    (unique : ∀ p ∈ ps, ∀ q ∈ qs, ∀ q' ∈ qs, p.1.same q.1 → p.1.same q'.1 → q = q') :
    within ps qs ↔ ∀ p ∈ ps, ∃ q ∈ qs, Linked p q := by
  induction ps with
  | nil => exact ⟨fun _ => List.forall_mem_nil _, fun _ => rfl⟩
  | cons p ps ih =>
    obtain ⟨k, v⟩ := p
    rw [List.forall_mem_cons] at unique
    rw [within, Bool.and_eq_true, ih unique.2, List.forall_mem_cons]
    refine and_congr_left' ?_
    cases hq : List.find? (fun q => k.same q.1) qs with
    | none =>
      rw [List.find?_eq_none] at hq
      refine ⟨nofun, ?_⟩
      rintro ⟨q, hmem, hkey, -⟩
      exact absurd hkey (hq q hmem)
    | some q =>
      have hmem := List.mem_of_find?_eq_some hq
      have hkey : k.same q.1 := by simpa using List.find?_some hq
      constructor
      · intro hvalue
        exact ⟨q, hmem, hkey, hvalue⟩
      · rintro ⟨q', hmem', hkey', hvalue⟩
        rwa [unique.1 q hmem q' hmem' hkey hkey']

theorem same_map : (Value.map ps).same (.map qs) ↔ ps.length = qs.length ∧ within ps qs := by
  rw [same, Bool.and_eq_true, beq_iff_eq]

theorem linked_congr {p q x : Value × Value} (hp : p.1.Lawful ∧ p.2.Lawful)
    (hq : q.1.WellKeyed ∧ q.2.WellKeyed) (hx : x.1.WellKeyed ∧ x.2.WellKeyed) (h : Linked p q) :
    Linked p x ↔ Linked q x := by
  rw [Linked, Linked, hp.1.congr hq.1 hx.1 h.1, hp.2.congr hq.2 hx.2 h.2]

variable (hl : ∀ p ∈ ps, p.1.Lawful ∧ p.2.Lawful)
include hl

theorem unique_of_lawful (hq : (Value.map qs).WellKeyed) :
    ∀ p ∈ ps, ∀ q ∈ qs, ∀ q' ∈ qs, p.1.same q.1 → p.1.same q'.1 → q = q' := by
  intro p hp q hmem q' hmem' hpq hpq'
  have keyed := (hq.parts q hmem).1
  have keyed' := (hq.parts q' hmem').1
  have forth : q.1.same q'.1 := by rwa [← (hl p hp).1.congr keyed keyed' hpq]
  have back : q'.1.same q.1 := by rwa [← (hl p hp).1.congr keyed' keyed hpq']
  exact hq.distinct.eq_of_same hmem hmem' forth back

theorem rearranges_of_same (hp : (Value.map ps).WellKeyed) (hq : (Value.map qs).WellKeyed)
    (h : (Value.map ps).same (.map qs)) : Rearranges ps qs := by
  obtain ⟨hlen, hwithin⟩ := same_map.1 h
  refine exists_partners ((within_iff (unique_of_lawful hl hq)).1 hwithin) ?_ hlen
  have apart : ps.Pairwise fun p p' => ¬ p'.1.same p.1 := List.pairwise_map.1 hp.distinct
  -- two pairs with one partner would have the same key
  refine apart.imp_of_mem fun {p p'} hmem hmem' later q hqmem link link' => later ?_
  have keyed := (hq.parts q hqmem).1
  have back : q.1.same p.1 := by
    rw [← (hl p hmem).1.congr keyed (hp.parts p hmem).1 link.1]
    exact (hl p hmem).1.refl
  rwa [(hl p' hmem').1.congr keyed (hp.parts p hmem).1 link'.1]

theorem same_map_self (hp : (Value.map ps).WellKeyed) : (Value.map ps).same (.map ps) :=
  same_map.2 ⟨rfl, (within_iff (unique_of_lawful hl hp)).2 fun p hmem =>
    ⟨p, hmem, (hl p hmem).1.refl, (hl p hmem).2.refl⟩⟩

theorem within_congr (hp : (Value.map ps).WellKeyed) (hq : (Value.map qs).WellKeyed)
    (hx : (Value.map xs).WellKeyed) (h : (Value.map ps).same (.map qs)) :
    within ps xs ↔ within qs xs := by
  have forth := (within_iff (unique_of_lawful hl hq)).1 (same_map.1 h).2
  obtain ⟨rs, linked, hperm⟩ := rearranges_of_same hl hp hq h
  have back : ∀ q ∈ qs, ∃ p ∈ ps, Linked p q := fun q hmem =>
    exists_of_mem_right linked (hperm.mem_iff.2 hmem)
  have unique := unique_of_lawful hl hx
  have unique' : ∀ q ∈ qs, ∀ x ∈ xs, ∀ x' ∈ xs, q.1.same x.1 → q.1.same x'.1 → x = x' := by
    intro q hmem x hxmem x' hxmem' hkey hkey'
    obtain ⟨p, hpmem, link⟩ := back q hmem
    have keys {y : Value × Value} (hy : y ∈ xs) : p.1.same y.1 = q.1.same y.1 :=
      (hl p hpmem).1.congr (hq.parts q hmem).1 (hx.parts y hy).1 link.1
    exact unique p hpmem x hxmem x' hxmem' (by rwa [keys hxmem]) (by rwa [keys hxmem'])
  rw [within_iff unique, within_iff unique']
  -- each pair has a partner on the other side, and the third map finds both or neither
  constructor
  · intro found q hmem
    obtain ⟨p, hpmem, link⟩ := back q hmem
    obtain ⟨x, hxmem, hlink⟩ := found p hpmem
    exact ⟨x, hxmem, (linked_congr (hl p hpmem) (hq.parts q hmem) (hx.parts x hxmem) link).1 hlink⟩
  · intro found p hpmem
    obtain ⟨q, hmem, link⟩ := forth p hpmem
    obtain ⟨x, hxmem, hlink⟩ := found q hmem
    exact ⟨x, hxmem, (linked_congr (hl p hpmem) (hq.parts q hmem) (hx.parts x hxmem) link).2 hlink⟩

theorem lawful_map (hp : (Value.map ps).WellKeyed) : (Value.map ps).Lawful where
  refl := same_map_self hl hp
  congr {w x} hw hx h := by
    cases w with
    | map qs =>
      cases x with
      | map xs =>
        rw [same, same, (same_map.1 h).1, Bool.eq_iff_iff.2 (within_congr hl hp hw hx h)]
      | _ => rfl
    | _ => cases h

end Maps

theorem WellKeyed.lawful {v : Value} (h : v.WellKeyed) : v.Lawful := by
  induction h with
  | array h ih =>
    refine ⟨sameAll_self ih, fun {w x} hw hx hsame => ?_⟩
    cases hw with
    | array hw =>
      cases hx with
      | array hx => exact sameAll_congr ih hw hx hsame
      | _ => rfl
    | _ => cases hsame
  | tuple h ih =>
    refine ⟨sameAll_self ih, fun {w x} hw hx hsame => ?_⟩
    cases hw with
    | tuple hw =>
      cases hx with
      | tuple hx => exact sameAll_congr ih hw hx hsame
      | _ => rfl
    | _ => cases hsame
  | map hd hk hv ihk ihv => exact lawful_map (fun p hp => ⟨ihk p hp, ihv p hp⟩) (.map hd hk hv)
  | _ =>
    refine lawful_of_eq (by simp [same]) fun {w} h => ?_
    cases w <;> simp_all [same]

section Equivalence

variable {v w x : Value} (hv : v.WellKeyed) (hw : w.WellKeyed)
include hv hw

theorem same_symm (h : v.same w) : w.same v := by
  rw [← hv.lawful.congr hw hv h]
  exact hv.lawful.refl

theorem same_trans (hx : x.WellKeyed) (h : v.same w) (h' : w.same x) : v.same x := by
  rwa [hv.lawful.congr hw hx h]

end Equivalence

theorem WellKeyed.apart {ps : Pairs} (h : (Value.map ps).WellKeyed) : ps.Apart := by
  have keyed : ∀ k ∈ Pairs.keys ps, k.WellKeyed :=
    List.forall_mem_map.2 fun p hp => (h.parts p hp).1
  refine h.distinct.imp_of_mem fun hk hk' later => ⟨fun earlier => later ?_, later⟩
  exact same_symm (keyed _ hk) (keyed _ hk') earlier

end Value

end TypedColumn
