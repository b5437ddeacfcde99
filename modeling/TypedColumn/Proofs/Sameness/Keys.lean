import Mathlib.Data.List.Find
import TypedColumn.Proofs.Sameness

namespace TypedColumn

namespace Pairs

variable {m ps qs : Pairs} {k k' v v' : Value}

theorem forall_linked_self (h : ∀ p ∈ ps, p.1.WellKeyed ∧ p.2.WellKeyed) :
    List.Forall₂ Linked ps ps :=
  List.forall₂_same.2 fun p hp => ⟨(h p hp).1.lawful.refl, (h p hp).2.lawful.refl⟩

theorem same_of_rearranges (hp : (Value.map ps).WellKeyed) (hq : (Value.map qs).WellKeyed)
    (h : Rearranges ps qs) : (Value.map ps).same (.map qs) := by
  obtain ⟨rs, linked, hperm⟩ := h
  have lawful : ∀ p ∈ ps, p.1.Lawful ∧ p.2.Lawful :=
    fun p hmem => ⟨(hp.parts p hmem).1.lawful, (hp.parts p hmem).2.lawful⟩
  refine Value.same_map.2 ⟨linked.length_eq.trans hperm.length_eq, ?_⟩
  rw [Value.within_iff (Value.unique_of_lawful lawful hq)]
  intro p hmem
  obtain ⟨r, hr, hlink⟩ := exists_of_mem_left linked hmem
  exact ⟨r, hperm.mem_iff.1 hr, hlink⟩

theorem same_iff_rearranges (hp : (Value.map ps).WellKeyed) (hq : (Value.map qs).WellKeyed) :
    (Value.map ps).same (.map qs) ↔ Rearranges ps qs :=
  ⟨Value.rearranges_of_same (fun p hmem =>
    ⟨(hp.parts p hmem).1.lawful, (hp.parts p hmem).2.lawful⟩) hp hq, same_of_rearranges hp hq⟩

theorem wellKeyed_insert (hm : (Value.map m).WellKeyed) (hk : k.WellKeyed) (hv : v.WellKeyed) :
    (Value.map (insert k v m)).WellKeyed := by
  have parts := forall_insert hm.parts hk hv
  exact .map (distinct_insert hm.distinct k v) (fun p hp => (parts p hp).1) fun p hp =>
    (parts p hp).2

theorem find?_eq_some_iff (hm : (Value.map m).WellKeyed) (hk : k.WellKeyed) :
    m.find? k = some v ↔ ∃ k₀, (k₀, v) ∈ m ∧ k.same k₀ := by
  have lawful : ∀ p ∈ [(k, Value.null)], p.1.Lawful ∧ p.2.Lawful :=
    List.forall_mem_singleton.2 ⟨hk.lawful, Value.WellKeyed.null.lawful⟩
  have unique := Value.unique_of_lawful lawful hm _ (List.mem_singleton_self _)
  rw [Pairs.find?, Option.map_eq_some_iff]
  constructor
  · rintro ⟨p, hp, rfl⟩
    exact ⟨p.1, List.mem_of_find?_eq_some hp, by simpa using List.find?_some hp⟩
  · rintro ⟨k₀, hmem, hsame⟩
    cases hp : List.find? (fun p => k.same p.1) m with
    | none => exact absurd hsame (List.find?_eq_none.1 hp _ hmem)
    | some p =>
      have hkey : k.same p.1 := by simpa using List.find?_some hp
      have hpair := unique p (List.mem_of_find?_eq_some hp) (k₀, v) hmem hkey hsame
      exact ⟨p, rfl, congrArg Prod.snd hpair⟩

section Keys

variable (hm : (Value.map m).WellKeyed) (hk : k.WellKeyed) (hk' : k'.WellKeyed) (h : k.same k')
include hm hk hk' h

theorem find?_congr : m.find? k = m.find? k' := by
  rw [Pairs.find?, Pairs.find?]
  exact congrArg _ (List.find?_congr fun p hp => hk.lawful.congr hk' (hm.parts p hp).1 h)

theorem linked_insert (hvv' : v.same v') :
    List.Forall₂ Linked (insert k v m) (insert k' v' m) := by
  have parts := hm.parts
  clear hm
  induction m with
  | nil => exact .cons ⟨h, hvv'⟩ .nil
  | cons p m ih =>
    rw [List.forall_mem_cons] at parts
    obtain ⟨k₀, v₀⟩ := p
    rw [insert, insert, hk.lawful.congr hk' parts.1.1 h]
    split
    · exact .cons ⟨parts.1.1.lawful.refl, hvv'⟩ (forall_linked_self parts.2)
    · exact .cons ⟨parts.1.1.lawful.refl, parts.1.2.lawful.refl⟩ (ih parts.2)

theorem same_insert (hv : v.WellKeyed) (hv' : v'.WellKeyed) (hvv' : v.same v') :
    (Value.map (insert k v m)).same (.map (insert k' v' m)) :=
  same_of_rearranges (wellKeyed_insert hm hk hv) (wellKeyed_insert hm hk' hv')
    ⟨_, linked_insert hm hk hk' h hvv', .refl _⟩

end Keys

end Pairs

namespace Value

theorem same_float {p : Precision} {x y : BitVec (8 * p.bytes)} :
    (Value.number (.float p x)).same (.number (.float p y)) ↔ x = y := by
  rw [same, decide_eq_true_iff, Number.float.injEq]
  exact ⟨fun h => eq_of_heq h.2, fun h => ⟨rfl, heq_of_eq h⟩⟩

/-- Where no map repeats a key, sameness is an equivalence that compares floats by their bits and
maps by their pairs in whatever order; and look-ups and insertions in a map cannot tell keys apart
that are the same. -/
theorem sameness_of_keys :
    (∀ v : Value, v.WellKeyed → v.same v) ∧
    (∀ v w : Value, v.WellKeyed → w.WellKeyed → v.same w → w.same v) ∧
    (∀ v w x : Value, v.WellKeyed → w.WellKeyed → x.WellKeyed → v.same w → w.same x → v.same x) ∧
    (∀ p (x y : BitVec (8 * Precision.bytes p)),
      (Value.number (.float p x)).same (.number (.float p y)) ↔ x = y) ∧
    (∀ ps qs : Pairs, (Value.map ps).WellKeyed → (Value.map qs).WellKeyed →
      ((Value.map ps).same (.map qs) ↔ Pairs.Rearranges ps qs)) ∧
    ∀ (m : Pairs) (k k' : Value), (Value.map m).WellKeyed → k.WellKeyed → k'.WellKeyed →
      k.same k' →
      m.find? k = m.find? k' ∧
      (∀ v, m.find? k = some v ↔ ∃ k₀, (k₀, v) ∈ m ∧ k.same k₀) ∧
      ∀ v v' : Value, v.WellKeyed → v'.WellKeyed → v.same v' →
        (Value.map (m.insert k v)).same (.map (m.insert k' v')) := by
  refine ⟨fun v hv => hv.lawful.refl, fun v w => same_symm, fun v w x => same_trans,
    fun p x y => same_float, fun ps qs => Pairs.same_iff_rearranges, ?_⟩
  intro m k k' hm hk hk' h
  exact ⟨Pairs.find?_congr hm hk hk' h, fun v => Pairs.find?_eq_some_iff hm hk,
    fun v v' => Pairs.same_insert hm hk hk' h⟩

theorem sameness_of_keys_out_of_order :
    let nan (n : Nat) : Value := .number (.float .double (BitVec.ofNat _ (0x7ff8000000000000 + n)))
    let k : Value := .map [(nan 1, .null), (nan 2, .bytes [0])]
    let k' : Value := .map [(nan 2, .bytes [0]), (nan 1, .null)]
    let m : Pairs := [(nan 1, .string "y"), (k', .string "z")]
    let m' : Pairs := [(k, .string "z"), (nan 1, .string "y")]
    ((Value.map m).WellKeyed ∧ (Value.map m').WellKeyed ∧ k.WellKeyed ∧ k'.WellKeyed ∧ k.same k') ∧
      k'.same k ∧ ¬(nan 1).same (nan 2) ∧ (Value.map m).same (.map m') ∧
      m.find? k = m.find? k' ∧
      (Value.map (m.insert k .null)).same (.map (m.insert k' .null)) := by
  intro nan k k' m m'
  have hk : k.WellKeyed :=
    .map (by decide) (by simp [nan, WellKeyed.number]) (by simp [WellKeyed.null, WellKeyed.bytes])
  have hk' : k'.WellKeyed :=
    .map (by decide) (by simp [nan, WellKeyed.number]) (by simp [WellKeyed.null, WellKeyed.bytes])
  have hm : (Value.map m).WellKeyed :=
    .map (by decide) (by simp [m, nan, hk', WellKeyed.number]) (by simp [m, WellKeyed.string])
  have hm' : (Value.map m').WellKeyed :=
    .map (by decide) (by simp [m', nan, hk, WellKeyed.number]) (by simp [m', WellKeyed.string])
  have h : k.same k' := by decide
  obtain ⟨-, symm, -, bits, maps, keys⟩ := sameness_of_keys
  obtain ⟨found, -, inserted⟩ := keys m k k' hm hk hk' h
  have turned : Pairs.Rearranges m m' :=
    ⟨[(nan 1, .string "y"), (k, .string "z")],
      .cons ⟨by decide, by decide⟩ (.cons ⟨symm k k' hk hk' h, by decide⟩ .nil), .swap _ _ _⟩
  exact ⟨⟨hm, hm', hk, hk', h⟩, symm k k' hk hk' h,
    (bits .double _ _).not.2 (by decide), (maps m m' hm hm').2 turned, found,
    inserted .null .null .null .null rfl⟩

end Value

end TypedColumn
