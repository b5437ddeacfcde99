import Mathlib.Data.List.Induction
import TypedColumn.Proofs.Sameness

namespace TypedColumn

namespace Pairs

def firsts : List Value → List Value
  | [] => []
  | k :: ks => k :: (firsts ks).filter fun k' => !k'.same k

def Last (ps : List (Value × Value)) (k v : Value) : Prop :=
  ∃ front k' back, ps = front ++ (k', v) :: back ∧ k'.same k ∧ ∀ q ∈ back, ¬ q.1.same k

/-- Each key where it first comes, with the value that it comes with last. -/
structure Merges (ps : List (Value × Value)) (m : Pairs) : Prop where
  apart : m.Apart
  keys_eq : keys m = firsts (keys ps)
  last : ∀ p ∈ m, Last ps p.1 p.2
  length_le : m.length ≤ ps.length

theorem value_eq_of_later {k k₁ k₂ v w : Value} {between back back' : List (Value × Value)}
    (h : (k₁, v) :: back = between ++ (k₂, w) :: back') (hsame : k₂.same k)
    (later : ∀ q ∈ back, ¬ q.1.same k) : v = w := by
  cases between with
  | nil =>
    obtain ⟨hpair, -⟩ := List.cons.inj h
    exact (Prod.mk.inj hpair).2
  | cons p between =>
    obtain ⟨-, rfl⟩ := List.cons.inj h
    exact absurd hsame (later (k₂, w) (by simp))

theorem Last.unique {ps : List (Value × Value)} {k v w : Value} (h : Last ps k v)
    (h' : Last ps k w) : v = w := by
  obtain ⟨front, k₁, back, rfl, hsame, later⟩ := h
  obtain ⟨front', k₂, back', heq, hsame', later'⟩ := h'
  obtain ⟨between, -, hback⟩ | ⟨between, -, hback⟩ := List.append_eq_append_iff.1 heq
  · exact value_eq_of_later hback hsame' later
  · exact (value_eq_of_later hback hsame later').symm

theorem eq_of_keys_of_last {ps : List (Value × Value)} {m m' : Pairs} (hkeys : keys m = keys m')
    (h : ∀ p ∈ m, Last ps p.1 p.2) (h' : ∀ p ∈ m', Last ps p.1 p.2) : m = m' := by
  induction m generalizing m' with
  | nil => exact (List.map_eq_nil_iff.1 hkeys.symm).symm
  | cons p m ih =>
    cases m' with
    | nil => cases hkeys
    | cons p' m' =>
      obtain ⟨k, v⟩ := p
      obtain ⟨k', v'⟩ := p'
      rw [List.forall_mem_cons] at h h'
      obtain ⟨hkey, hrest⟩ := List.cons.inj hkeys
      obtain rfl : k = k' := hkey
      obtain rfl : v = v' := h.1.unique h'.1
      rw [ih hrest h.2 h'.2]

theorem Merges.eq {ps : List (Value × Value)} {m m' : Pairs} (h : Merges ps m)
    (h' : Merges ps m') : m = m' :=
  eq_of_keys_of_last (h.keys_eq.trans h'.keys_eq.symm) h.last h'.last

theorem firsts_concat (ks : List Value) (k : Value) :
    firsts (ks ++ [k]) = if ks.any k.same then firsts ks else firsts ks ++ [k] := by
  induction ks with
  | nil => rfl
  | cons k' ks ih =>
    rw [List.cons_append, firsts, ih, firsts, List.any_cons]
    by_cases known : ks.any k.same
    · simp [known]
    · by_cases here : k.same k' <;> simp [known, here]

theorem mem_of_mem_firsts {ks : List Value} {k : Value} (h : k ∈ firsts ks) : k ∈ ks := by
  induction ks with
  | nil => exact h
  | cons k' ks ih =>
    obtain rfl | h := List.mem_cons.1 h
    · exact List.mem_cons_self ..
    · exact List.mem_cons_of_mem k' (ih (List.mem_filter.1 h).1)

theorem any_firsts {ks : List Value} (h : ∀ k ∈ ks, k.WellKeyed) {k : Value} (hk : k.WellKeyed) :
    (firsts ks).any k.same = ks.any k.same := by
  induction ks with
  | nil => rfl
  | cons k' ks ih =>
    rw [List.forall_mem_cons] at h
    rw [firsts, List.any_cons, List.any_cons, ← ih h.2]
    by_cases here : k.same k'
    · rw [here, Bool.true_or, Bool.true_or]
    · have kept : ∀ k'' ∈ firsts ks, k.same k'' → !k''.same k' := by
        intro k'' hmem hsame
        have hk'' := h.2 k'' (mem_of_mem_firsts hmem)
        rw [Bool.not_eq_true', ← Bool.not_eq_true]
        exact fun again => here (Value.same_trans hk hk'' h.1 hsame again)
      refine congrArg _ (Bool.eq_iff_iff.2 ?_)
      simp only [List.any_eq_true, List.mem_filter]
      constructor
      · rintro ⟨k'', ⟨hmem, -⟩, hsame⟩
        exact ⟨k'', hmem, hsame⟩
      · rintro ⟨k'', hmem, hsame⟩
        exact ⟨k'', ⟨hmem, kept k'' hmem hsame⟩, hsame⟩

theorem ofList_concat (ps : List (Value × Value)) (p : Value × Value) :
    ofList (ps ++ [p]) = insert p.1 p.2 (ofList ps) := List.foldl_concat ..

theorem keys_insert (k v : Value) (m : Pairs) :
    keys (insert k v m) = if (keys m).any k.same then keys m else keys m ++ [k] := by
  split
  · rename_i known
    exact keys_insert_of_any known v
  · rename_i fresh
    rw [insert_of_not_any fresh, keys, List.map_append]
    rfl

theorem mem_insert {k v : Value} (hk : k.WellKeyed) {m : Pairs} (hd : m.Distinct)
    (hm : ∀ p ∈ m, p.1.WellKeyed) {p : Value × Value} (hp : p ∈ insert k v m) :
    (p.2 = v ∧ k.same p.1) ∨ (p ∈ m ∧ ¬ k.same p.1) := by
  induction m with
  | nil =>
    obtain rfl := List.mem_singleton.1 hp
    exact .inl ⟨rfl, hk.lawful.refl⟩
  | cons q m ih =>
    obtain ⟨k', v'⟩ := q
    rw [List.forall_mem_cons] at hm
    obtain ⟨later, rest⟩ := List.pairwise_cons.1 hd
    rw [insert] at hp
    split at hp
    · rename_i here
      obtain rfl | hmem := List.mem_cons.1 hp
      · exact .inl ⟨rfl, here⟩
      · refine .inr ⟨List.mem_cons_of_mem _ hmem, fun again => ?_⟩
        have back := Value.same_symm hk (hm.2 p hmem) again
        exact later p.1 (List.mem_map_of_mem hmem) (Value.same_trans (hm.2 p hmem) hk hm.1 back here)
    · rename_i other
      obtain rfl | hmem := List.mem_cons.1 hp
      · exact .inr ⟨List.mem_cons_self, other⟩
      · exact (ih rest hm.2 hmem).imp_right fun h => ⟨List.mem_cons_of_mem _ h.1, h.2⟩

section Merging

variable {ps : List (Value × Value)} (h : ∀ p ∈ ps, p.1.WellKeyed ∧ p.2.WellKeyed)
include h

theorem wellKeyed_ofList : (Value.map (ofList ps)).WellKeyed := by
  have parts := forall_ofList h
  exact .map (distinct_ofList ps) (fun p hp => (parts p hp).1) fun p hp => (parts p hp).2

theorem keys_ofList : keys (ofList ps) = firsts (keys ps) := by
  induction ps using List.reverseRecOn with
  | nil => rfl
  | append_singleton ps p ih =>
    rw [List.forall_mem_append, List.forall_mem_singleton] at h
    have keyed : ∀ k ∈ keys ps, k.WellKeyed := List.forall_mem_map.2 fun q hq => (h.1 q hq).1
    rw [ofList_concat, keys_insert, ih h.1, any_firsts keyed h.2.1, keys, keys, List.map_append,
      List.map_singleton, firsts_concat]

theorem last_of_mem_ofList {p : Value × Value} (hp : p ∈ ofList ps) : Last ps p.1 p.2 := by
  induction ps using List.reverseRecOn with
  | nil => cases hp
  | append_singleton ps q ih =>
    rw [List.forall_mem_append, List.forall_mem_singleton] at h
    have parts := forall_ofList h.1
    rw [ofList_concat] at hp
    obtain ⟨hvalue, hkey⟩ | ⟨hmem, other⟩ :=
      mem_insert h.2.1 (distinct_ofList ps) (fun r hr => (parts r hr).1) hp
    · exact ⟨ps, q.1, [], by rw [hvalue], hkey, List.forall_mem_nil _⟩
    · obtain ⟨front, k, back, rfl, hsame, later⟩ := ih h.1 hmem
      refine ⟨front, k, back ++ [q], List.append_assoc .., hsame, ?_⟩
      exact List.forall_mem_append.2 ⟨later, List.forall_mem_singleton.2 other⟩

theorem merges_ofList : Merges ps (ofList ps) where
  apart := (wellKeyed_ofList h).apart
  keys_eq := keys_ofList h
  last _ := last_of_mem_ofList h
  length_le := length_ofList_le ps

theorem merges_iff {m : Pairs} : Merges ps m ↔ m = ofList ps := by
  constructor
  · intro hm
    exact hm.eq (merges_ofList h)
  · rintro rfl
    exact merges_ofList h

theorem Merges.wellKeyed {m : Pairs} (hm : Merges ps m) : (Value.map m).WellKeyed := by
  rw [(merges_iff h).1 hm]
  exact wellKeyed_ofList h

end Merging

end Pairs

end TypedColumn
