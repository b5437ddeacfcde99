import TypedColumn.Value

namespace TypedColumn.Pairs

def keys (ps : Pairs) : List Value := ps.map Prod.fst

def Distinct (ps : Pairs) : Prop := (keys ps).Pairwise fun k k' => ¬ k'.same k

instance (ps : Pairs) : Decidable ps.Distinct := inferInstanceAs (Decidable (List.Pairwise _ _))

theorem distinct_nil : Distinct [] := List.Pairwise.nil

theorem keys_insert_of_any {k : Value} {ps : Pairs} (h : (keys ps).any k.same) (v : Value) :
    keys (insert k v ps) = keys ps := by
  induction ps with
  | nil => simp [keys] at h
  | cons p ps ih =>
    obtain ⟨k', v'⟩ := p
    rw [insert]
    split
    · rfl
    · rename_i other
      have later : (keys ps).any k.same := by simpa [keys, other] using h
      exact congrArg (k' :: ·) (ih later)

theorem insert_of_not_any {k : Value} {ps : Pairs} (h : ¬ (keys ps).any k.same) (v : Value) :
    insert k v ps = ps ++ [(k, v)] := by
  induction ps with
  | nil => rfl
  | cons p ps ih =>
    obtain ⟨k', v'⟩ := p
    obtain ⟨other, later⟩ : ¬ k.same k' ∧ ¬ (keys ps).any k.same := by simpa [keys] using h
    rw [insert, if_neg other, ih later, List.cons_append]

theorem length_insert_le (k v : Value) (ps : Pairs) : (insert k v ps).length ≤ ps.length + 1 := by
  by_cases known : (keys ps).any k.same
  · have same := congrArg List.length (keys_insert_of_any known v)
    rw [keys, keys, List.length_map, List.length_map] at same
    omega
  · rw [insert_of_not_any known, List.length_append]
    exact Nat.le_refl _

theorem length_ofList_le (ps : List (Value × Value)) : (ofList ps).length ≤ ps.length := by
  have grows (m : Pairs) :
      (ps.foldl (fun m p => insert p.1 p.2 m) m).length ≤ m.length + ps.length := by
    induction ps generalizing m with
    | nil => exact Nat.le_refl _
    | cons p ps ih =>
      have first := length_insert_le p.1 p.2 m
      have others := ih (insert p.1 p.2 m)
      rw [List.foldl_cons, List.length_cons]
      omega
  exact Nat.le_trans (grows []) (Nat.le_of_eq (Nat.zero_add _))

theorem distinct_insert {ps : Pairs} (h : ps.Distinct) (k v : Value) :
    (insert k v ps).Distinct := by
  by_cases known : (keys ps).any k.same
  · rwa [Distinct, keys_insert_of_any known]
  · rw [insert_of_not_any known, Distinct, keys, List.map_append, List.pairwise_append]
    refine ⟨h, List.pairwise_singleton _ _, ?_⟩
    intro k' hk' k'' hk''
    obtain rfl := List.mem_singleton.1 hk''
    intro same
    exact known (List.any_eq_true.2 ⟨k', hk', same⟩)

theorem distinct_foldl_insert {m : Pairs} (h : m.Distinct) (ps : List (Value × Value)) :
    (ps.foldl (fun m p => insert p.1 p.2 m) m).Distinct := by
  induction ps generalizing m with
  | nil => exact h
  | cons p ps ih => exact ih (distinct_insert h p.1 p.2)

theorem distinct_ofList (ps : List (Value × Value)) : (ofList ps).Distinct :=
  distinct_foldl_insert distinct_nil ps

theorem foldl_insert_of_distinct {m ps : Pairs} (h : (m ++ ps).Distinct) :
    ps.foldl (fun m p => insert p.1 p.2 m) m = m ++ ps := by
  induction ps generalizing m with
  | nil => exact (List.append_nil m).symm
  | cons p ps ih =>
    have fresh : ¬ (keys m).any p.1.same := by
      intro known
      obtain ⟨k, hk, same⟩ := List.any_eq_true.1 known
      rw [Distinct, keys, List.map_append, List.pairwise_append] at h
      exact h.2.2 k hk p.1 (by simp) same
    rw [List.foldl_cons, insert_of_not_any fresh, ih (by rwa [List.append_assoc])]
    exact List.append_assoc m [p] ps

theorem ofList_of_distinct {ps : Pairs} (h : ps.Distinct) : ofList ps = ps :=
  foldl_insert_of_distinct h

theorem forall_insert {P Q : Value → Prop} {m : Pairs} (hm : ∀ p ∈ m, P p.1 ∧ Q p.2) {k v : Value}
    (hk : P k) (hv : Q v) : ∀ p ∈ insert k v m, P p.1 ∧ Q p.2 := by
  induction m with
  | nil => simpa [insert] using ⟨hk, hv⟩
  | cons p m ih =>
    rw [List.forall_mem_cons] at hm
    rw [insert]
    split
    · exact List.forall_mem_cons.2 ⟨⟨hm.1.1, hv⟩, hm.2⟩
    · exact List.forall_mem_cons.2 ⟨hm.1, ih hm.2⟩

theorem forall_ofList {P Q : Value → Prop} {ps : Pairs} (h : ∀ p ∈ ps, P p.1 ∧ Q p.2) :
    ∀ p ∈ ofList ps, P p.1 ∧ Q p.2 := by
  have grows {m : Pairs} (hm : ∀ p ∈ m, P p.1 ∧ Q p.2) :
      ∀ p ∈ ps.foldl (fun m p => insert p.1 p.2 m) m, P p.1 ∧ Q p.2 := by
    induction ps generalizing m with
    | nil => exact hm
    | cons p ps ih =>
      rw [List.forall_mem_cons] at h
      exact ih h.2 (forall_insert hm h.1.1 h.1.2)
  exact grows (List.forall_mem_nil _)

def mapParts (f g : Value → Value) (ps : Pairs) : Pairs := ps.map fun p => (f p.1, g p.2)

theorem insert_mapParts {f g : Value → Value} {k v : Value} {m : Pairs}
    (h : ∀ p ∈ m, (f k).same (f p.1) = k.same p.1) :
    insert (f k) (g v) (mapParts f g m) = mapParts f g (insert k v m) := by
  induction m with
  | nil => rfl
  | cons p m ih =>
    obtain ⟨k', v'⟩ := p
    rw [List.forall_mem_cons] at h
    rw [mapParts, List.map_cons, insert, insert, h.1]
    split
    · rfl
    · exact congrArg _ (ih h.2)

theorem ofList_mapParts {P : Value → Prop} {f g : Value → Value}
    (h : ∀ {k k'}, P k → P k' → (f k).same (f k') = k.same k') {ps : Pairs}
    (hps : ∀ p ∈ ps, P p.1) : ofList (mapParts f g ps) = mapParts f g (ofList ps) := by
  have step {m : Pairs} (hm : ∀ p ∈ m, P p.1 ∧ True) :
      (mapParts f g ps).foldl (fun m p => insert p.1 p.2 m) (mapParts f g m) =
        mapParts f g (ps.foldl (fun m p => insert p.1 p.2 m) m) := by
    induction ps generalizing m with
    | nil => rfl
    | cons p ps ih =>
      rw [List.forall_mem_cons] at hps
      have inserted := insert_mapParts (g := g) (v := p.2) fun q hq => h hps.1 (hm q hq).1
      have rest := ih hps.2 (forall_insert (Q := fun _ => True) (v := p.2) hm hps.1 trivial)
      rwa [← inserted] at rest
  exact step (List.forall_mem_nil _)

end TypedColumn.Pairs
