import Mathlib.Data.List.Forall2
import Mathlib.Data.List.Perm.Basic

namespace TypedColumn

variable {α β : Type} {R : α → β → Prop} {as : List α} {bs : List β}

theorem eq_map_of_forall₂ {f : α → β} (h : List.Forall₂ (fun a b => b = f a) as bs) :
    bs = as.map f := by
  induction h with
  | nil => rfl
  | cons hb _ ih => rw [List.map_cons, hb, ih]

theorem exists_of_mem_right (h : List.Forall₂ R as bs) {b : β} (hb : b ∈ bs) : ∃ a ∈ as, R a b := by
  induction h with
  | nil => cases hb
  | @cons a _ as _ hab _ ih =>
    obtain rfl | hb := List.mem_cons.1 hb
    · exact ⟨a, List.mem_cons_self .., hab⟩
    · obtain ⟨a', ha', hab'⟩ := ih hb
      exact ⟨a', List.mem_cons_of_mem a ha', hab'⟩

theorem exists_of_mem_left (h : List.Forall₂ R as bs) {a : α} (ha : a ∈ as) : ∃ b ∈ bs, R a b := by
  have flipped : List.Forall₂ (flip R) bs as := .flip h
  exact exists_of_mem_right flipped ha

theorem forall₂_imp_of_mem {S : α → β → Prop} (h : List.Forall₂ R as bs)
    (himp : ∀ a ∈ as, ∀ b, R a b → S a b) : List.Forall₂ S as bs := by
  induction h with
  | nil => exact .nil
  | cons hab _ ih =>
    rw [List.forall_mem_cons] at himp
    exact .cons (himp.1 _ hab) (ih himp.2)

theorem exists_partners (found : ∀ a ∈ as, ∃ b ∈ bs, R a b)
    (apart : as.Pairwise fun a a' => ∀ b ∈ bs, R a b → ¬ R a' b)
    (hlen : as.length = bs.length) : ∃ cs, List.Forall₂ R as cs ∧ cs.Perm bs := by
  induction as generalizing bs with
  | nil =>
    rw [List.length_nil, eq_comm, List.length_eq_zero_iff] at hlen
    exact ⟨[], .nil, hlen ▸ .nil⟩
  | cons a as ih =>
    rw [List.forall_mem_cons] at found
    rw [List.pairwise_cons] at apart
    obtain ⟨⟨b, hb, hab⟩, found⟩ := found
    obtain ⟨front, back, rfl⟩ := List.append_of_mem hb
    have others {b' : β} (h : b' ∈ front ++ back) : b' ∈ front ++ b :: back := by
      simp only [List.mem_append, List.mem_cons] at h ⊢
      exact h.imp_right .inr
    have found' : ∀ a' ∈ as, ∃ b' ∈ front ++ back, R a' b' := by
      intro a' ha'
      obtain ⟨b', hb', hR⟩ := found a' ha'
      simp only [List.mem_append, List.mem_cons] at hb'
      rcases hb' with hb' | rfl | hb'
      · exact ⟨b', List.mem_append_left _ hb', hR⟩
      · exact absurd hR (apart.1 a' ha' b' hb hab)
      · exact ⟨b', List.mem_append_right _ hb', hR⟩
    have hlen' : as.length = (front ++ back).length := by
      simp only [List.length_append, List.length_cons] at hlen ⊢
      omega
    obtain ⟨cs, hcs, hperm⟩ := ih found' (apart.2.imp fun h b' hb' => h b' (others hb')) hlen'
    exact ⟨b :: cs, .cons hab hcs, (hperm.cons b).trans List.perm_middle.symm⟩

theorem forall_or_first {P Q : α → Prop} (h : ∀ a, P a ∨ Q a) (as : List α) :
    (∀ a ∈ as, P a) ∨ ∃ front a back, as = front ++ a :: back ∧ (∀ b ∈ front, P b) ∧ Q a := by
  induction as with
  | nil => exact .inl (List.forall_mem_nil _)
  | cons a as ih =>
    obtain ha | ha := h a
    · obtain all | ⟨front, b, back, rfl, hfront, hb⟩ := ih
      · exact .inl (List.forall_mem_cons.2 ⟨ha, all⟩)
      · exact .inr ⟨a :: front, b, back, rfl, List.forall_mem_cons.2 ⟨ha, hfront⟩, hb⟩
    · exact .inr ⟨[], a, as, rfl, List.forall_mem_nil _, ha⟩

theorem forall₂_or_first {S : α → β → Prop} (h : ∀ a ∈ as, ∀ b, R a b ∨ S a b)
    (hlen : bs.length = as.length) : List.Forall₂ R as bs ∨
      ∃ as₁ a as₂ bs₁ b bs₂, as = as₁ ++ a :: as₂ ∧ bs = bs₁ ++ b :: bs₂ ∧
        bs₂.length = as₂.length ∧ List.Forall₂ R as₁ bs₁ ∧ S a b := by
  induction as generalizing bs with
  | nil =>
    rw [List.length_eq_zero_iff.1 hlen]
    exact .inl .nil
  | cons a as ih =>
    rw [List.forall_mem_cons] at h
    cases bs with
    | nil => cases hlen
    | cons b bs =>
      have hlen := Nat.succ.inj hlen
      obtain hab | hab := h.1 b
      · obtain all | ⟨as₁, c, as₂, bs₁, d, bs₂, rfl, rfl, hback, hfront, hcd⟩ := ih h.2 hlen
        · exact .inl (.cons hab all)
        · exact .inr ⟨a :: as₁, c, as₂, b :: bs₁, d, bs₂, rfl, rfl, hback, .cons hab hfront, hcd⟩
      · exact .inr ⟨[], a, as, [], b, bs, rfl, rfl, hlen, .nil, hab⟩

end TypedColumn
