import TypedColumn.Reader

namespace TypedColumn.Reader

variable {α : Type}

inductive Successive (r : Reader α) (buf : Bytes) : (pos : Nat) → List α → (next : Nat) → Prop
  | nil (pos : Nat) : Successive r buf pos [] pos
  | cons {pos mid next : Nat} {a : α} {as : List α} : r buf pos = .ok (a, mid) →
      Successive r buf mid as next → Successive r buf pos (a :: as) next

variable {r : Reader α} {buf : Bytes} {n pos next : Nat}

theorem Successive.forall {P : α → Prop} {as : List α} (h : r.Successive buf pos as next)
    (hr : ∀ {pos a next}, r buf pos = .ok (a, next) → P a) : ∀ a ∈ as, P a := by
  induction h with
  | nil => exact List.forall_mem_nil P
  | cons hfirst _ ih => exact List.forall_mem_cons.2 ⟨hr hfirst, ih⟩

theorem replicate_eq_ok_iff {as : List α} : replicate r n buf pos = .ok (as, next) ↔
    as.length = n ∧ r.Successive buf pos as next := by
  induction n generalizing pos as with
  | zero =>
    rw [replicate_zero]
    constructor
    · intro h
      cases h
      exact ⟨rfl, .nil _⟩
    · rintro ⟨hlen, h⟩
      cases h with
      | nil => rfl
      | cons => cases hlen
  | succ n ih =>
    rw [replicate_succ, bind_eq_ok_iff]
    simp only [map_eq_ok_iff, ih]
    constructor
    · rintro ⟨a, mid, hfirst, as, ⟨hlen, h⟩, rfl⟩
      exact ⟨congrArg Nat.succ hlen, .cons hfirst h⟩
    · rintro ⟨hlen, h⟩
      cases h with
      | nil => cases hlen
      | cons hfirst h => exact ⟨_, _, hfirst, _, ⟨Nat.succ.inj hlen, h⟩, rfl⟩

theorem replicate_eq_error_iff {f : Fault} : replicate r n buf pos = .error f ↔
    ∃ done mid, r.Successive buf pos done mid ∧ done.length < n ∧ r buf mid = .error f := by
  induction n generalizing pos with
  | zero =>
    rw [replicate_zero]
    constructor
    · intro h
      cases h
    · rintro ⟨done, mid, -, hlen, -⟩
      cases hlen
  | succ n ih =>
    rw [replicate_succ, bind_eq_error_iff]
    simp only [map_eq_error_iff, ih]
    constructor
    · rintro (hfail | ⟨a, mid, hfirst, done, stop, h, hlen, hfail⟩)
      · exact ⟨[], pos, .nil pos, Nat.zero_lt_succ n, hfail⟩
      · exact ⟨a :: done, stop, .cons hfirst h, Nat.succ_lt_succ hlen, hfail⟩
    · rintro ⟨done, stop, h, hlen, hfail⟩
      cases h with
      | nil => exact .inl hfail
      | cons hfirst h => exact .inr ⟨_, _, hfirst, _, stop, h, Nat.lt_of_succ_lt_succ hlen, hfail⟩

end TypedColumn.Reader
