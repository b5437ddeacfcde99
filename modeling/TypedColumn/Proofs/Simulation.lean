import TypedColumn.Proofs.Grammar

/-!
Two readers side by side. They are alike when from every place of every buffer both fail in the same
way or both come to the same place, with results that are related. Readers that are put together in
the same way from alike readers are alike.
-/

namespace TypedColumn.Reader

variable {α β γ δ : Type} {R : α → β → Prop} {S : γ → δ → Prop}

inductive Outcomes (R : α → β → Prop) : Except Fault (α × Nat) → Except Fault (β × Nat) → Prop
  | ok {a : α} {b : β} (next : Nat) : R a b → Outcomes R (.ok (a, next)) (.ok (b, next))
  | error (f : Fault) : Outcomes R (.error f) (.error f)

theorem Outcomes.both {f : α → β} {g : α → γ} {x : Except Fault (α × Nat)}
    {y : Except Fault (β × Nat)} {z : Except Fault (γ × Nat)}
    (h : Outcomes (fun a b => b = f a) x y) (h' : Outcomes (fun a c => c = g a) x z) :
    (∃ e, y = .error e ∧ z = .error e) ∨
      ∃ a next, x = .ok (a, next) ∧ y = .ok (f a, next) ∧ z = .ok (g a, next) := by
  cases h with
  | error e =>
    cases h'
    exact .inl ⟨e, rfl, rfl⟩
  | ok next hb =>
    cases h' with
    | ok _ hc => exact .inr ⟨_, next, rfl, by rw [hb], by rw [hc]⟩

def Alike (R : α → β → Prop) (r : Reader α) (s : Reader β) : Prop :=
  ∀ buf pos, Outcomes R (r buf pos) (s buf pos)

namespace Alike

theorem refl (r : Reader α) : Alike Eq r r := by
  intro buf pos
  cases r buf pos with
  | error f => exact .error f
  | ok x => exact .ok x.2 rfl

theorem mono {R' : α → β → Prop} {r : Reader α} {s : Reader β} (h : Alike R r s)
    (h' : ∀ a b, R a b → R' a b) : Alike R' r s := by
  intro buf pos
  have both := h buf pos
  generalize r buf pos = x, s buf pos = y at both ⊢
  cases both with
  | error f => exact .error f
  | ok next hab => exact .ok next (h' _ _ hab)

theorem pure {a : α} {b : β} (h : R a b) : Alike R (Pure.pure a) (Pure.pure b) :=
  fun _ pos => .ok pos h

theorem fail (f : Fault) : Alike R (Reader.fail f) (Reader.fail f) := fun _ _ => .error f

theorem bind {r : Reader α} {s : Reader β} (h : Alike R r s) {f : α → Reader γ} {g : β → Reader δ}
    (h' : ∀ a b, R a b → Alike S (f a) (g b)) : Alike S (r >>= f) (s >>= g) := by
  intro buf pos
  have both := h buf pos
  rw [bind_apply, bind_apply]
  generalize r buf pos = x, s buf pos = y at both ⊢
  cases both with
  | error f => exact .error f
  | ok next hab => exact h' _ _ hab buf next

theorem map {r : Reader α} {s : Reader β} (h : Alike R r s) {f : α → γ} {g : β → δ}
    (h' : ∀ a b, R a b → S (f a) (g b)) :
    Alike S (r >>= fun a => Pure.pure (f a)) (s >>= fun b => Pure.pure (g b)) :=
  h.bind fun a b hab => pure (h' a b hab)

theorem and_left {r : Reader α} {s : Reader β} (h : Alike R r s) {P : α → Prop}
    (hP : ∀ buf pos a next, r buf pos = .ok (a, next) → P a) :
    Alike (fun a b => P a ∧ R a b) r s := by
  intro buf pos
  have both := h buf pos
  have given := hP buf pos
  generalize r buf pos = x, s buf pos = y at both given ⊢
  cases both with
  | error f => exact .error f
  | ok next hab => exact .ok next ⟨given _ next rfl, hab⟩

theorem replicate {r : Reader α} {s : Reader β} (h : Alike R r s) (n : Nat) :
    Alike (List.Forall₂ R) (Reader.replicate r n) (Reader.replicate s n) := by
  induction n with
  | zero =>
    rw [replicate_zero, replicate_zero]
    exact pure .nil
  | succ n ih =>
    rw [replicate_succ, replicate_succ]
    exact h.bind fun a b hab => ih.map fun _ _ hs => .cons hab hs

end Alike

end TypedColumn.Reader
