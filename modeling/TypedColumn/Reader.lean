import TypedColumn.Fault

/-!
Readers take a buffer and a position to a result and the position of the first byte they leave.
Every byte is read through `take` or `byte`, which fail when the buffer ends too early. Counts and
positions are unbounded; where a word would overflow the fault says so.
-/

namespace TypedColumn

def Reader (α : Type) : Type := Bytes → Nat → Except Fault (α × Nat)

namespace Reader

variable {α β : Type}

protected def pure (a : α) : Reader α := fun _ pos => .ok (a, pos)

protected def bind (r : Reader α) (f : α → Reader β) : Reader β := fun buf pos =>
  match r buf pos with
  | .ok (a, next) => f a buf next
  | .error e => .error e

instance : Monad Reader where
  pure := Reader.pure
  bind := Reader.bind

def fail (f : Fault) : Reader α := fun _ _ => .error f

def take (n : Nat) : Reader Bytes := fun buf pos =>
  if pos + n ≤ buf.length then .ok ((buf.drop pos).take n, pos + n)
  else .error (.underrun pos n (buf.length - pos))

def byte : Reader UInt8 := fun buf pos =>
  match buf[pos]? with
  | some b => .ok (b, pos + 1)
  | none => .error (.underrun pos 1 (buf.length - pos))

def takeRows (rows width : Nat) : Reader Bytes := fun buf pos =>
  if rows * width ≤ greatestWord then take (rows * width) buf pos
  else .error (.underrun pos greatestWord (buf.length - pos))

def words (rows : Nat) (swap : Bool) : Reader (List Nat) := do
  let bs ← takeRows rows 8
  return (Bytes.rows 8 rows bs).map fun row => Bytes.toNat (if swap then row.reverse else row)

/-- Refuses a count of elements that cannot all be there, each taking at least `width` bytes. -/
def ensure (count width : Nat) : Reader Unit := fun buf pos =>
  let available := buf.length - pos
  if 0 < width ∧ available / width < count then
    .error (.underrun pos (min (count * width) greatestWord) available)
  else .ok ((), pos)

/-- How many things of one size a memory of `2 ^ 63 - 1` bytes can hold. -/
def capacity (size : Nat) : Nat := 0x7fffffffffffffff / size

def Room (size count : Nat) : Prop := count ≤ capacity size

def reserve (count size : Nat) : Reader Unit := fun _ pos =>
  if count ≤ capacity size then .ok ((), pos) else .error (.lengthOverflow pos)

def repeatOnto (r : Reader α) : Nat → List α → Reader (List α)
  | 0, done, _, pos => .ok (done.reverse, pos)
  | n + 1, done, buf, pos =>
    match r buf pos with
    | .ok (a, next) => repeatOnto r n (a :: done) buf next
    | .error e => .error e

def replicate (r : Reader α) (n : Nat) : Reader (List α) := repeatOnto r n []

@[simp] theorem pure_apply (a : α) (buf : Bytes) (pos : Nat) :
    (pure a : Reader α) buf pos = .ok (a, pos) := rfl

theorem bind_apply (r : Reader α) (f : α → Reader β) (buf : Bytes) (pos : Nat) :
    (r >>= f) buf pos =
      match r buf pos with
      | .ok (a, next) => f a buf next
      | .error e => .error e := rfl

@[simp] theorem fail_apply (f : Fault) (buf : Bytes) (pos : Nat) :
    (fail f : Reader α) buf pos = .error f := rfl

theorem bind_of_ok {r : Reader α} {buf : Bytes} {pos next : Nat} {a : α}
    (h : r buf pos = .ok (a, next)) (f : α → Reader β) : (r >>= f) buf pos = f a buf next := by
  rw [bind_apply, h]

theorem bind_of_error {r : Reader α} {buf : Bytes} {pos : Nat} {e : Fault}
    (h : r buf pos = .error e) (f : α → Reader β) : (r >>= f) buf pos = .error e := by
  rw [bind_apply, h]

theorem bind_eq_ok_iff {r : Reader α} {f : α → Reader β} {buf : Bytes} {pos next : Nat} {b : β} :
    (r >>= f) buf pos = .ok (b, next) ↔
      ∃ a mid, r buf pos = .ok (a, mid) ∧ f a buf mid = .ok (b, next) := by
  rw [bind_apply]
  cases r buf pos with
  | error e => simp
  | ok x =>
    constructor
    · intro h
      exact ⟨x.1, x.2, rfl, h⟩
    · rintro ⟨a, mid, h, hf⟩
      cases h
      exact hf

theorem map_eq_ok_iff {r : Reader α} {f : α → β} {buf : Bytes} {pos next : Nat} {b : β} :
    (r >>= fun a => pure (f a)) buf pos = .ok (b, next) ↔
      ∃ a, r buf pos = .ok (a, next) ∧ b = f a := by
  rw [bind_eq_ok_iff]
  constructor
  · rintro ⟨a, mid, h, hpure⟩
    cases hpure
    exact ⟨a, h, rfl⟩
  · rintro ⟨a, h, rfl⟩
    exact ⟨a, next, h, rfl⟩

theorem bind_eq_error_iff {r : Reader α} {f : α → Reader β} {buf : Bytes} {pos : Nat} {e : Fault} :
    (r >>= f) buf pos = .error e ↔ r buf pos = .error e ∨
      ∃ a mid, r buf pos = .ok (a, mid) ∧ f a buf mid = .error e := by
  rw [bind_apply]
  cases r buf pos with
  | error f => simp
  | ok x =>
    constructor
    · intro h
      exact .inr ⟨x.1, x.2, rfl, h⟩
    · rintro (h | ⟨a, mid, h, hf⟩)
      · cases h
      · cases h
        exact hf

theorem map_eq_error_iff {r : Reader α} {f : α → β} {buf : Bytes} {pos : Nat} {e : Fault} :
    (r >>= fun a => pure (f a)) buf pos = .error e ↔ r buf pos = .error e := by
  rw [bind_eq_error_iff]
  constructor
  · rintro (h | ⟨_, _, -, hpure⟩)
    · exact h
    · cases hpure
  · exact .inl

theorem ensure_of_le {count width : Nat} {buf : Bytes} {pos : Nat}
    (h : count * width ≤ buf.length - pos) : ensure count width buf pos = .ok ((), pos) := by
  rw [ensure, if_neg]
  rintro ⟨positive, few⟩
  have enough := (Nat.le_div_iff_mul_le positive).2 h
  omega

theorem eq_of_ensure {count width : Nat} {buf : Bytes} {pos next : Nat}
    (h : ensure count width buf pos = .ok ((), next)) : next = pos := by
  rw [ensure] at h
  split at h
  · cases h
  · cases h
    rfl

theorem capacity_le_greatestWord (size : Nat) : capacity size ≤ greatestWord :=
  Nat.le_trans (Nat.div_le_self ..) (by decide)

theorem reserve_eq_ok_iff {count size : Nat} {buf : Bytes} {pos next : Nat} :
    reserve count size buf pos = .ok ((), next) ↔ count ≤ capacity size ∧ next = pos := by
  rw [reserve]
  split
  · rename_i room
    simp [room, eq_comm]
  · rename_i room
    simp [room]

theorem id_map (r : Reader α) : id <$> r = r := by
  funext buf pos
  change (r >>= fun a => pure (id a)) buf pos = r buf pos
  rw [bind_apply]
  cases r buf pos with
  | error e => rfl
  | ok x => rfl

theorem bind_assoc {γ : Type} (r : Reader α) (f : α → Reader β) (g : β → Reader γ) :
    r >>= f >>= g = r >>= fun a => f a >>= g := by
  funext buf pos
  simp only [bind_apply]
  cases r buf pos with
  | error e => rfl
  | ok x => rfl

instance : LawfulMonad Reader :=
  LawfulMonad.mk' Reader id_map (fun _ _ => rfl) bind_assoc

theorem repeatOnto_apply (r : Reader α) (n : Nat) (done : List α) (buf : Bytes) (pos : Nat) :
    repeatOnto r n done buf pos =
      match replicate r n buf pos with
      | .ok (as, next) => .ok (done.reverse ++ as, next)
      | .error e => .error e := by
  induction n generalizing done pos with
  | zero => simp [repeatOnto, replicate]
  | succ n ih =>
    rw [replicate, repeatOnto, repeatOnto]
    cases r buf pos with
    | error e => rfl
    | ok x =>
      simp only [ih (x.1 :: done), ih [x.1]]
      cases replicate r n buf x.2 <;> simp

@[simp] theorem replicate_zero (r : Reader α) : replicate r 0 = pure [] := by
  funext buf pos
  rfl

theorem replicate_succ (r : Reader α) (n : Nat) :
    replicate r (n + 1) = do
      let a ← r
      return a :: (← replicate r n) := by
  funext buf pos
  rw [replicate, repeatOnto, bind_apply]
  cases r buf pos with
  | error e => rfl
  | ok x =>
    simp only [repeatOnto_apply r n [x.1], bind_apply]
    cases replicate r n buf x.2 <;> simp

end Reader

end TypedColumn
