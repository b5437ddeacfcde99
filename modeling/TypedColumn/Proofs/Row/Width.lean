import TypedColumn.Proofs.Row.Writing

namespace TypedColumn

variable {α β : Type}

open Grammar (Sequence Counted)

namespace Reader

def Coincide (r s : Reader α) : Prop :=
  ∀ buf pos a next, r buf pos = .ok (a, next) ↔ s buf pos = .ok (a, next)

namespace Coincide

variable {r s : Reader α}

theorem refl (r : Reader α) : Coincide r r := fun _ _ _ _ => Iff.rfl

theorem trans {t : Reader α} (h : Coincide r s) (h' : Coincide s t) : Coincide r t :=
  fun buf pos a next => (h buf pos a next).trans (h' buf pos a next)

theorem bind (h : Coincide r s) {f g : α → Reader β} (h' : ∀ a, Coincide (f a) (g a)) :
    Coincide (r >>= f) (s >>= g) := by
  intro buf pos b next
  rw [bind_eq_ok_iff, bind_eq_ok_iff]
  exact exists_congr fun a => exists_congr fun mid =>
    and_congr (h buf pos a mid) (h' a buf mid b next)

theorem map (h : Coincide r s) (f : α → β) :
    Coincide (r >>= fun a => pure (f a)) (s >>= fun a => pure (f a)) :=
  h.bind fun a => refl (pure (f a))

theorem replicate (h : Coincide r s) (n : Nat) :
    Coincide (Reader.replicate r n) (Reader.replicate s n) := by
  induction n with
  | zero =>
    rw [replicate_zero, replicate_zero]
    exact refl (pure [])
  | succ n ih =>
    rw [replicate_succ, replicate_succ]
    exact h.bind fun a => ih.map (a :: ·)

theorem ensure {n width : Nat}
    (h : ∀ buf pos a next, r buf pos = .ok (a, next) → n * width ≤ buf.length - pos) :
    Coincide r (do
      Reader.ensure n width
      r) := by
  intro buf pos a next
  rw [bind_eq_ok_iff]
  constructor
  · intro hr
    exact ⟨(), pos, ensure_of_le (h buf pos a next hr), hr⟩
  · rintro ⟨⟨⟩, mid, hensure, hr⟩
    obtain rfl := eq_of_ensure hensure
    exact hr

end Coincide

theorem Reads.forward_by {r : Reader α} {G : Grammar α} (h : r.Reads G) {width : Nat}
    (hG : ∀ bs a, G bs a → width ≤ bs.length) {buf : Bytes} {pos next : Nat} {a : α}
    (hr : r buf pos = .ok (a, next)) : pos + width ≤ next := by
  obtain ⟨bs, rest, -, rfl, ha⟩ := h.sound hr
  exact Nat.add_le_add_left (hG bs a ha) pos

end Reader

namespace Layout

def countedWith (check : Nat → Nat → Reader Unit) (width size : Nat) (element : Reader α) :
    Reader (List α) := do
  let n ← CountPrefix.read
  check n width
  Reader.reserve n size
  Reader.replicate element n

mutual
def readWith (check : Nat → Nat → Reader Unit) : Layout → Reader Value
  | .nullable _ inner => do
    let flag ← Reader.byte
    if flag = 0 then readWith check inner else return .null
  | .array _ element => do
    return .array (← countedWith check (minWidth element) Value.size (readWith check element))
  | .tuple _ elements => do return .tuple (← readEachWith check elements)
  | .map _ key value => do
    let width := addWords (minWidth key) (minWidth value)
    let pairs ← countedWith check width Pairs.entrySize (do
      let k ← readWith check key
      let v ← readWith check value
      return (k, v))
    return .map (Pairs.ofList pairs)
  | .simpleAggregate _ inner => readWith check inner
  | l => read l
def readEachWith (check : Nat → Nat → Reader Unit) : List Layout → Reader (List Value)
  | [] => pure []
  | l :: ls => do
    let v ← readWith check l
    return v :: (← readEachWith check ls)
end

/-- Reads one value and refuses no count before its members are read. -/
def readUnchecked (l : Layout) : Reader Value := readWith (fun _ _ => pure ()) l

theorem countedWith_ensure (width size : Nat) (r : Reader α) :
    countedWith Reader.ensure width size r = counted width size r := rfl

theorem readEachWith_ensure {ls : List Layout} (ih : ∀ l ∈ ls, readWith Reader.ensure l = read l) :
    readEachWith Reader.ensure ls = readEach ls := by
  induction ls with
  | nil => rfl
  | cons l ls ihs =>
    rw [List.forall_mem_cons] at ih
    rw [readEachWith, readEach, ih.1, ihs ih.2]

theorem readWith_ensure (l : Layout) : readWith Reader.ensure l = read l := by
  induction l with
  | nullable name inner ih => rw [readWith, read, ih]
  | array name element ih => rw [readWith, read, ih, countedWith_ensure]
  | tuple name elements ih => rw [readWith, read, readEachWith_ensure ih]
  | map name key value ihk ihv => rw [readWith, read, ihk, ihv, countedWith_ensure]
  | simpleAggregate name inner ih => rw [readWith, read, ih]
  | _ => rfl

theorem counted_coincide {width size : Nat} {r s : Reader α} (h : r.Coincide s) {G : Grammar α}
    (hs : s.Reads G) (hw : ∀ bs a, G bs a → width ≤ bs.length) :
    (countedWith (fun _ _ => pure ()) width size r).Coincide (counted width size s) := by
  refine (Reader.Coincide.refl CountPrefix.read).bind fun n => ?_
  have members : (do
      Reader.reserve n size
      Reader.replicate r n).Coincide (do
        Reader.reserve n size
        Reader.replicate s n) := (Reader.Coincide.refl _).bind fun _ => h.replicate n
  refine members.trans (Reader.Coincide.ensure fun buf pos as next hr => ?_)
  obtain ⟨⟨⟩, mid, hreserve, hmembers⟩ := Reader.bind_eq_ok_iff.1 hr
  obtain ⟨-, rfl⟩ := Reader.reserve_eq_ok_iff.1 hreserve
  obtain ⟨bs, rest, hbuf, -, rfl, hsequence⟩ := (hs.replicate n).sound hmembers
  -- the members that were read took at least their least width each
  have there := hsequence.length_mul_le hw
  have whole := congrArg List.length hbuf
  rw [List.length_drop, List.length_append] at whole
  omega

theorem readEach_coincide {ls : List Layout}
    (ih : ∀ l ∈ ls, (readUnchecked l).Coincide (read l)) :
    (readEachWith (fun _ _ => pure ()) ls).Coincide (readEach ls) := by
  induction ls with
  | nil => exact .refl _
  | cons l ls ihs =>
    rw [List.forall_mem_cons] at ih
    rw [readEachWith, readEach]
    exact ih.1.bind fun v => (ihs ih.2).map (v :: ·)

theorem read_coincide (l : Layout) : (readUnchecked l).Coincide (read l) := by
  induction l with
  | nullable name inner ih =>
    rw [readUnchecked, readWith, read]
    refine (Reader.Coincide.refl _).bind fun flag => ?_
    split
    · exact ih
    · exact .refl _
  | array name element ih =>
    rw [readUnchecked, readWith, read]
    exact (counted_coincide ih (read_reads element) fun _ _ => minWidth_le element).map Value.array
  | tuple name elements ih =>
    rw [readUnchecked, readWith, read]
    exact (readEach_coincide ih).map Value.tuple
  | map name key value ihk ihv =>
    rw [readUnchecked, readWith, read]
    have pair := ihk.bind fun k => ihv.map (Prod.mk k)
    exact (counted_coincide pair (pair_reads (read_reads key) (read_reads value))
      fun _ _ => pair_minWidth_le).map fun ps => Value.map (Pairs.ofList ps)
  | simpleAggregate name inner ih =>
    rw [readUnchecked, readWith, read]
    exact ih
  | _ => exact .refl _

/-- A state without a row is part of every row: there are no other ways to leave it out. -/
inductive HoldsState : Layout → Prop
  | aggregateState (name : String) : HoldsState (.aggregateState name)
  | tuple {name : String} {elements : List Layout} {l : Layout} : l ∈ elements → HoldsState l →
      HoldsState (.tuple name elements)
  | simpleAggregate {name : String} {inner : Layout} : HoldsState inner →
      HoldsState (.simpleAggregate name inner)

variable {room : (size : Nat) → Nat → Prop}

theorem HoldsState.not_row {l : Layout} (h : l.HoldsState) {bs : Bytes} {v : Value} :
    ¬l.Row room bs v := by
  induction h generalizing bs v with
  | aggregateState name => exact id
  | tuple hl _ ih =>
    rintro ⟨vs, hvs, -⟩
    obtain ⟨w, -, part, hw⟩ := exists_of_mem_left hvs.forall₂ hl
    exact ih hw
  | simpleAggregate _ ih => exact ih

theorem spells_zero : CountPrefix.Spells [0] 0 :=
  ⟨@CountPrefix.Groups.last 0 (by decide), by decide, Nat.zero_le _⟩

theorem counted_none (size : Nat) (G : Grammar α) : Counted (Reader.Room size) G [0] [] :=
  @Counted.mk _ _ G [0] [] [] spells_zero (Nat.zero_le _) .nil

theorem exists_least_rowEach {ls : List Layout}
    (ih : ∀ l ∈ ls, ∃ bs v, bs.length = l.leastWidth ∧ l.Row Reader.Room bs v) :
    ∃ bs vs, bs.length = leastWidths ls ∧ RowEach Reader.Room ls bs vs := by
  induction ls with
  | nil => exact ⟨[], [], rfl, rfl, rfl⟩
  | cons l ls ihs =>
    rw [List.forall_mem_cons] at ih
    obtain ⟨bs, v, hlen, hrow⟩ := ih.1
    obtain ⟨bs', vs, hlen', hrows⟩ := ihs ih.2
    refine ⟨bs ++ bs', v :: vs, ?_, bs, bs', v, vs, rfl, rfl, hrow, hrows⟩
    rw [List.length_append, hlen, hlen', leastWidths]

theorem exists_least_row (l : Layout) (h : ¬l.HoldsState) :
    ∃ bs v, bs.length = l.leastWidth ∧ l.Row Reader.Room bs v := by
  induction l with
  | number k =>
    exact ⟨List.replicate k.width 0, _, List.length_replicate,
      row_number_iff.2 ⟨List.length_replicate, rfl⟩⟩
  | string =>
    exact ⟨[0], _, rfl, row_string_iff.2 ⟨[0], [], rfl, spells_zero, rfl⟩⟩
  | uuid => exact ⟨List.replicate 16 0, _, rfl, row_uuid_iff.2 ⟨rfl, rfl⟩⟩
  | fixedString name size form =>
    exact ⟨List.replicate size 0, _, List.length_replicate,
      row_fixedString_iff.2 ⟨List.length_replicate, rfl⟩⟩
  | nothing => exact ⟨[], _, rfl, rfl, rfl⟩
  | nullable name inner ih => exact ⟨[1], .null, rfl, .inl ⟨1, by decide, rfl, rfl⟩⟩
  | array name element ih => exact ⟨[0], _, rfl, [], counted_none _ _, rfl⟩
  | tuple name elements ih =>
    obtain ⟨bs, vs, hlen, hrows⟩ := exists_least_rowEach fun l hl =>
      ih l hl fun hstate => h (.tuple hl hstate)
    exact ⟨bs, _, hlen, vs, hrows, rfl⟩
  | map name key value ihk ihv =>
    exact ⟨[0], _, rfl, row_map_iff.2 ⟨[], counted_none _ _, rfl⟩⟩
  | aggregateState name => exact absurd (.aggregateState name) h
  | simpleAggregate name inner ih => exact ih fun hstate => h (.simpleAggregate hstate)

theorem one_le_counted {w : α → Writer} (hw : ∀ a, (w a).Framed) {as : List α} {bs : Bytes}
    (h : ((CountPrefix.write as.length).andThen (Writer.forEach w as)).Appends bs) :
    1 ≤ bs.length := by
  obtain ⟨es, rfl, -⟩ := (appends_counted_iff hw).1 h
  rw [List.length_append]
  exact Nat.le_add_right_of_le (CountPrefix.toBytes_groups _).length_pos

theorem one_le_writeString {text bs : Bytes} (h : (writeString text).Appends bs) :
    1 ≤ bs.length := by
  rw [h.unique (appends_writeString text), List.length_append]
  exact Nat.le_add_right_of_le (CountPrefix.toBytes_groups _).length_pos

theorem leastWidths_le_written {ls : List Layout}
    (ih : ∀ l ∈ ls, ∀ {bs v}, l.Encodes bs v → l.Exact v → l.leastWidth ≤ bs.length)
    {vs : List Value} (hlen : vs.length = ls.length) (hexact : ExactEach ls vs) {bs : Bytes}
    (h : (writeEach ls vs).Appends bs) : leastWidths ls ≤ bs.length := by
  induction ls generalizing vs bs with
  | nil => exact Nat.zero_le _
  | cons l ls ihs =>
    rw [List.forall_mem_cons] at ih
    cases vs with
    | nil => cases hlen
    | cons v vs =>
      obtain ⟨bs₁, bs₂, rfl, hfirst, hrest⟩ := ((framed_write l v).appends_andThen_iff
        (framed_writeEach (fun l _ => framed_write l) vs)).1 h
      rw [leastWidths, List.length_append]
      exact Nat.add_le_add (ih.1 (encodes_iff.2 hfirst) hexact.1)
        (ihs ih.2 (Nat.succ.inj hlen) hexact.2 hrest)

theorem leastWidth_le_written (l : Layout) {bs : Bytes} {v : Value} (h : l.Encodes bs v)
    (hexact : l.Exact v) : l.leastWidth ≤ bs.length := by
  induction l generalizing bs v with
  | number k => exact Nat.le_of_eq (length_of_encodes_number h).symm
  | string =>
    have written := encodes_iff.1 h
    cases v with
    | string text => exact one_le_writeString written
    | bytes text => exact one_le_writeString written
    | _ => cases h
  | uuid => exact Nat.le_of_eq (length_of_encodes_uuid h).symm
  | fixedString name size form => exact Nat.le_of_eq (hexact bs h).symm
  | nothing => exact Nat.zero_le _
  | nullable name inner ih =>
    by_cases hv : v = .null
    · subst hv
      cases h
      exact Nat.le_refl 1
    · have written := encodes_iff.1 h
      rw [write_nullable hv] at written
      obtain ⟨front, rest, rfl, hfront, -⟩ := ((Writer.framed_append [0]).appends_andThen_iff
        (framed_write inner v)).1 written
      rw [hfront.unique (Writer.appends_append [0])]
      exact Nat.le_add_left 1 _
  | array name element ih =>
    cases v with
    | array vs => exact one_le_counted (framed_write element) (encodes_iff.1 h)
    | _ => cases h
  | tuple name elements ih =>
    cases v with
    | tuple vs =>
      have written := encodes_iff.1 h
      rw [write] at written
      split at written
      · rename_i hlen
        exact leastWidths_le_written (fun l hl => ih l hl) hlen hexact written
      · cases written []
    | _ => cases h
  | map name key value ihk ihv =>
    cases v with
    | map ps =>
      exact one_le_counted (fun p : Value × Value =>
        (framed_write key p.1).andThen (framed_write value p.2)) (encodes_iff.1 h)
    | _ => cases h
  | aggregateState name => exact Nat.zero_le _
  | simpleAggregate name inner ih => exact ih h hexact

theorem read_iff_not_holdsState (l : Layout) :
    (∃ buf pos v next, l.read buf pos = .ok (v, next)) ↔ ¬l.HoldsState := by
  constructor
  · rintro ⟨buf, pos, v, next, hr⟩ hstate
    obtain ⟨bs, rest, -, -, hrow⟩ := (read_reads l).sound hr
    exact hstate.not_row hrow
  · intro h
    obtain ⟨bs, v, -, hrow⟩ := exists_least_row l h
    exact ⟨_, _, v, _, (read_reads l).complete hrow [] []⟩

/-- The least width is kept by all that is read or written and taken by some row, unless there is
none; and it makes the check of counts one that changes nothing for what can be read. -/
theorem minWidth_exact (l : Layout) :
    (∀ buf pos v next, l.read buf pos = .ok (v, next) → pos + l.leastWidth ≤ next) ∧
    (∀ v out out', l.Exact v → l.write v out = (.ok (), out') →
      out.length + l.leastWidth ≤ out'.length) ∧
    ((∃ buf pos v next, l.read buf pos = .ok (v, next)) ↔ ¬l.HoldsState) ∧
    (¬l.HoldsState → ∃ bs v, bs.length = l.leastWidth ∧ l.read.Yields bs v) ∧
    l.minWidth ≤ l.leastWidth ∧ (l.leastWidth ≤ greatestWord → l.minWidth = l.leastWidth) ∧
    readWith Reader.ensure l = l.read ∧
    ∀ buf pos v next, readUnchecked l buf pos = .ok (v, next) ↔
      l.read buf pos = .ok (v, next) := by
  refine ⟨fun buf pos v next => (read_reads l).forward_by fun _ _ => leastWidth_le l, ?_,
    read_iff_not_holdsState l, ?_, minWidth_le_leastWidth l, minWidth_eq_leastWidth l,
    readWith_ensure l, read_coincide l⟩
  · intro v out out' hexact h
    obtain ⟨r, bs, hw⟩ := framed_write l v
    rw [hw] at h
    cases h
    rw [List.length_append]
    exact Nat.add_le_add_left (leastWidth_le_written l (hw []) hexact) _
  · intro h
    obtain ⟨bs, v, hlen, hrow⟩ := exists_least_row l h
    exact ⟨bs, v, hlen, (read_reads l).complete hrow⟩

theorem minWidth_exact_state_below_null :
    let l : Layout := .tuple "Tuple(Nullable(AggregateFunction(sum)), Array(FixedString(2)))"
      [.nullable "Nullable(AggregateFunction(sum))" (.aggregateState "AggregateFunction(sum)"),
        .array "Array(FixedString(2))" (.fixedString "FixedString(2)" 2 .raw)]
    let v : Value := .tuple [.null, .array [.bytes [0xff, 0xfe]]]
    1 + l.leastWidth ≤ 5 ∧ ¬l.HoldsState ∧
      (∃ bs v, bs.length = l.leastWidth ∧ l.read.Yields bs v) ∧ l.minWidth = l.leastWidth ∧
      readUnchecked l [7, 1, 1, 0xff, 0xfe] 1 = .ok (v, 5) :=
  let ⟨least, _, rows, attained, _, exact, _, unchecked⟩ := minWidth_exact _
  have stateless := rows.1 ⟨[7, 1, 1, 0xff, 0xfe], 1, _, 5, rfl⟩
  ⟨least [7, 1, 1, 0xff, 0xfe] 1 _ 5 rfl, stateless, attained stateless, exact (by decide),
    (unchecked [7, 1, 1, 0xff, 0xfe] 1 _ 5).2 rfl⟩

end Layout

end TypedColumn
