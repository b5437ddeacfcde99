import TypedColumn.Proofs.Column.Rows
import TypedColumn.Proofs.Row.Grammar

/-!
The grammar of columns as they are read: how many rows were asked for, the bytes in which they are
stored, and the values that are handed out for them. A column is handed out part by part, so that the
form of a value is settled where the value is read.
-/

namespace TypedColumn

open Grammar (Sequence sequence_iff_parts)

namespace Bytes

variable {width n : Nat} {bs : Bytes}

theorem length_of_mem_rows (h : bs.length = n * width) : ∀ row ∈ rows width n bs,
    row.length = width := by
  induction n generalizing bs with
  | zero => exact List.forall_mem_nil _
  | succ n ih =>
    rw [Nat.succ_mul] at h
    rw [rows, List.forall_mem_cons]
    constructor
    · rw [List.length_take]
      omega
    · apply ih
      rw [List.length_drop]
      omega

theorem flatten_rows (h : bs.length = n * width) : (rows width n bs).flatten = bs := by
  induction n generalizing bs with
  | zero =>
    rw [Nat.zero_mul, List.length_eq_zero_iff] at h
    rw [h]
    rfl
  | succ n ih =>
    rw [Nat.succ_mul] at h
    rw [rows, List.flatten_cons, ih, List.take_append_drop]
    rw [List.length_drop]
    omega

end Bytes

theorem Reader.takeRows_reads (rows width : Nat) : (takeRows rows width).Reads fun bs bs' =>
    bs.length = rows * width ∧ bs.length ≤ greatestWord ∧ bs' = bs where
  sound {buf pos next a} h := by
    rw [takeRows] at h
    split at h
    · rename_i hword
      obtain ⟨bs, rest, hbuf, hnext, hlen, rfl⟩ := (Reads.take _).sound h
      exact ⟨a, rest, hbuf, hnext, hlen, hlen ▸ hword, rfl⟩
    · cases h
  complete h := by
    obtain ⟨hlen, hword, rfl⟩ := h
    exact takeRows_yields hlen hword

namespace Layout

variable {swap : Bool}

theorem rowsOf_reads (rows width : Nat) : (rowsOf rows width).Reads fun bs parts =>
    parts.length = rows ∧ (∀ part ∈ parts, part.length = width) ∧ bs.length ≤ greatestWord ∧
      bs = parts.flatten := by
  apply ((Reader.takeRows_reads rows width).map (Bytes.rows width rows)).congr
  intro bs parts
  constructor
  · rintro ⟨_, ⟨hlen, hword, rfl⟩, rfl⟩
    exact ⟨Bytes.length_rows width rows _, Bytes.length_of_mem_rows hlen, hword,
      (Bytes.flatten_rows hlen).symm⟩
  · rintro ⟨rfl, hparts, hword, rfl⟩
    exact ⟨_, ⟨Bytes.length_flatten hparts, hword, rfl⟩, (Bytes.rows_flatten hparts).symm⟩

theorem words_reads (rows : Nat) (swap : Bool) : (Reader.words rows swap).Reads fun bs ns =>
    ns.length = rows ∧ bs.length ≤ greatestWord ∧ Sequence (Word swap) bs ns where
  sound h := by
    have read := (rowsOf_reads rows 8).map
      (List.map fun row => Bytes.toNat (if swap then row.reverse else row))
    rw [rowsOf, bind_assoc] at read
    obtain ⟨bs, rest, hbuf, hnext, parts, ⟨hlen, hparts, hword, rfl⟩, rfl⟩ := read.sound h
    refine ⟨_, rest, hbuf, hnext, (List.length_map _).trans hlen, hword,
      sequence_iff_parts.2 ⟨parts, rfl, ?_⟩⟩
    rw [List.forall₂_map_right_iff, List.forall₂_same]
    exact fun part hpart => ⟨hparts part hpart, rfl⟩
  complete h := by
    obtain ⟨rfl, hword, hs⟩ := h
    exact words_yields hs hword

theorem arrayRows_reads {elements : Nat → Reader (List Value)} {C : Nat → Grammar (List Value)}
    (h : ∀ n, (elements n).Reads (C n)) (hlen : ∀ n bs vs, C n bs vs → vs.length = n)
    (name : String) (row last : Nat) (totals : List Nat) :
    (arrayRows name elements row last totals).Reads fun bs vs => ∃ rows,
      totals = runningTotals last (rows.map List.length) ∧
        Sequence (fun part row => C row.length part row) bs rows ∧ vs = rows.map .array := by
  induction totals generalizing row last with
  | nil =>
    rw [arrayRows]
    apply (Reader.Reads.pure []).congr
    intro bs vs
    constructor
    · rintro ⟨rfl, rfl⟩
      exact ⟨[], rfl, .nil, rfl⟩
    · rintro ⟨rows, htotals, hs, rfl⟩
      cases hs with
      | nil => exact ⟨rfl, rfl⟩
      | cons => cases htotals
  | cons total totals ih =>
    rw [arrayRows]
    split
    · apply (Reader.Reads.fail _).congr
      intro bs vs
      refine ⟨False.elim, ?_⟩
      rintro ⟨rows, htotals, hs, rfl⟩
      cases hs with
      | nil => cases htotals
      | cons =>
        rw [List.map_cons, runningTotals, List.cons.injEq] at htotals
        omega
    · rename_i grows
      apply ((h _).bind fun vs => (ih (row + 1) total).map (Value.array vs :: ·)).congr
      intro bs out
      constructor
      · rintro ⟨bs₁, bs₂, vs, rfl, hvs, _, ⟨rows, rfl, hs, rfl⟩, rfl⟩
        have size := hlen _ _ _ hvs
        refine ⟨vs :: rows, ?_, .cons (size ▸ hvs) hs, rfl⟩
        rw [List.map_cons, runningTotals, size, Nat.add_sub_cancel' (by omega)]
      · rintro ⟨rows, htotals, hs, rfl⟩
        cases hs with
        | nil => cases htotals
        | @cons bs₁ bs₂ vs rows hvs hs =>
          rw [List.map_cons, runningTotals, List.cons.injEq] at htotals
          obtain ⟨rfl, rfl⟩ := htotals
          rw [Nat.add_sub_cancel_left]
          exact ⟨bs₁, bs₂, vs, rfl, hvs, _, ⟨rows, rfl, hs, rfl⟩, rfl⟩

section Parts

variable (swap) (name : String) (n : Nat)

theorem readColumn_number (k : NumberKind) : readColumn swap (.number k) n = do
    return (← rowsOf n k.width).map fun bs =>
      .number (Number.ofBytes (if swap then bs.reverse else bs) k) := bind_assoc _ _ _

theorem readColumn_string : readColumn swap .string n = Reader.replicate readString n :=
  bind_pure _

theorem readColumn_uuid : readColumn swap .uuid n = do
    return (← rowsOf n 16).map fun bs => .uuid (Uuid.ofWire bs) := bind_assoc _ _ _

theorem readColumn_fixedString (size : Nat) (form : FixedForm) :
    readColumn swap (.fixedString name size form) n = do
      return (← rowsOf n size).map form.render := by
  refine (bind_assoc _ _ _).trans (bind_congr fun parts => ?_)
  exact congrArg (pure (f := Reader)) List.map_map

theorem readColumn_nothing : readColumn swap .nothing n = do
    Reader.reserve n Value.size
    return List.replicate n .null := bind_assoc _ _ _

theorem readColumn_nullable (inner : Layout) : readColumn swap (.nullable name inner) n = do
    let flags ← Reader.take n
    return maskNulls flags (← readColumn swap inner n) := by
  simp only [readColumn, readRows, bind_assoc, pure_bind, native, native_maskNulls]

theorem readColumn_array (element : Layout) : readColumn swap (.array name element) n =
    Reader.words n swap >>= arrayRows name (readColumn swap element) 0 0 :=
  bind_pure _

end Parts

def FixedRows (n width : Nat) (f : Bytes → Value) : Grammar (List Value) := fun bs vs =>
  ∃ parts : List Bytes, parts.length = n ∧ (∀ part ∈ parts, part.length = width) ∧
    bs.length ≤ greatestWord ∧ bs = parts.flatten ∧ vs = parts.map f

/-- The bytes in which a column of so many rows is stored, with the values that are handed out. -/
def Stored (swap : Bool) : Layout → Nat → Grammar (List Value)
  | .number k, n => FixedRows n k.width fun row =>
    .number (Number.ofBytes (if swap then row.reverse else row) k)
  | .string, n => fun bs vs => vs.length = n ∧ Sequence (Row Reader.Room .string) bs vs
  | .uuid, n => FixedRows n 16 fun row => .uuid (Uuid.ofWire row)
  | .fixedString _ size form, n => FixedRows n size form.render
  | .nothing, n => fun bs vs =>
    n ≤ Reader.capacity Value.size ∧ bs = [] ∧ vs = List.replicate n .null
  | .nullable _ inner, n => fun bs vs => ∃ flags rest ws, bs = flags ++ rest ∧ flags.length = n ∧
    Stored swap inner n rest ws ∧ vs = maskNulls flags ws
  | .array _ element, n => fun bs vs => ∃ totals rest rows, bs = totals ++ rest ∧
    rows.length = n ∧ totals.length ≤ greatestWord ∧
    Sequence (Word swap) totals (runningTotals 0 (rows.map List.length)) ∧
    Sequence (fun part row => Stored swap element row.length part row) rest rows ∧
    vs = rows.map .array
  | _, _ => fun _ _ => False

theorem length_maskNulls {flags : Bytes} {vs : List Value} (h : flags.length = vs.length) :
    (maskNulls flags vs).length = vs.length := by
  rw [maskNulls, List.length_zipWith, h, Nat.min_self]

theorem FixedRows.length_eq {n width : Nat} {f : Bytes → Value} {bs : Bytes} {vs : List Value}
    (h : FixedRows n width f bs vs) : vs.length = n := by
  obtain ⟨parts, hlen, -, -, -, rfl⟩ := h
  rwa [List.length_map]

theorem Stored.length_eq {l : Layout} {n : Nat} {bs : Bytes} {vs : List Value}
    (h : Stored swap l n bs vs) : vs.length = n := by
  induction l generalizing n bs vs with
  | number k => exact FixedRows.length_eq h
  | string => exact h.1
  | uuid => exact FixedRows.length_eq h
  | fixedString name size form => exact FixedRows.length_eq h
  | nothing =>
    obtain ⟨-, -, rfl⟩ := h
    exact List.length_replicate
  | nullable name inner ih =>
    obtain ⟨flags, rest, ws, rfl, hflags, hrest, rfl⟩ := h
    have size := ih hrest
    rw [length_maskNulls (hflags.trans size.symm), size]
  | array name element =>
    obtain ⟨totals, rest, rows, rfl, hlen, -, -, -, rfl⟩ := h
    rwa [List.length_map]
  | tuple => exact h.elim
  | map => exact h.elim
  | aggregateState => exact h.elim
  | simpleAggregate => exact h.elim

theorem fixedRows_reads (n width : Nat) (f : Bytes → Value) : (do
    return (← rowsOf n width).map f).Reads (FixedRows n width f) := by
  apply ((rowsOf_reads n width).map (List.map f)).congr
  intro bs vs
  constructor
  · rintro ⟨parts, ⟨hlen, hparts, hword, rfl⟩, rfl⟩
    exact ⟨parts, hlen, hparts, hword, rfl, rfl⟩
  · rintro ⟨parts, hlen, hparts, hword, rfl, rfl⟩
    exact ⟨parts, ⟨hlen, hparts, hword, rfl⟩, rfl⟩

theorem reserved_reads {α : Type} (n : Nat) (a : α) : (do
    Reader.reserve n Value.size
    return a).Reads fun bs b => n ≤ Reader.capacity Value.size ∧ bs = [] ∧ b = a where
  sound h := by
    obtain ⟨⟨⟩, mid, hreserve, hpure⟩ := Reader.bind_eq_ok_iff.1 h
    obtain ⟨hroom, rfl⟩ := Reader.reserve_eq_ok_iff.1 hreserve
    cases hpure
    exact ⟨[], _, rfl, rfl, hroom, rfl, rfl⟩
  complete h := by
    obtain ⟨hroom, rfl, rfl⟩ := h
    intro out rest
    rw [Reader.bind_of_ok (Reader.reserve_eq_ok_iff.2 ⟨hroom, rfl⟩)]
    rfl

theorem readColumn_reads (swap : Bool) (l : Layout) (n : Nat) :
    (readColumn swap l n).Reads (Stored swap l n) := by
  induction l generalizing n with
  | number k =>
    rw [readColumn_number]
    exact fixedRows_reads n k.width _
  | string =>
    rw [readColumn_string]
    exact readString_reads.replicate n
  | uuid =>
    rw [readColumn_uuid]
    exact fixedRows_reads n 16 _
  | fixedString name size form =>
    rw [readColumn_fixedString]
    exact fixedRows_reads n size form.render
  | nothing =>
    rw [readColumn_nothing]
    exact reserved_reads n _
  | nullable name inner ih =>
    rw [readColumn_nullable]
    apply ((Reader.Reads.take n).bind fun flags => (ih n).map (maskNulls flags)).congr
    intro bs vs
    constructor
    · rintro ⟨flags, rest, _, rfl, ⟨hflags, rfl⟩, ws, hws, rfl⟩
      exact ⟨_, rest, ws, rfl, hflags, hws, rfl⟩
    · rintro ⟨flags, rest, ws, rfl, hflags, hws, rfl⟩
      exact ⟨flags, rest, flags, rfl, ⟨hflags, rfl⟩, ws, hws, rfl⟩
  | array name element ih =>
    rw [readColumn_array]
    apply ((words_reads n swap).bind fun totals =>
      arrayRows_reads ih (fun _ _ _ => Stored.length_eq) name 0 0 totals).congr
    intro bs vs
    constructor
    · rintro ⟨totals, rest, _, rfl, ⟨hlen, hword, hs⟩, rows, rfl, hrows, rfl⟩
      rw [length_runningTotals, List.length_map] at hlen
      exact ⟨totals, rest, rows, rfl, hlen, hword, hs, hrows, rfl⟩
    · rintro ⟨totals, rest, rows, rfl, hlen, hword, hs, hrows, rfl⟩
      refine ⟨totals, rest, _, rfl, ⟨?_, hword, hs⟩, rows, rfl, hrows, rfl⟩
      rwa [length_runningTotals, List.length_map]
  | tuple => exact .fail _
  | map => exact .fail _
  | aggregateState => exact .fail _
  | simpleAggregate => exact .fail _

end Layout

end TypedColumn
