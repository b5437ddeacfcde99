import TypedColumn.Proofs.Column.Grammar
import TypedColumn.Report

namespace TypedColumn

variable {α β : Type}

open Grammar (Sequence Pair Counted)

def Fault.IsUnderrun (f : Fault) : Prop :=
  ∃ position needed available, f = .underrun position needed available

namespace Reader

def Underruns (r : Reader α) (bs : Bytes) : Prop := ∀ (out : Bytes) {k : Nat}, k < bs.length →
  ∃ f : Fault, f.IsUnderrun ∧ r (out ++ bs.take k) out.length = .error f

/-- The reader took the bytes between two positions: what comes after them does not matter, and a
buffer that ends among them is an underrun. -/
structure Settled (r : Reader α) (buf : Bytes) (pos : Nat) (a : α) (next : Nat) : Prop where
  next_le : next ≤ buf.length
  append (rest : Bytes) : r (buf ++ rest) pos = .ok (a, next)
  exact : r (buf.take next) pos = .ok (a, next)
  underrun {k : Nat} : pos ≤ k → k < next →
    ∃ f : Fault, f.IsUnderrun ∧ f.report.code = "CODEC_003" ∧ r (buf.take k) pos = .error f

namespace Underruns

variable {r : Reader α} {bs : Bytes}

theorem nil (r : Reader α) : r.Underruns [] := fun _ _ h => absurd h (Nat.not_lt_zero _)

theorem bind_left (h : r.Underruns bs) (f : α → Reader β) : (r >>= f).Underruns bs := by
  intro out k hk
  obtain ⟨e, he, hr⟩ := h out hk
  exact ⟨e, he, bind_of_error hr f⟩

theorem bind {a : α} {t : Bytes} (h : r.Underruns bs) (hy : r.Yields bs a) {f : α → Reader β}
    (h' : (f a).Underruns t) : (r >>= f).Underruns (bs ++ t) := by
  intro out k hk
  by_cases first : k < bs.length
  · rw [List.take_append_of_le_length (Nat.le_of_lt first)]
    exact h.bind_left f out first
  · -- the cut is in the second part, so the first one is read in full
    rw [List.length_append] at hk
    rw [List.take_append, List.take_of_length_le (by omega)]
    obtain ⟨e, he, hr⟩ := h' (out ++ bs) (k := k - bs.length) (by omega)
    rw [← List.append_assoc, bind_of_ok (hy out _), ← List.length_append]
    exact ⟨e, he, hr⟩

theorem take (bs : Bytes) : (Reader.take bs.length).Underruns bs := by
  intro out k hk
  have short : ¬ out.length + bs.length ≤ (out ++ bs.take k).length := by
    rw [List.length_append, List.length_take]
    omega
  rw [Reader.take, if_neg short]
  exact ⟨_, ⟨_, _, _, rfl⟩, rfl⟩

theorem byte (b : UInt8) : Reader.byte.Underruns [b] := by
  intro out k hk
  obtain rfl : k = 0 := Nat.lt_one_iff.1 hk
  rw [Reader.byte, List.take_zero, List.append_nil, List.getElem?_eq_none (Nat.le_refl _)]
  exact ⟨_, ⟨_, _, _, rfl⟩, rfl⟩

theorem replicate {G : Grammar α} (hy : ∀ bs a, G bs a → r.Yields bs a)
    (h : ∀ bs a, G bs a → r.Underruns bs) {as : List α} (hs : Sequence G bs as) :
    (Reader.replicate r as.length).Underruns bs := by
  induction hs with
  | nil => exact nil _
  | cons ha _ ih =>
    rw [List.length_cons, replicate_succ]
    exact (h _ _ ha).bind (hy _ _ ha) (ih.bind_left _)

theorem takeRows {rows width : Nat} (hlen : bs.length = rows * width)
    (hword : bs.length ≤ greatestWord) : (Reader.takeRows rows width).Underruns bs := by
  intro out k hk
  rw [hlen] at hword
  rw [Reader.takeRows, if_pos hword, ← hlen]
  exact take bs out hk

end Underruns

theorem ensure_eq (count width : Nat) (buf : Bytes) (pos : Nat) :
    ensure count width buf pos = .ok ((), pos) ∨
      ∃ f : Fault, f.IsUnderrun ∧ ensure count width buf pos = .error f := by
  rw [ensure]
  split
  · exact .inr ⟨_, ⟨_, _, _, rfl⟩, rfl⟩
  · exact .inl rfl

theorem Reads.settled {r : Reader α} {G : Grammar α} (h : r.Reads G)
    (hu : ∀ bs a, G bs a → r.Underruns bs) {buf : Bytes} {pos next : Nat} {a : α}
    (hpos : pos ≤ buf.length) (hr : r buf pos = .ok (a, next)) : r.Settled buf pos a next := by
  obtain ⟨bs, rest, hbuf, rfl, ha⟩ := h.sound hr
  obtain ⟨out, rfl, rfl⟩ : ∃ out, buf = out ++ bs ++ rest ∧ pos = out.length := by
    refine ⟨buf.take pos, ?_, ?_⟩
    · rw [List.append_assoc, ← hbuf, List.take_append_drop]
    · rw [List.length_take, Nat.min_eq_left hpos]
  have hy := h.complete ha
  constructor
  case next_le => simp only [List.length_append]; omega
  case append =>
    intro rest'
    rw [List.append_assoc]
    exact hy out (rest ++ rest')
  case exact =>
    have cut := hy out []
    rw [← List.length_append, List.take_left]
    rwa [List.append_nil, ← List.length_append] at cut
  case underrun =>
    intro k hk hlt
    obtain ⟨f, ⟨position, needed, available, rfl⟩, hf⟩ :=
      hu bs a ha out (k := k - out.length) (by omega)
    refine ⟨_, ⟨position, needed, available, rfl⟩, rfl, ?_⟩
    rw [List.append_assoc, List.take_append, List.take_of_length_le hk,
      List.take_append_of_le_length (by omega)]
    exact hf

end Reader

open Reader (Underruns)

namespace CountPrefix

theorem groups_underruns {bs : Bytes} {n : Nat} (h : Groups bs n) {room : Nat}
    (hlen : bs.length ≤ room) (start : Nat) : (groups start room).Underruns bs := by
  induction h generalizing room with
  | @last b _ =>
    cases room with
    | zero => cases hlen
    | succ room => exact (Underruns.byte b).bind_left _
  | @more b bs n hb hbs ih =>
    cases room with
    | zero => cases hlen
    | succ room =>
      have size := hbs.length_pos
      rw [List.length_cons] at hlen
      have inner : ¬ (room = 0 ∧ 1 < b.toNat % 128) := by omega
      have follows : ¬ b.toNat < 128 := by omega
      rw [groups]
      apply (Underruns.byte b).bind (t := bs) (Reader.Reads.byte.complete rfl)
      rw [if_neg inner, if_neg follows]
      exact (ih (by omega)).bind_left _

theorem read_underruns {bs : Bytes} {n : Nat} (h : Spells bs n) : read.Underruns bs :=
  fun out _ hk => groups_underruns h.groups h.length_le out.length out hk

end CountPrefix

namespace Layout

variable {swap : Bool} {bs : Bytes}

theorem counted_underruns {width size : Nat} {r : Reader α} {G : Grammar α}
    (hy : ∀ bs a, G bs a → r.Yields bs a) (h : ∀ bs a, G bs a → r.Underruns bs) {as : List α}
    (hc : Counted (Reader.Room size) G bs as) : (counted width size r).Underruns bs := by
  cases hc with
  | @mk count members _ hcount hroom hs =>
    refine (CountPrefix.read_underruns hcount).bind (CountPrefix.read_reads.complete hcount) ?_
    intro out k hk
    rcases Reader.ensure_eq as.length width (out ++ members.take k) out.length with
      passed | ⟨f, hf, refused⟩
    · rw [Reader.bind_of_ok passed, Reader.bind_of_ok (Reader.reserve_eq_ok_iff.2 ⟨hroom, rfl⟩)]
      exact Underruns.replicate hy h hs out hk
    · exact ⟨f, hf, Reader.bind_of_error refused _⟩

theorem readString_underruns {v : Value} (h : Row Reader.Room .string bs v) :
    readString.Underruns bs := by
  obtain ⟨count, text, rfl, hc, -⟩ := h
  exact (CountPrefix.read_underruns hc).bind (CountPrefix.read_reads.complete hc)
    ((Underruns.take text).bind_left _)

theorem readEach_underruns {ls : List Layout}
    (ih : ∀ l ∈ ls, ∀ {bs v}, l.Row Reader.Room bs v → (read l).Underruns bs)
    {vs : List Value} (h : RowEach Reader.Room ls bs vs) :
    (readEach ls).Underruns bs := by
  induction ls generalizing bs vs with
  | nil =>
    obtain ⟨rfl, rfl⟩ := h
    exact Underruns.nil _
  | cons l ls ihs =>
    obtain ⟨bs₁, bs₂, w, ws, rfl, rfl, hw, hws⟩ := h
    rw [List.forall_mem_cons] at ih
    rw [readEach]
    exact (ih.1 hw).bind ((read_reads l).complete hw) ((ihs ih.2 hws).bind_left _)

theorem read_underruns (l : Layout) {v : Value} (h : l.Row Reader.Room bs v) :
    (read l).Underruns bs := by
  induction l generalizing bs v with
  | number k =>
    rw [read, ← (row_number_iff.1 h).1]
    exact (Underruns.take bs).bind_left _
  | string => exact readString_underruns h
  | uuid =>
    rw [read, ← (row_uuid_iff.1 h).1]
    exact (Underruns.take bs).bind_left _
  | fixedString name size form =>
    rw [read, ← h.1]
    exact (Underruns.take bs).bind_left _
  | nothing =>
    obtain ⟨rfl, rfl⟩ := h
    exact Underruns.nil _
  | nullable name inner ih =>
    rw [read]
    rcases h with ⟨flag, -, rfl, rfl⟩ | ⟨rest, rfl, hrest⟩
    · exact (Underruns.byte flag).bind_left _
    · exact (Underruns.byte 0).bind (t := rest) (Reader.Reads.byte.complete rfl) (ih hrest)
  | array name element ih =>
    obtain ⟨vs, hvs, rfl⟩ := h
    rw [read]
    exact (counted_underruns (fun _ _ => (read_reads element).complete) (fun _ _ => ih)
      hvs).bind_left _
  | tuple name elements ih =>
    obtain ⟨vs, hvs, rfl⟩ := h
    rw [read]
    exact (readEach_underruns ih hvs).bind_left _
  | map name key value ihk ihv =>
    obtain ⟨ps, m, hps, -, rfl⟩ := h
    have pairs := pair_reads (read_reads key) (read_reads value)
    rw [read]
    refine (counted_underruns (fun _ _ => pairs.complete) (fun bs p hp => ?_) hps).bind_left _
    cases hp with
    | mk hk hv => exact (ihk hk).bind ((read_reads key).complete hk) ((ihv hv).bind_left _)
  | aggregateState name => exact h.elim
  | simpleAggregate name inner ih =>
    rw [read]
    exact ih h

theorem fixedRows_underruns {n width : Nat} {f : Bytes → Value} {vs : List Value}
    (h : FixedRows n width f bs vs) (g : List Bytes → List Value) : (do
      return g (← rowsOf n width)).Underruns bs := by
  obtain ⟨parts, rfl, hparts, hword, rfl, rfl⟩ := h
  rw [rowsOf, bind_assoc]
  exact (Underruns.takeRows (Bytes.length_flatten hparts) hword).bind_left _

theorem words_underruns {ns : List Nat} (hs : Sequence (Word swap) bs ns)
    (hword : bs.length ≤ greatestWord) : (Reader.words ns.length swap).Underruns bs := by
  have size : bs.length = ns.length * 8 := by
    clear hword
    induction hs with
    | nil => rfl
    | cons h _ ih =>
      rw [List.length_append, List.length_cons, Nat.succ_mul, ih, h.1, Nat.add_comm]
  exact (Underruns.takeRows size hword).bind_left _

theorem arrayRows_underruns {elements : Nat → Reader (List Value)} {C : Nat → Grammar (List Value)}
    (hy : ∀ n bs vs, C n bs vs → (elements n).Yields bs vs)
    (h : ∀ n bs vs, C n bs vs → (elements n).Underruns bs) {rows : List (List Value)}
    (hs : Sequence (fun part row => C row.length part row) bs rows) (name : String)
    (row last : Nat) : (arrayRows name elements row last
      (runningTotals last (rows.map List.length))).Underruns bs := by
  induction hs generalizing row last with
  | nil => exact Underruns.nil _
  | @cons part bs first rows hfirst _ ih =>
    rw [List.map_cons, runningTotals, arrayRows, if_neg (by omega), Nat.add_sub_cancel_left]
    exact (h _ _ _ hfirst).bind (hy _ _ _ hfirst) ((ih (row + 1) _).bind_left _)

theorem readColumn_underruns {l : Layout} {n : Nat} {vs : List Value}
    (h : Stored swap l n bs vs) : (readColumn swap l n).Underruns bs := by
  induction l generalizing n bs vs with
  | number k =>
    rw [readColumn_number]
    exact fixedRows_underruns h _
  | string =>
    obtain ⟨rfl, hs⟩ := h
    rw [readColumn_string]
    exact Underruns.replicate (fun _ _ => readString_reads.complete)
      (fun _ _ => readString_underruns) hs
  | uuid =>
    rw [readColumn_uuid]
    exact fixedRows_underruns h _
  | fixedString name size form =>
    rw [readColumn_fixedString]
    exact fixedRows_underruns h _
  | nothing =>
    obtain ⟨-, rfl, -⟩ := h
    exact Underruns.nil _
  | nullable name inner ih =>
    obtain ⟨flags, rest, ws, rfl, rfl, hrest, rfl⟩ := h
    rw [readColumn_nullable]
    exact (Underruns.take flags).bind (Reader.Yields.take flags) ((ih hrest).bind_left _)
  | array name element ih =>
    obtain ⟨totals, rest, rows, rfl, rfl, hword, htotals, hrest, rfl⟩ := h
    have counts := words_underruns htotals hword
    have read := words_yields htotals hword
    rw [length_runningTotals, List.length_map] at counts read
    rw [readColumn_array]
    exact counts.bind read (arrayRows_underruns
      (fun n _ _ => (readColumn_reads swap element n).complete) (fun _ _ _ => ih) hrest name 0 0)
  | tuple => exact h.elim
  | map => exact h.elim
  | aggregateState => exact h.elim
  | simpleAggregate => exact h.elim

/-- Rows and columns alike: bytes behind what was read do not matter, and bytes that are missing are
reported as missing. -/
theorem reading_settled (l : Layout) {buf : Bytes} {pos : Nat} (hpos : pos ≤ buf.length) :
    (∀ v next, l.read buf pos = .ok (v, next) → l.read.Settled buf pos v next) ∧
      ∀ swap rows vs next, l.readColumn swap rows buf pos = .ok (vs, next) →
        (l.readColumn swap rows).Settled buf pos vs next := by
  constructor
  · intro v next h
    exact (read_reads l).settled (fun _ _ => read_underruns l) hpos h
  · intro swap rows vs next h
    exact (readColumn_reads swap l rows).settled (fun _ _ => readColumn_underruns) hpos h

theorem reading_settled_nullable_arrays :
    let l : Layout := .nullable "Nullable(Array(String))" (.array "Array(String)" .string)
    let row : Bytes := [9, 0, 0x82, 0x00, 1, 0x61, 0, 7]
    let v : Value := .array [.string "a", .string ""]
    let column : Bytes := [9, 0, 5, 0, 0, 0, 0, 0, 0, 0, 1, 0, 0, 0, 0, 0, 0, 0, 1, 1, 0x61, 7]
    let vs : List Value := [.array [.string "a"], .null]
    (1 ≤ row.length ∧ l.read row 1 = .ok (v, 7) ∧ l.read.Settled row 1 v 7) ∧
      1 ≤ column.length ∧ l.readColumn true 2 column 1 = .ok (vs, 21) ∧
        (l.readColumn true 2).Settled column 1 vs 21 :=
  ⟨⟨by decide, rfl, (reading_settled _ (by decide)).1 _ 7 rfl⟩, by decide, rfl,
    (reading_settled _ (by decide)).2 true 2 _ 21 rfl⟩

end Layout

end TypedColumn
