import TypedColumn.Proofs.Column.Soundness
import TypedColumn.Proofs.Successive

namespace TypedColumn

open Grammar (Sequence sequence_congr sequence_iff_parts)

namespace Bytes

def turned (width : Nat) : Nat → Bytes → Bytes
  | 0, bs => bs
  | n + 1, bs => (bs.take width).reverse ++ turned width n (bs.drop width)

theorem turned_nil (width n : Nat) : turned width n [] = [] := by
  induction n with
  | zero => rfl
  | succ n ih => rw [turned, List.take_nil, List.drop_nil, ih]; rfl

theorem length_turned (width n : Nat) (bs : Bytes) : (turned width n bs).length = bs.length := by
  induction n generalizing bs with
  | zero => rfl
  | succ n ih =>
    rw [turned, List.length_append, List.length_reverse, ih, ← List.length_append,
      List.take_append_drop]

theorem rows_turned (width n : Nat) (bs : Bytes) :
    rows width n (turned width n bs) = (rows width n bs).map List.reverse := by
  induction n generalizing bs with
  | zero => rfl
  | succ n ih =>
    rw [turned, rows, rows, List.map_cons]
    by_cases short : bs.length ≤ width
    · -- the row is the last one and may be incomplete
      have nothing := List.drop_of_length_le short
      have row : (bs.take width).reverse.length ≤ width := by
        rw [List.length_reverse]
        exact List.length_take_le width bs
      rw [nothing, turned_nil, List.append_nil, List.take_of_length_le row,
        List.drop_of_length_le row, ← ih, turned_nil]
    · have row : (bs.take width).reverse.length = width := by
        rw [List.length_reverse, List.length_take]
        omega
      rw [List.take_left' row, List.drop_left' row, ih]

theorem rows_take (width n : Nat) (bs : Bytes) :
    rows width n (bs.take (n * width)) = rows width n bs := by
  induction n generalizing bs with
  | zero => rfl
  | succ n ih =>
    rw [rows, rows, List.take_take, List.drop_take, Nat.succ_mul, Nat.add_sub_cancel, ih,
      Nat.min_eq_left (Nat.le_add_left width _)]

end Bytes

theorem Fault.IsUnderrun.code {f : Fault} (h : f.IsUnderrun) : f.report.code = "CODEC_003" := by
  obtain ⟨position, needed, available, rfl⟩ := h
  rfl

namespace Layout

inductive Scalar : Layout → Prop
  | number (k : NumberKind) : Scalar (.number k)
  | string : Scalar .string
  | uuid : Scalar .uuid
  | fixedString (name : String) (size : Nat) (form : FixedForm) :
      Scalar (.fixedString name size form)
  | nothing : Scalar .nothing

def Entry (swap : Bool) : Layout → Grammar Value
  | .number k => fun bs v => Row Reader.Room (.number k) (if swap then bs.reverse else bs) v
  | l => Row Reader.Room l

variable {swap : Bool} {l : Layout} {n : Nat} {bs : Bytes} {vs : List Value}

theorem fixedRows_iff_sequence {width : Nat} {f : Bytes → Value}
    (hword : bs.length ≤ greatestWord) : FixedRows n width f bs vs ↔
      vs.length = n ∧ Sequence (fun row v => row.length = width ∧ v = f row) bs vs := by
  constructor
  · rintro ⟨parts, hlen, hparts, -, rfl, rfl⟩
    refine ⟨(List.length_map f).trans hlen, sequence_iff_parts.2 ⟨parts, rfl, ?_⟩⟩
    rw [List.forall₂_map_right_iff, List.forall₂_same]
    exact fun part hpart => ⟨hparts part hpart, rfl⟩
  · rintro ⟨hlen, hs⟩
    obtain ⟨parts, rfl, h⟩ := sequence_iff_parts.1 hs
    obtain ⟨hparts, hrows⟩ := (List.forall₂_and_left _ _).1 h
    exact ⟨parts, h.length_eq.trans hlen, hparts, hword, rfl, eq_map_of_forall₂ hrows⟩

theorem sequence_nothing :
    Sequence (Entry swap .nothing) bs vs ↔ bs = [] ∧ vs = List.replicate vs.length .null := by
  constructor
  · intro h
    induction h with
    | nil => exact ⟨rfl, rfl⟩
    | cons ha _ ih =>
      obtain ⟨rfl, rfl⟩ := ha
      obtain ⟨rfl, hrest⟩ := ih
      refine ⟨rfl, ?_⟩
      rw [List.length_cons, List.replicate_succ, ← hrest]
  · rintro ⟨rfl, hvs⟩
    rw [hvs]
    generalize vs.length = n
    induction n with
    | zero => exact .nil
    | succ n ih =>
      have first : Entry swap .nothing [] .null := ⟨rfl, rfl⟩
      exact .cons first ih

theorem Scalar.stored_iff_sequence (hl : l.Scalar) (hword : bs.length ≤ greatestWord)
    (hroom : l = .nothing → n ≤ Reader.capacity Value.size) :
    Stored swap l n bs vs ↔ vs.length = n ∧ Sequence (Entry swap l) bs vs := by
  cases hl with
  | number k =>
    refine (fixedRows_iff_sequence hword).trans (and_congr_right' (sequence_congr fun part v => ?_))
    have turned : (if swap then part.reverse else part).length = part.length := by
      split
      · exact List.length_reverse
      · rfl
    change _ ↔ Row Reader.Room (.number k) _ v
    rw [row_number_iff, turned]
  | string => exact Iff.rfl
  | uuid =>
    -- the words that a column puts together are those whose bytes a row turns round
    refine (fixedRows_iff_sequence hword).trans (and_congr_right' (sequence_congr fun part v => ?_))
    change _ ↔ Row Reader.Room .uuid part v
    rw [row_uuid_iff]
    exact and_congr_right fun hlen => by rw [Uuid.ofWire_eq_ofRow hlen]
  | fixedString name size form =>
    refine (fixedRows_iff_sequence hword).trans (and_congr_right' (sequence_congr fun part v => ?_))
    change _ ↔ Row Reader.Room (.fixedString name size form) part v
    rw [row_fixedString_iff]
  | nothing =>
    rw [sequence_nothing]
    constructor
    · rintro ⟨-, rfl, rfl⟩
      rw [List.length_replicate]
      exact ⟨rfl, rfl, rfl⟩
    · rintro ⟨rfl, rfl, hvs⟩
      exact ⟨hroom rfl, rfl, hvs⟩

theorem Scalar.entry_eq_row (hl : l.Scalar) : Entry false l = Row Reader.Room l := by
  cases hl with
  | _ => rfl

theorem rowsOf_apply (rows width : Nat) (buf : Bytes) (pos : Nat) : rowsOf rows width buf pos =
    if rows * width ≤ greatestWord then
      if pos + rows * width ≤ buf.length then
        .ok (Bytes.rows width rows (buf.drop pos), pos + rows * width)
      else .error (.underrun pos (rows * width) (buf.length - pos))
    else .error (.underrun pos greatestWord (buf.length - pos)) := by
  have taken : Reader.takeRows rows width buf pos =
      if rows * width ≤ greatestWord then Reader.take (rows * width) buf pos
      else .error (.underrun pos greatestWord (buf.length - pos)) := rfl
  rw [Reader.take] at taken
  by_cases hword : rows * width ≤ greatestWord
  · rw [if_pos hword] at taken ⊢
    by_cases room : pos + rows * width ≤ buf.length
    · rw [if_pos room] at taken ⊢
      rw [rowsOf, Reader.bind_of_ok taken, Reader.pure_apply, Bytes.rows_take]
    · rw [if_neg room] at taken ⊢
      exact Reader.bind_of_error taken _
  · rw [if_neg hword] at taken ⊢
    exact Reader.bind_of_error taken _

theorem isUnderrun_of_rowsOf {rows width : Nat} {buf : Bytes} {pos : Nat} {f : Fault}
    (h : rowsOf rows width buf pos = .error f) : f.IsUnderrun := by
  rw [rowsOf_apply] at h
  split at h
  · split at h
    · cases h
    · cases h
      exact ⟨_, _, _, rfl⟩
  · cases h
    exact ⟨_, _, _, rfl⟩

theorem code_eq_of_rowsOf {α β : Type} {rows width n : Nat} {render : List Bytes → α}
    {render' : Bytes → β} {buf : Bytes} {pos mid : Nat} {f g : Fault}
    (hf : (rowsOf rows width >>= fun parts => pure (render parts)) buf pos = .error f)
    (hg : (Reader.take n >>= fun bs => pure (render' bs)) buf mid = .error g) :
    f.report.code = g.report.code := by
  rw [(isUnderrun_of_rowsOf (Reader.map_eq_error_iff.1 hf)).code,
    (Reader.take_error (Reader.map_eq_error_iff.1 hg)).code]

theorem Scalar.code_eq (hl : l.Scalar) (hn : l ≠ .nothing) {rows : Nat} {buf : Bytes} {pos : Nat}
    {f g : Fault} (hf : l.readColumn swap rows buf pos = .error f)
    (hg : Reader.replicate l.read rows buf pos = .error g) : f.report.code = g.report.code := by
  obtain ⟨done, mid, -, -, hrow⟩ := Reader.replicate_eq_error_iff.1 hg
  cases hl with
  | number k =>
    rw [readColumn_number] at hf
    rw [read] at hrow
    exact code_eq_of_rowsOf hf hrow
  | string =>
    rw [readColumn_string] at hf
    rw [read, hf] at hg
    cases hg
    rfl
  | uuid =>
    rw [readColumn_uuid] at hf
    rw [read] at hrow
    exact code_eq_of_rowsOf hf hrow
  | fixedString name size form =>
    rw [readColumn_fixedString] at hf
    rw [read] at hrow
    exact code_eq_of_rowsOf hf hrow
  | nothing => exact absurd rfl hn

theorem Scalar.readColumn_eq_ok_iff (hl : l.Scalar) {rows : Nat}
    (hroom : l = .nothing → rows ≤ Reader.capacity Value.size) {buf : Bytes} {pos next : Nat}
    (hbuf : buf.length ≤ greatestWord) (hpos : pos ≤ buf.length) :
    l.readColumn false rows buf pos = .ok (vs, next) ↔
      Reader.replicate l.read rows buf pos = .ok (vs, next) := by
  have size := Nat.le_trans (length_extract_le buf pos next) hbuf
  rw [(readColumn_reads false l rows).eq_ok_iff hpos, ((read_reads l).replicate rows).eq_ok_iff hpos,
    hl.stored_iff_sequence size hroom, hl.entry_eq_row]

theorem rowsOf_turned (rows width : Nat) {buf : Bytes} {pos : Nat} (hpos : pos ≤ buf.length) :
    rowsOf rows width (buf.take pos ++ Bytes.turned width rows (buf.drop pos)) pos =
      (rowsOf rows width buf pos).map (Prod.map (List.map List.reverse) id) := by
  have front : (buf.take pos).length = pos := by
    rw [List.length_take, Nat.min_eq_left hpos]
  have size : (buf.take pos ++ Bytes.turned width rows (buf.drop pos)).length = buf.length := by
    rw [List.length_append, Bytes.length_turned, ← List.length_append, List.take_append_drop]
  rw [rowsOf_apply, rowsOf_apply, size, List.drop_left' front, Bytes.rows_turned]
  split
  · split
    · rfl
    · rfl
  · rfl

theorem readColumn_swapped (k : NumberKind) (rows : Nat) {buf : Bytes} {pos : Nat}
    (hpos : pos ≤ buf.length) : readColumn true (.number k) rows buf pos =
      readColumn false (.number k) rows
        (buf.take pos ++ Bytes.turned k.width rows (buf.drop pos)) pos := by
  rw [readColumn_number, readColumn_number, Reader.bind_apply, Reader.bind_apply,
    rowsOf_turned rows k.width hpos]
  cases rowsOf rows k.width buf pos with
  | error f => rfl
  | ok x =>
    have numbers : (x.1.map fun row => Value.number (Number.ofBytes row.reverse k)) =
        (x.1.map List.reverse).map fun row => .number (Number.ofBytes row k) := by
      rw [List.map_map]
      rfl
    exact congrArg (fun vs => Except.ok (vs, x.2)) numbers

/-- A column of scalars is read as its rows are, one by one, and where these come to a row that fails
it fails for the same reason. The order of bytes is that of numbers and of nothing else. -/
theorem readColumn_scalar (hl : l.Scalar) (rows : Nat) {buf : Bytes} {pos : Nat}
    (hbuf : buf.length ≤ greatestWord) (hpos : pos ≤ buf.length) :
    ((l = .nothing → rows ≤ Reader.capacity Value.size) →
      (∀ vs next, l.readColumn false rows buf pos = .ok (vs, next) ↔
        vs.length = rows ∧ l.read.Successive buf pos vs next) ∧
      ∀ f, l.readColumn false rows buf pos = .error f → ∃ done mid g,
        l.read.Successive buf pos done mid ∧ done.length < rows ∧ l.read buf mid = .error g ∧
          f.report.code = g.report.code) ∧
    ((∀ k, l ≠ .number k) →
      l.readColumn true rows buf pos = l.readColumn false rows buf pos) ∧
    ∀ k, l = .number k → l.readColumn true rows buf pos =
      l.readColumn false rows (buf.take pos ++ Bytes.turned k.width rows (buf.drop pos)) pos := by
  refine ⟨fun hroom => ⟨fun vs next => ?_, fun f hf => ?_⟩, fun hnumber => ?_, ?_⟩
  · rw [hl.readColumn_eq_ok_iff hroom hbuf hpos, Reader.replicate_eq_ok_iff]
  · cases hloop : Reader.replicate l.read rows buf pos with
    | ok x =>
      rw [(hl.readColumn_eq_ok_iff hroom hbuf hpos).2 hloop] at hf
      cases hf
    | error g =>
      obtain ⟨done, mid, hdone, hlen, hg⟩ := Reader.replicate_eq_error_iff.1 hloop
      refine ⟨done, mid, g, hdone, hlen, hg, hl.code_eq ?_ hf hloop⟩
      rintro rfl
      cases hg
  · cases hl with
    | number k => exact absurd rfl (hnumber k)
    | _ => rfl
  · rintro k rfl
    exact readColumn_swapped k rows hpos

theorem readColumn_scalar_fallback_and_cut_row :
    let fixed : Layout := .fixedString "FixedString(2)" 2 (.decode .utf8 .hex)
    let word : Layout := .number (.uint .w16)
    let buf : Bytes := [9, 0xc3, 0xa9, 0xff, 0xfe, 7]
    let vs : List Value := [.string "é", .string "fffe"]
    buf.length ≤ greatestWord ∧ 1 ≤ buf.length ∧ fixed.Scalar ∧ word.Scalar ∧
      (fixed.readColumn false 2 buf 1 = .ok (vs, 5) ∧ vs.length = 2 ∧
        fixed.read.Successive buf 1 vs 5) ∧
      (fixed.readColumn false 3 buf 1 = .error (.underrun 1 6 5) ∧ ∃ done mid g,
        fixed.read.Successive buf 1 done mid ∧ done.length < 3 ∧ fixed.read buf mid = .error g ∧
          (Fault.underrun 1 6 5).report.code = g.report.code) ∧
      fixed.readColumn true 2 buf 1 = fixed.readColumn false 2 buf 1 ∧
      word.readColumn true 2 buf 1 =
        word.readColumn false 2 [9, 0xa9, 0xc3, 0xfe, 0xff, 7] 1 := by
  intro fixed word buf vs
  have size : buf.length ≤ greatestWord := by decide
  have here : 1 ≤ buf.length := by decide
  have fixedScalar : fixed.Scalar := .fixedString _ 2 _
  have wordScalar : word.Scalar := .number _
  have both : fixed.readColumn false 2 buf 1 = .ok (vs, 5) := by
    simp only [fixed, buf, vs]
    rfl
  have cut : fixed.readColumn false 3 buf 1 = .error (.underrun 1 6 5) := rfl
  obtain ⟨pairs, unswapped, -⟩ := readColumn_scalar fixedScalar 2 size here
  obtain ⟨triples, -, -⟩ := readColumn_scalar fixedScalar 3 size here
  obtain ⟨-, -, swapped⟩ := readColumn_scalar wordScalar 2 size here
  exact ⟨size, here, fixedScalar, wordScalar, ⟨both, ((pairs nofun).1 vs 5).1 both⟩,
    ⟨cut, (triples nofun).2 _ cut⟩, unswapped nofun, swapped _ rfl⟩

end Layout

end TypedColumn
