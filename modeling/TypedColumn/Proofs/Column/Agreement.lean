import TypedColumn.Proofs.Column.Rows
import TypedColumn.Proofs.Row.Writing

namespace TypedColumn.Layout

open Grammar (Sequence sequence_iff_parts)

inductive Masked (G : Value → Prop) : Bytes → List Value → List Value → Prop
  | nil : Masked G [] [] []
  | present {flags : Bytes} {v : Value} {vs ws : List Value} : v ≠ .null → Masked G flags vs ws →
      Masked G (0 :: flags) (v :: vs) (v :: ws)
  | null {flag : UInt8} {flags : Bytes} {vs : List Value} {w : Value} {ws : List Value} :
      flag ≠ 0 → G w → Masked G flags vs ws → Masked G (flag :: flags) (.null :: vs) (w :: ws)

/-- The bytes of values in a column; `swap` says that numbers have their highest byte first. -/
def Column (swap : Bool) : Layout → Bytes → List Value → Prop
  | .number k, bs, vs =>
    Sequence (fun row v => Encodes (.number k) (if swap then row.reverse else row) v) bs vs
  | .string, bs, vs => Sequence (Encodes .string) bs vs
  | .uuid, bs, vs => Sequence (Encodes .uuid) bs vs
  | .fixedString name size form, bs, vs => Sequence (Encodes (.fixedString name size form)) bs vs
  | .nothing, bs, _ => bs = []
  | .nullable _ inner, bs, vs => ∃ flags rest ws, bs = flags ++ rest ∧
      Masked (Accepts inner) flags vs ws ∧ Column swap inner rest ws
  | .array _ element, bs, vs => ∃ totals rest rows, bs = totals ++ rest ∧ vs = rows.map .array ∧
      Sequence (Word swap) totals (runningTotals 0 (rows.map List.length)) ∧
      Sequence (Column swap element) rest rows
  | _, _, _ => False

namespace Masked

variable {G : Value → Prop} {flags : Bytes} {vs ws : List Value}

theorem length_flags (h : Masked G flags vs ws) : flags.length = vs.length := by
  induction h with
  | nil => rfl
  | present _ _ ih => rw [List.length_cons, List.length_cons, ih]
  | null _ _ _ ih => rw [List.length_cons, List.length_cons, ih]

theorem length_rows (h : Masked G flags vs ws) : ws.length = vs.length := by
  induction h with
  | nil => rfl
  | present _ _ ih => rw [List.length_cons, List.length_cons, ih]
  | null _ _ _ ih => rw [List.length_cons, List.length_cons, ih]

theorem forall_rows (h : Masked G flags vs ws) (hv : ∀ v ∈ vs, v ≠ .null → G v) :
    ∀ w ∈ ws, G w := by
  induction h with
  | nil => exact List.forall_mem_nil G
  | present hne _ ih =>
    rw [List.forall_mem_cons] at hv ⊢
    exact ⟨hv.1 hne, ih hv.2⟩
  | null _ hw _ ih =>
    rw [List.forall_mem_cons] at hv ⊢
    exact ⟨hw, ih hv.2⟩

theorem returns (h : Masked G flags vs ws) {inner : Layout} {raw : List Value}
    (hraw : List.Forall₂ (Returns inner) ws raw) (name : String) :
    List.Forall₂ (Returns (.nullable name inner)) vs (maskNulls flags raw) := by
  induction h generalizing raw with
  | nil =>
    cases hraw
    exact .nil
  | present hne _ ih =>
    cases hraw with
    | cons hw hws => exact .cons (returns_present hne hw name) (ih hws)
  | @null flag _ _ _ _ hflag _ _ ih =>
    cases hraw with
    | @cons _ w _ _ _ hws =>
      have masked : (if flag = 0 then w else Value.null) = .null := if_neg hflag
      rw [maskNulls, List.zipWith_cons_cons, masked]
      exact .cons (returns_null name inner) (ih hws)

end Masked

theorem exists_row_string {bs : Bytes} {v : Value} (h : Encodes .string bs v) (hs : v.Storable) :
    ∃ w, Row Reader.Room .string bs w ∧ Returns .string v w := by
  have back {text : Bytes} (hw : write .string v = writeString text)
      (hword : text.length ≤ greatestWord) :
      ∃ w, Row Reader.Room .string bs w ∧ Returns .string v w := by
    obtain ⟨e, happ, hrow⟩ := returns_string hw hword
    obtain rfl := happ.unique (encodes_iff.1 h)
    exact ⟨Value.ofBytes text, hrow, returns_string hw hword⟩
  cases hs with
  | string hword => exact back rfl hword
  | bytes hword => exact back rfl hword
  | _ => cases h

section Reading

variable {swap : Bool} {bs : Bytes} {vs : List Value}

def Agrees (swap : Bool) (l : Layout) (bs : Bytes) (vs : List Value) : Prop :=
  ∃ raw, (readRows swap l vs.length).Yields bs raw ∧ List.Forall₂ (Returns l) vs (native l raw)

theorem exists_rows {l : Layout} {G : Grammar Value} {width : Nat} (render : Bytes → Value)
    (hs : Sequence G bs vs) (hword : bs.length ≤ greatestWord)
    (h : ∀ row, ∀ v ∈ vs, G row v → row.length = width ∧ Returns l v (render row)) :
    ∃ rows, (rowsOf vs.length width).Yields bs rows ∧
      List.Forall₂ (Returns l) vs (rows.map render) := by
  have rendered : Sequence (fun row v => row.length = width ∧ Returns l v (render row)) bs vs :=
    hs.imp fun row v _ hv hG => h row v hv hG
  obtain ⟨rows, hread, hrows⟩ := rowsOf_yields rendered (fun _ _ hrow => hrow.1) hword
  exact ⟨rows, hread, List.forall₂_map_right_iff.2 (hrows.flip.imp fun _ _ hrow => hrow.2)⟩

theorem agrees_number {k : NumberKind} (h : Column swap (.number k) bs vs)
    (hword : bs.length ≤ greatestWord) : Agrees swap (.number k) bs vs := by
  have turned (row : Bytes) : (if swap then row.reverse else row).length = row.length := by
    split
    · exact List.length_reverse
    · rfl
  obtain ⟨rows, hread, hrows⟩ := exists_rows (l := .number k)
    (fun row => .number (Number.ofBytes (if swap then row.reverse else row) k)) h hword
    fun row v _ he => by
      have size := length_of_encodes_number he
      exact ⟨(turned row).symm.trans size, _, encodes_iff.1 he, row_number_iff.2 ⟨size, rfl⟩⟩
  exact ⟨_, hread.map _, hrows⟩

theorem agrees_string (h : Column swap .string bs vs) (hv : ∀ v ∈ vs, v.Storable) :
    Agrees swap .string bs vs := by
  obtain ⟨ws, hrows, hws⟩ := h.exists_other fun part v hmem he => exists_row_string he (hv v hmem)
  exact ⟨ws, (readString_reads.replicate _).complete ⟨hws.length_eq.symm, hrows⟩, hws⟩

theorem agrees_uuid (h : Column swap .uuid bs vs) (hword : bs.length ≤ greatestWord) :
    Agrees swap .uuid bs vs := by
  obtain ⟨rows, hread, hrows⟩ := exists_rows (l := .uuid) (fun row => .uuid (Uuid.ofWire row)) h
    hword fun row v _ he => by
      have size := length_of_encodes_uuid he
      have same : Value.uuid (Uuid.ofWire row) = .uuid (Uuid.ofRow row) := by
        rw [Uuid.ofWire_eq_ofRow size]
      exact ⟨size, row, encodes_iff.1 he, row_uuid_iff.2 ⟨size, same⟩⟩
  exact ⟨_, hread.map _, hrows⟩

theorem agrees_fixedString {name : String} {size : Nat} {form : FixedForm}
    (h : Column swap (.fixedString name size form) bs vs)
    (hv : ∀ v ∈ vs, Exact (.fixedString name size form) v) (hword : bs.length ≤ greatestWord) :
    Agrees swap (.fixedString name size form) bs vs := by
  obtain ⟨rows, hread, hrows⟩ := exists_rows (l := .fixedString name size form) form.render h hword
    fun row v hmem he => by
      have width := hv v hmem row he
      exact ⟨width, row, encodes_iff.1 he, row_fixedString_iff.2 ⟨width, rfl⟩⟩
  refine ⟨_, hread.map _, ?_⟩
  rw [native, List.map_map]
  exact hrows

theorem agrees_nothing (hroom : vs.length ≤ Reader.capacity Value.size) :
    Agrees swap .nothing [] vs := by
  have reserved : (readRows swap .nothing vs.length).Yields []
      (List.replicate vs.length .null) := by
    intro out rest
    rw [readRows, Reader.bind_of_ok (Reader.reserve_eq_ok_iff.2 ⟨hroom, rfl⟩)]
    rfl
  refine ⟨_, reserved, ?_⟩
  change List.Forall₂ _ vs (List.replicate vs.length Value.null)
  rw [← List.map_const', List.forall₂_map_right_iff, List.forall₂_same]
  intro v _
  refine ⟨[], ?_, rfl, rfl⟩
  rw [write]
  exact Writer.appends_skip

theorem agrees_nullable {inner : Layout} {G : Value → Prop} {flags rest : Bytes} {ws : List Value}
    (hmask : Masked G flags vs ws) (h : Agrees swap inner rest ws) (name : String) :
    Agrees swap (.nullable name inner) (flags ++ rest) vs := by
  obtain ⟨raw, hread, hraw⟩ := h
  have taken := Reader.Yields.take flags
  rw [hmask.length_flags] at taken
  rw [hmask.length_rows] at hread
  refine ⟨maskNulls flags raw, taken.bind (hread.map (maskNulls flags)), ?_⟩
  rw [native, native_maskNulls]
  exact hmask.returns hraw name

theorem agrees_array {element : Layout} {totals rest : Bytes} {rows : List (List Value)}
    (htotals : Sequence (Word swap) totals (runningTotals 0 (rows.map List.length)))
    (hword : totals.length ≤ greatestWord)
    (h : Sequence (fun part row => row.length ≤ Reader.capacity Value.size ∧
      Agrees swap element part row) rest rows) (name : String) :
    Agrees swap (.array name element) (totals ++ rest) (rows.map .array) := by
  have counts := words_yields htotals hword
  rw [length_runningTotals, List.length_map] at counts
  obtain ⟨out, hread, hout⟩ := arrayRows_yields
    (R := fun row ws => Returns (.array name element) (.array row) (.array ws))
    (fun n => do return native element (← readRows swap element n)) h
    (fun part row hrow => by
      obtain ⟨hroom, raw, hread, hraw⟩ := hrow
      exact ⟨native element raw, hread.map (native element), returns_array hraw hroom name⟩)
    name 0 0
  refine ⟨out.map .array, ?_, ?_⟩
  · rw [List.length_map]
    exact counts.bind hread
  · change List.Forall₂ _ (rows.map Value.array) (out.map Value.array)
    rw [List.forall₂_map_left_iff, List.forall₂_map_right_iff]
    exact hout

theorem Column.agrees {l : Layout} (h : Column swap l bs vs) (hv : ∀ v ∈ vs, Accepts l v)
    (hroom : vs.length ≤ Reader.capacity Value.size) (hword : bs.length ≤ greatestWord) :
    Agrees swap l bs vs := by
  induction l generalizing bs vs with
  | number k => exact agrees_number h hword
  | string => exact agrees_string h fun v hmem => (hv v hmem).storable
  | uuid => exact agrees_uuid h hword
  | fixedString name size form => exact agrees_fixedString h (fun v hmem => (hv v hmem).exact) hword
  | nothing =>
    obtain rfl : bs = [] := h
    exact agrees_nothing hroom
  | nullable name inner ih =>
    obtain ⟨flags, rest, ws, rfl, hmask, hrest⟩ := h
    rw [List.length_append] at hword
    rw [← hmask.length_rows] at hroom
    -- a placeholder is acceptable by itself, any other row because its value is
    have accepted := hmask.forall_rows fun v hmem hne => (hv v hmem).present hne
    exact agrees_nullable hmask (ih hrest accepted hroom (by omega)) name
  | array name element ih =>
    obtain ⟨totals, rest, rows, rfl, rfl, htotals, hrest⟩ := h
    rw [List.length_append] at hword
    refine agrees_array htotals (by omega) (hrest.imp fun part row hpart hmem hrow => ?_) name
    have accepted := hv (.array row) (List.mem_map_of_mem hmem)
    cases accepted.storable with
    | array hroom _ =>
      exact ⟨hroom, ih hrow (fun v hv => accepted.of_mem hv) hroom (by omega)⟩
  | tuple => exact h.elim
  | map => exact h.elim
  | aggregateState => exact h.elim
  | simpleAggregate => exact h.elim

/-- A column that memory holds is read to what its values, each written as a row, are read to, and
up to its end. -/
theorem readColumn_eq_rows {l : Layout} (h : Column swap l bs vs) (hv : ∀ v ∈ vs, Accepts l v)
    (hroom : vs.length ≤ Reader.capacity Value.size) (hword : bs.length ≤ greatestWord) :
    ∃ ws, List.Forall₂ (fun v w => ∃ row, l.write v [] = (.ok (), row) ∧
        l.read row 0 = .ok (w, row.length)) vs ws ∧
      ∀ out rest, l.readColumn swap vs.length (out ++ bs ++ rest) out.length =
        .ok (ws, out.length + bs.length) := by
  obtain ⟨raw, hread, hraw⟩ := h.agrees hv hroom hword
  refine ⟨native l raw, hraw.imp ?_, hread.map (native l)⟩
  rintro v w ⟨row, happ, hrow⟩
  have back := (read_reads l).complete hrow [] []
  rw [List.nil_append, List.append_nil, List.length_nil, Nat.zero_add] at back
  exact ⟨row, encodes_iff.2 happ, back⟩

theorem readColumn_masked_arrays :
    let leaf : Layout := .fixedString "FixedString(2)" 2 (.decode .utf8 .hex)
    let l : Layout := .nullable "Nullable(Array(Nullable(FixedString(2))))"
      (.array "Array(Nullable(FixedString(2)))" (.nullable "Nullable(FixedString(2))" leaf))
    let vs : List Value := [.array [.string "é", .null], .null]
    let bs : Bytes := [0, 3] ++ ([0, 0, 0, 0, 0, 0, 0, 2, 0, 0, 0, 0, 0, 0, 0, 3] ++
      [0, 1, 0xc3, 0xa9, 0x61, 0x62, 0, 0xff, 0xfe])
    Column true l bs vs ∧ (∀ v ∈ vs, Accepts l v) ∧ vs.length ≤ Reader.capacity Value.size ∧
      bs.length ≤ greatestWord ∧
      ∃ ws, List.Forall₂ (fun v w => ∃ row, l.write v [] = (.ok (), row) ∧
          l.read row 0 = .ok (w, row.length)) vs ws ∧
        ∀ out rest, l.readColumn true vs.length (out ++ bs ++ rest) out.length =
          .ok (ws, out.length + bs.length) := by
  intro leaf l vs bs
  have text : Accepts leaf (.string "é") :=
    ⟨.string (by decide), ⟨_, rfl⟩, fun e he => by cases he; rfl⟩
  have bytes (e : Bytes) (h : e.length = 2) : Accepts leaf (.bytes e) :=
    ⟨.bytes (by rw [h]; decide), ⟨e, rfl⟩, fun e' he => by cases he; exact h⟩
  have first : Column true (.nullable "Nullable(FixedString(2))" leaf)
      [0, 1, 0xc3, 0xa9, 0x61, 0x62] [.string "é", .null] :=
    ⟨[0, 1], [0xc3, 0xa9, 0x61, 0x62], [.string "é", .bytes [0x61, 0x62]], rfl,
      .present (by simp) (.null (by decide) (bytes _ rfl) .nil),
      sequence_iff_parts.2 ⟨[[0xc3, 0xa9], [0x61, 0x62]], rfl, .cons rfl (.cons rfl .nil)⟩⟩
  have second : Column true (.nullable "Nullable(FixedString(2))" leaf)
      [0, 0xff, 0xfe] [.bytes [0xff, 0xfe]] :=
    ⟨[0], [0xff, 0xfe], [.bytes [0xff, 0xfe]], rfl, .present (by simp) .nil,
      sequence_iff_parts.2 ⟨[[0xff, 0xfe]], rfl, .cons rfl .nil⟩⟩
  have placeholder : Accepts (.array "Array(Nullable(FixedString(2)))"
      (.nullable "Nullable(FixedString(2))" leaf)) (.array [.bytes [0xff, 0xfe]]) :=
    ⟨.array (by decide) (by simpa using (bytes [0xff, 0xfe] rfl).storable), ⟨_, rfl⟩,
      by
        intro v hv
        obtain rfl := List.mem_singleton.1 hv
        exact .inr (bytes _ rfl).exact⟩
  have column : Column true l bs vs :=
    ⟨[0, 3], _, [.array [.string "é", .null], .array [.bytes [0xff, 0xfe]]], rfl,
      .present (by simp) (.null (by decide) placeholder .nil),
      [0, 0, 0, 0, 0, 0, 0, 2, 0, 0, 0, 0, 0, 0, 0, 3], _,
      [[.string "é", .null], [.bytes [0xff, 0xfe]]], rfl, rfl,
      sequence_iff_parts.2 ⟨[[0, 0, 0, 0, 0, 0, 0, 2], [0, 0, 0, 0, 0, 0, 0, 3]], rfl,
        .cons ⟨rfl, rfl⟩ (.cons ⟨rfl, rfl⟩ .nil)⟩,
      sequence_iff_parts.2 ⟨[[0, 1, 0xc3, 0xa9, 0x61, 0x62], [0, 0xff, 0xfe]], rfl,
        .cons first (.cons second .nil)⟩⟩
  have accepted : ∀ v ∈ vs, Accepts l v := by
    simp only [vs, List.forall_mem_cons]
    refine ⟨⟨.array (by decide) ?_, ⟨_, rfl⟩, .inr ?_⟩, ⟨.null, ⟨_, rfl⟩, .inl rfl⟩, by simp⟩
    · simpa using ⟨text.storable, .null⟩
    · simp only [Exact, List.forall_mem_cons]
      exact ⟨.inr text.exact, .inl trivial, by simp⟩
  exact ⟨column, accepted, by decide, by decide,
    readColumn_eq_rows column accepted (by decide) (by decide)⟩

end Reading

end TypedColumn.Layout
