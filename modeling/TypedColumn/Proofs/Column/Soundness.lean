import TypedColumn.Proofs.Row.Canonical
import TypedColumn.Proofs.Truncation

namespace TypedColumn

open Grammar (Sequence)

namespace Layout

variable {swap : Bool}

/-- The values that are handed out for the rows of a column. -/
inductive Cell : Layout → Value → Prop
  | number (n : Number) : Cell (.number n.kind) (.number n)
  | string (bs : Bytes) : Cell .string (Value.ofBytes bs)
  | uuid (u : Uuid) : Cell .uuid (.uuid u)
  | fixedString (name : String) (bs : Bytes) (form : FixedForm) :
      Cell (.fixedString name bs.length form) (form.render bs)
  | nothing : Cell .nothing .null
  | null (name : String) (inner : Layout) : Cell (.nullable name inner) .null
  | present {inner : Layout} {v : Value} (name : String) : Cell inner v →
      Cell (.nullable name inner) v
  | array {element : Layout} {vs : List Value} (name : String) : (∀ v ∈ vs, Cell element v) →
      Cell (.array name element) (.array vs)

theorem FixedRows.forall {P : Value → Prop} {n width : Nat} {f : Bytes → Value} {bs : Bytes}
    {vs : List Value} (h : FixedRows n width f bs vs)
    (hf : ∀ part : Bytes, part.length = width → P (f part)) : ∀ v ∈ vs, P v := by
  obtain ⟨parts, -, hparts, -, -, rfl⟩ := h
  rw [List.forall_mem_map]
  exact fun part hpart => hf part (hparts part hpart)

theorem forall_maskNulls {P : Value → Prop} (null : P .null) {vs : List Value}
    (h : ∀ v ∈ vs, P v) (flags : Bytes) : ∀ v ∈ maskNulls flags vs, P v := by
  induction vs generalizing flags with
  | nil => exact List.forall_mem_nil P
  | cons v vs ih =>
    rw [List.forall_mem_cons] at h
    cases flags with
    | nil => exact List.forall_mem_nil P
    | cons flag flags =>
      rw [maskNulls, List.zipWith_cons_cons, List.forall_mem_cons]
      refine ⟨?_, ih h.2 flags⟩
      split
      · exact h.1
      · exact null

theorem Stored.cells {l : Layout} {n : Nat} {bs : Bytes} {vs : List Value}
    (h : Stored swap l n bs vs) : ∀ v ∈ vs, Cell l v := by
  induction l generalizing n bs vs with
  | number k =>
    refine FixedRows.forall h fun part _ => ?_
    have cell := Cell.number (Number.ofBytes (if swap then part.reverse else part) k)
    rwa [Number.kind_ofBytes] at cell
  | string =>
    intro v hv
    obtain ⟨part, -, hrow⟩ := h.2.exists_of_mem hv
    obtain ⟨count, text, -, -, rfl⟩ := row_string_iff.1 hrow
    exact .string text
  | uuid => exact FixedRows.forall h fun part _ => .uuid (Uuid.ofWire part)
  | fixedString name size form =>
    refine FixedRows.forall h fun part hpart => ?_
    rw [← hpart]
    exact .fixedString name part form
  | nothing =>
    obtain ⟨-, -, rfl⟩ := h
    intro v hv
    rw [List.eq_of_mem_replicate hv]
    exact .nothing
  | nullable name inner ih =>
    obtain ⟨flags, rest, ws, -, -, hrest, rfl⟩ := h
    exact forall_maskNulls (.null name inner) (fun v hv => .present name (ih hrest v hv)) flags
  | array name element ih =>
    obtain ⟨totals, rest, rows, -, -, -, -, hrest, rfl⟩ := h
    rw [List.forall_mem_map]
    intro row hrow
    obtain ⟨part, -, hpart⟩ := hrest.exists_of_mem hrow
    exact .array name (ih hpart)
  | tuple => exact h.elim
  | map => exact h.elim
  | aggregateState => exact h.elim
  | simpleAggregate => exact h.elim

theorem exists_appends_render (name : String) (form : FixedForm) (bs : Bytes) :
    ∃ e, (writeFixed name form (form.render bs)).Appends e := by
  cases form with
  | raw => exact ⟨bs, appends_writeFixed_bytes name .raw bs⟩
  | hex => exact ⟨_, Writer.appends_append (Text.toUtf8 bs.hex)⟩
  | decode encoding fallback =>
    cases hd : encoding.decode? bs with
    | some text =>
      rw [FixedForm.render_decode hd]
      exact ⟨bs, appends_writeFixed_text (TextEncoding.encode?_eq_some_iff.2 hd) name fallback⟩
    | none =>
      rw [FixedForm.render, hd]
      cases fallback with
      | raw => exact ⟨bs, appends_writeFixed_bytes name _ bs⟩
      | hex =>
        -- only UTF-8 has bytes that it does not decode, and it holds every text
        cases encoding with
        | utf8 => exact ⟨_, Writer.appends_append (Text.toUtf8 bs.hex)⟩
        | latin1 => cases hd

theorem Cell.exists_appends {l : Layout} {v : Value} (h : Cell l v) :
    ∃ e, (write l v).Appends e := by
  induction h with
  | number n =>
    refine ⟨n.toBytes, ?_⟩
    rw [write, if_pos rfl]
    exact Writer.appends_append _
  | string bs =>
    rw [Value.ofBytes]
    cases Text.ofUtf8? bs with
    | none => exact ⟨_, appends_writeString bs⟩
    | some text => exact ⟨_, appends_writeString (Text.toUtf8 text)⟩
  | uuid u => exact ⟨u.toWire, Writer.appends_append _⟩
  | fixedString name bs form =>
    rw [write]
    exact exists_appends_render name form bs
  | nothing => exact ⟨[], Writer.appends_skip⟩
  | null name inner => exact ⟨[1], Writer.appends_append [1]⟩
  | @present inner v name _ ih =>
    by_cases hv : v = .null
    · subst hv
      exact ⟨[1], Writer.appends_append [1]⟩
    · obtain ⟨e, he⟩ := ih
      rw [write_nullable hv]
      exact ⟨[0] ++ e, (Writer.appends_append [0]).andThen he⟩
  | @array element vs name _ ih =>
    have each (v : Value) (hv : v ∈ vs) :
        ∃ e, (write element v).Appends e ∧ (write element v).Appends e := by
      obtain ⟨e, he⟩ := ih v hv
      exact ⟨e, he, he⟩
    obtain ⟨e, hs, -⟩ := Grammar.exists_sequence (List.forall₂_same.2 each)
    exact ⟨_, (Writer.appends_append _).andThen (Writer.appends_forEach hs)⟩

theorem Cell.domain {l : Layout} {v : Value} (h : Cell l v) (hl : l.Lossless) : l.Domain v := by
  induction h with
  | number n => exact .number n
  | string bs => exact domain_ofBytes bs
  | uuid u => exact .uuid u
  | fixedString name bs form =>
    cases hl with
    | fixedString hform => exact domain_render hform name bs
  | nothing => exact .nothing
  | null name inner => exact .null
  | @present inner v name _ ih =>
    cases hl with
    | nullable hl =>
      by_cases hv : v = .null
      · subst hv
        exact .null
      · exact .present hv (ih hl)
  | array name _ ih =>
    cases hl with
    | array hl => exact .array fun v hv => ih v hv hl

def Sized : Layout → Prop
  | .fixedString _ size _ => 0 < size
  | .nullable _ inner => Sized inner
  | .array _ element => Sized element
  | _ => True

theorem FixedRows.length_bytes {n width : Nat} {f : Bytes → Value} {bs : Bytes} {vs : List Value}
    (h : FixedRows n width f bs vs) : bs.length = n * width := by
  obtain ⟨parts, rfl, hparts, -, rfl, -⟩ := h
  exact Bytes.length_flatten hparts

theorem Stored.count_le {l : Layout} {n : Nat} {bs : Bytes} {vs : List Value}
    (h : Stored swap l n bs vs) (hl : l.Sized) (hbs : bs.length ≤ Reader.capacity Value.size) :
    n ≤ Reader.capacity Value.size := by
  have of_rows {width : Nat} {f : Bytes → Value} (hwidth : 0 < width)
      (h : FixedRows n width f bs vs) : n ≤ Reader.capacity Value.size := by
    rw [h.length_bytes] at hbs
    exact Nat.le_trans (Nat.le_mul_of_pos_right n hwidth) hbs
  cases l with
  | number k => exact of_rows k.width_pos h
  | string =>
    have size := h.2.length_mul_le fun _ _ => minWidth_le .string
    rw [h.1, minWidth] at size
    omega
  | uuid => exact of_rows (by decide) h
  | fixedString name size form => exact of_rows hl h
  | nothing => exact h.1
  | nullable name inner =>
    obtain ⟨flags, rest, ws, rfl, rfl, -, -⟩ := h
    rw [List.length_append] at hbs
    omega
  | array name element =>
    obtain ⟨totals, rest, rows, rfl, rfl, -, htotals, -, -⟩ := h
    have size := htotals.length_mul_le fun _ _ h => Nat.le_of_eq h.1.symm
    rw [length_runningTotals, List.length_map] at size
    rw [List.length_append] at hbs
    omega
  | tuple => exact h.elim
  | map => exact h.elim
  | aggregateState => exact h.elim
  | simpleAggregate => exact h.elim

theorem storable_ofBytes {bs : Bytes} (h : bs.length ≤ greatestWord) :
    (Value.ofBytes bs).Storable := by
  rw [Value.ofBytes]
  cases htext : Text.ofUtf8? bs with
  | none => exact .bytes h
  | some text =>
    rw [← Text.ofUtf8?_eq_some htext] at h
    exact .string h

theorem storable_render (form : FixedForm) {bs : Bytes} (h : 2 * bs.length ≤ greatestWord) :
    (form.render bs).Storable := by
  have hbs : bs.length ≤ greatestWord := by omega
  have hex : Value.Storable (.string bs.hex) := .string (Text.length_toUtf8_hex bs ▸ h)
  cases form with
  | raw => exact .bytes hbs
  | hex => exact hex
  | decode encoding fallback =>
    cases encoding with
    | latin1 => exact .string (Nat.le_trans (Text.length_toUtf8_ofLatin1_le bs) h)
    | utf8 =>
      rw [FixedForm.render]
      cases htext : TextEncoding.utf8.decode? bs with
      | some text =>
        rw [← Text.ofUtf8?_eq_some htext] at hbs
        exact .string hbs
      | none =>
        cases fallback with
        | raw => exact .bytes hbs
        | hex => exact hex

theorem Stored.storable {l : Layout} {n : Nat} {bs : Bytes} {vs : List Value}
    (h : Stored swap l n bs vs) (hl : l.Sized) (hbs : bs.length ≤ Reader.capacity Value.size) :
    ∀ v ∈ vs, v.Storable := by
  induction l generalizing n bs vs with
  | number k => exact FixedRows.forall h fun _ _ => .number _
  | string =>
    intro v hv
    obtain ⟨part, -, hrow⟩ := h.2.exists_of_mem hv
    obtain ⟨count, text, -, hcount, rfl⟩ := row_string_iff.1 hrow
    exact storable_ofBytes hcount.le
  | uuid => exact FixedRows.forall h fun _ _ => .uuid _
  | fixedString name size form =>
    intro v hv
    have some_row : 1 * size ≤ n * size :=
      Nat.mul_le_mul_right size (h.length_eq ▸ List.length_pos_of_mem hv)
    have width : size ≤ Reader.capacity Value.size := by
      rw [FixedRows.length_bytes h] at hbs
      omega
    have double : 2 * Reader.capacity Value.size ≤ greatestWord := by decide
    exact FixedRows.forall h (fun part hpart => storable_render form (by omega)) v hv
  | nothing =>
    obtain ⟨-, -, rfl⟩ := h
    intro v hv
    rw [List.eq_of_mem_replicate hv]
    exact .null
  | nullable name inner ih =>
    obtain ⟨flags, rest, ws, rfl, -, hrest, rfl⟩ := h
    rw [List.length_append] at hbs
    exact forall_maskNulls .null (ih hrest hl (by omega)) flags
  | array name element ih =>
    obtain ⟨totals, rest, rows, rfl, -, -, -, hrest, rfl⟩ := h
    rw [List.length_append] at hbs
    rw [List.forall_mem_map]
    intro row hrow
    obtain ⟨part, hle, hpart⟩ := hrest.exists_of_mem hrow
    have hroom : part.length ≤ Reader.capacity Value.size := by omega
    exact .array (hpart.count_le hl hroom) (ih hpart hl hroom)
  | tuple => exact h.elim
  | map => exact h.elim
  | aggregateState => exact h.elim
  | simpleAggregate => exact h.elim

end Layout

def Reader.Refuses {α : Type} (r : Reader α) : Prop := ∀ buf pos, ∃ f : Fault,
  (f.IsUnderrun ∨ ∃ name, f = .unsupported name .readColumn) ∧ r buf pos = .error f

namespace Reader

variable {α β : Type}

theorem take_error {n : Nat} {buf : Bytes} {pos : Nat} {f : Fault}
    (h : take n buf pos = .error f) : f.IsUnderrun := by
  rw [take] at h
  split at h
  · cases h
  · cases h
    exact ⟨_, _, _, rfl⟩

theorem words_error {n : Nat} {swap : Bool} {buf : Bytes} {pos : Nat} {f : Fault}
    (h : words n swap buf pos = .error f) : f.IsUnderrun := by
  rw [words, bind_apply] at h
  cases hrows : takeRows n 8 buf pos with
  | ok x =>
    rw [hrows] at h
    cases h
  | error e =>
    rw [hrows] at h
    cases h
    rw [takeRows] at hrows
    split at hrows
    · exact take_error hrows
    · cases hrows
      exact ⟨_, _, _, rfl⟩

theorem refuses_unsupported (name : String) :
    (fail (.unsupported name .readColumn) : Reader α).Refuses :=
  fun _ _ => ⟨_, .inr ⟨name, rfl⟩, rfl⟩

theorem Refuses.bind_left {r : Reader α} (h : r.Refuses) (f : α → Reader β) :
    (r >>= f).Refuses := by
  intro buf pos
  obtain ⟨e, he, hr⟩ := h buf pos
  exact ⟨e, he, bind_of_error hr f⟩

theorem refuses_bind {r : Reader α} {f : α → Reader β}
    (he : ∀ {buf pos e}, r buf pos = .error e → e.IsUnderrun)
    (hf : ∀ {buf pos a next}, r buf pos = .ok (a, next) → (f a).Refuses) :
    (r >>= f).Refuses := by
  intro buf pos
  cases hr : r buf pos with
  | error e => exact ⟨e, .inl (he hr), bind_of_error hr f⟩
  | ok x =>
    obtain ⟨e, hfail, hfe⟩ := hf hr buf x.2
    exact ⟨e, hfail, (bind_of_ok hr f).trans hfe⟩

end Reader

namespace Layout

variable {swap : Bool}

def arraysAbove? : Layout → Option Nat
  | .tuple _ _ => some 0
  | .map _ _ _ => some 0
  | .aggregateState _ => some 0
  | .simpleAggregate _ _ => some 0
  | .nullable _ inner => arraysAbove? inner
  | .array _ element => (arraysAbove? element).map (· + 1)
  | _ => none

theorem readColumn_refuses {l : Layout} {depth rows : Nat} (h : l.arraysAbove? = some depth)
    (hdepth : depth = 0 ∨ depth = 1 ∧ 1 ≤ rows) : (readColumn swap l rows).Refuses := by
  induction l generalizing depth rows with
  | nullable name inner ih =>
    rw [readColumn_nullable]
    exact Reader.refuses_bind Reader.take_error fun _ => (ih h hdepth).bind_left _
  | array name element ih =>
    obtain ⟨depth, helement, rfl⟩ := Option.map_eq_some_iff.1 h
    rw [readColumn_array]
    refine Reader.refuses_bind Reader.words_error fun {buf pos totals next} hwords => ?_
    obtain ⟨-, -, -, -, hlen, -, -⟩ := (words_reads rows swap).sound hwords
    -- only an array without rows does not ask for its elements
    cases totals with
    | nil =>
      rw [List.length_nil] at hlen
      omega
    | cons total totals =>
      rw [arrayRows, if_neg (Nat.not_lt_zero total)]
      exact (ih helement (.inl (by omega))).bind_left _
  | tuple name elements => exact (Reader.refuses_unsupported name).bind_left _
  | map name key value => exact (Reader.refuses_unsupported name).bind_left _
  | aggregateState name => exact (Reader.refuses_unsupported name).bind_left _
  | simpleAggregate name inner => exact (Reader.refuses_unsupported name).bind_left _
  | _ => cases h

/-- A column that can be read has its rows, each a value that is written as a row and, where nothing
is lost and memory can hold it, read back; values from a buffer that is itself held can be held, too.
A column whose part without a column is reached cannot be read. -/
theorem readColumn_sound (swap : Bool) (l : Layout) (rows : Nat) {buf : Bytes} {pos : Nat}
    (hpos : pos ≤ buf.length) :
    (∀ vs next, l.readColumn swap rows buf pos = .ok (vs, next) →
      vs.length = rows ∧ pos ≤ next ∧ next ≤ buf.length ∧
        (∀ v ∈ vs, ∃ e, l.write v [] = (.ok (), e)) ∧
        (l.Lossless → ∀ v ∈ vs, v.Storable →
          ∃ e, l.write v [] = (.ok (), e) ∧ l.read e 0 = .ok (v, e.length)) ∧
        (l.Sized → buf.length ≤ Reader.capacity Value.size → ∀ v ∈ vs, v.Storable)) ∧
      ∀ depth, l.arraysAbove? = some depth → depth ≤ 1 → 1 ≤ rows →
        ∃ f, l.readColumn swap rows buf pos = .error f ∧
          (f.report.code = "CODEC_002" ∨ f.report.code = "CODEC_003") := by
  constructor
  · intro vs next h
    obtain ⟨hle, hnext, hstored⟩ := ((readColumn_reads swap l rows).eq_ok_iff hpos).1 h
    refine ⟨hstored.length_eq, hle, hnext, ?_, ?_, fun hl hroom => ?_⟩
    · intro v hv
      obtain ⟨e, he⟩ := (hstored.cells v hv).exists_appends
      exact ⟨e, he []⟩
    · intro hl v hv hs
      obtain ⟨e, hw, hrow⟩ := ((hstored.cells v hv).domain hl).returns hs
      have back := (read_reads l).complete hrow [] []
      rw [List.nil_append, List.append_nil, List.length_nil, Nat.zero_add] at back
      exact ⟨e, hw [], back⟩
    · exact hstored.storable hl (Nat.le_trans (length_extract_le buf pos next) hroom)
  · intro depth hdepth hle hrows
    have reached : depth = 0 ∨ depth = 1 ∧ 1 ≤ rows := by omega
    have refuses : (readColumn swap l rows).Refuses := readColumn_refuses hdepth reached
    obtain ⟨f, hf, h⟩ := refuses buf pos
    refine ⟨f, h, ?_⟩
    rcases hf with ⟨position, needed, available, rfl⟩ | ⟨name, rfl⟩
    · exact .inr rfl
    · exact .inl rfl

theorem readColumn_sound_odd_flag_zero_totals :
    let l : Layout := .array "Array(Nullable(FixedString(2)))" (.nullable "Nullable(FixedString(2))"
      (.fixedString "FixedString(2)" 2 (.decode .utf8 .raw)))
    let buf : Bytes := [9, 0, 0, 0, 0, 0, 0, 0, 0, 2, 0, 0, 0, 0, 0, 0, 0,
      0, 7, 0xff, 0xfe, 0xc3, 0xa9]
    let vs : List Value := [.array [], .array [.bytes [0xff, 0xfe], .null]]
    let blocked : Layout := .array "Array(Nullable(Tuple(UInt8)))" (.nullable "Nullable(Tuple(UInt8))"
      (.tuple "Tuple(UInt8)" [.number (.uint .w8)]))
    1 ≤ buf.length ∧ (l.readColumn false 2 buf 1 = .ok (vs, 23) ∧ vs.length = 2 ∧ 1 ≤ 23 ∧
      23 ≤ buf.length ∧ (∀ v ∈ vs, ∃ e, l.write v [] = (.ok (), e)) ∧
      l.Lossless ∧ l.Sized ∧ buf.length ≤ Reader.capacity Value.size ∧ (∀ v ∈ vs, v.Storable) ∧
      ∀ v ∈ vs, ∃ e, l.write v [] = (.ok (), e) ∧ l.read e 0 = .ok (v, e.length)) ∧
      blocked.arraysAbove? = some 1 ∧ ∃ f, blocked.readColumn false 1 buf 1 = .error f ∧
        (f.report.code = "CODEC_002" ∨ f.report.code = "CODEC_003") := by
  intro l buf vs blocked
  have here : 1 ≤ buf.length := by decide
  have room : buf.length ≤ Reader.capacity Value.size := by decide
  have read : l.readColumn false 2 buf 1 = .ok (vs, 23) := by
    simp only [l, buf, vs]
    rfl
  have lossless : l.Lossless := .array (.nullable (.fixedString .utf8))
  have sized : l.Sized := Nat.zero_lt_two
  obtain ⟨hlen, hle, hnext, hwrite, hback, hheld⟩ := (readColumn_sound false l 2 here).1 vs 23 read
  have held := hheld sized room
  exact ⟨here, ⟨read, hlen, hle, hnext, hwrite, lossless, sized, room, held,
    fun v hv => hback lossless v hv (held v hv)⟩, rfl,
    (readColumn_sound false blocked 1 here).2 1 rfl (by decide) (by decide)⟩

end Layout

end TypedColumn
