import TypedColumn.Proofs.FixedForm
import TypedColumn.Proofs.Pairs
import TypedColumn.Proofs.Row.Grammar

namespace TypedColumn

open Grammar (Sequence Pair Counted)

/-- Values that memory can hold: their bytes can be counted, and so can their members. -/
inductive Value.Storable : Value → Prop
  | null : Storable .null
  | number (n : Number) : Storable (.number n)
  | string {text : String} : (Text.toUtf8 text).length ≤ greatestWord → Storable (.string text)
  | bytes {bs : Bytes} : bs.length ≤ greatestWord → Storable (.bytes bs)
  | uuid (u : Uuid) : Storable (.uuid u)
  | array {vs : List Value} : vs.length ≤ Reader.capacity Value.size → (∀ v ∈ vs, Storable v) →
      Storable (.array vs)
  | tuple {vs : List Value} : (∀ v ∈ vs, Storable v) → Storable (.tuple vs)
  | map {ps : Pairs} : ps.length ≤ Reader.capacity Pairs.entrySize →
      (∀ p ∈ ps, Storable p.1) → (∀ p ∈ ps, Storable p.2) → Storable (.map ps)

namespace Layout

/-- The values that a layout gives back as they were. -/
inductive Domain : Layout → Value → Prop
  | number (n : Number) : Domain (.number n.kind) (.number n)
  | string (text : String) : Domain .string (.string text)
  | binary {bs : Bytes} : Text.ofUtf8? bs = none → Domain .string (.bytes bs)
  | uuid (u : Uuid) : Domain .uuid (.uuid u)
  | fixedRaw {name : String} {bs : Bytes} : Domain (.fixedString name bs.length .raw) (.bytes bs)
  | fixedText {name : String} {e : TextEncoding} {fallback : Fallback} {text : String} {bs : Bytes} :
      e.encode? text = some bs →
      Domain (.fixedString name bs.length (.decode e fallback)) (.string text)
  | fixedBinary {name : String} {bs : Bytes} : Text.ofUtf8? bs = none →
      Domain (.fixedString name bs.length (.decode .utf8 .raw)) (.bytes bs)
  | nothing : Domain .nothing .null
  | null {name : String} {inner : Layout} : Domain (.nullable name inner) .null
  | present {name : String} {inner : Layout} {v : Value} : v ≠ .null → Domain inner v →
      Domain (.nullable name inner) v
  | array {name : String} {element : Layout} {vs : List Value} : (∀ v ∈ vs, Domain element v) →
      Domain (.array name element) (.array vs)
  | tuple {name : String} {elements : List Layout} {vs : List Value} :
      List.Forall₂ Domain elements vs → Domain (.tuple name elements) (.tuple vs)
  | map {name : String} {key value : Layout} {ps : Pairs} : ps.Distinct →
      (∀ p ∈ ps, Domain key p.1) → (∀ p ∈ ps, Domain value p.2) →
      Domain (.map name key value) (.map ps)
  | simpleAggregate {name : String} {inner : Layout} {v : Value} : Domain inner v →
      Domain (.simpleAggregate name inner) v

theorem write_nullable {v : Value} (h : v ≠ .null) (name : String) (inner : Layout) :
    write (.nullable name inner) v = (Writer.append [0]).andThen (write inner v) := by
  rw [write]
  exact h

theorem appends_writeString (bs : Bytes) :
    (writeString bs).Appends (CountPrefix.toBytes bs.length ++ bs) :=
  (Writer.appends_append _).andThen (Writer.appends_append bs)

def Returns (l : Layout) (v w : Value) : Prop :=
  ∃ bs, (write l v).Appends bs ∧ Row Reader.Room l bs w

theorem returns_string {bs : Bytes} {v : Value} (hw : write .string v = writeString bs)
    (hs : bs.length ≤ greatestWord) : Returns .string v (Value.ofBytes bs) := by
  refine ⟨CountPrefix.toBytes bs.length ++ bs, ?_, row_string_iff.2
    ⟨CountPrefix.toBytes bs.length, bs, rfl, CountPrefix.spells_toBytes hs, rfl⟩⟩
  rw [hw]
  exact appends_writeString bs

theorem returns_fixed {name : String} {form : FixedForm} {bs : Bytes} {v : Value}
    (hw : (writeFixed name form v).Appends bs) :
    Returns (.fixedString name bs.length form) v (form.render bs) :=
  ⟨bs, by rwa [write], row_fixedString_iff.2 ⟨rfl, rfl⟩⟩

theorem exists_counted {α β : Type} {w : α → Writer} {G : Grammar β} {as : List α} {bs : List β}
    {size : Nat} (h : List.Forall₂ (fun a b => ∃ e, (w a).Appends e ∧ G e b) as bs)
    (hroom : as.length ≤ Reader.capacity size) :
    ∃ e, ((CountPrefix.write as.length).andThen (Writer.forEach w as)).Appends e ∧
      Counted (Reader.Room size) G e bs := by
  obtain ⟨e, hs, hs'⟩ := Grammar.exists_sequence h
  have word : as.length ≤ greatestWord :=
    Nat.le_trans hroom (Reader.capacity_le_greatestWord size)
  have count := CountPrefix.spells_toBytes word
  refine ⟨CountPrefix.toBytes as.length ++ e,
    (Writer.appends_append _).andThen (Writer.appends_forEach hs), ?_⟩
  rw [h.length_eq] at count hroom ⊢
  exact .mk count hroom hs'

theorem returns_array {element : Layout} {vs ws : List Value}
    (h : List.Forall₂ (Returns element) vs ws) (hroom : vs.length ≤ Reader.capacity Value.size)
    (name : String) : Returns (.array name element) (.array vs) (.array ws) := by
  obtain ⟨e, hw, hrow⟩ := exists_counted h hroom
  exact ⟨e, hw, ws, hrow, rfl⟩

theorem returns_null (name : String) (inner : Layout) :
    Returns (.nullable name inner) .null .null :=
  ⟨[1], Writer.appends_append [1], .inl ⟨1, by decide, rfl, rfl⟩⟩

theorem returns_present {inner : Layout} {v w : Value} (hv : v ≠ .null) (h : Returns inner v w)
    (name : String) : Returns (.nullable name inner) v w := by
  obtain ⟨bs, hw, hrow⟩ := h
  refine ⟨0 :: bs, ?_, .inr ⟨bs, rfl, hrow⟩⟩
  rw [write_nullable hv]
  exact (Writer.appends_append [0]).andThen hw

theorem exists_rowEach {ls : List Layout} {vs : List Value} (h : List.Forall₂ Domain ls vs)
    (ih : ∀ l ∈ ls, ∀ {v}, l.Domain v → v.Storable → Returns l v v) (hs : ∀ v ∈ vs, v.Storable) :
    ∃ bs, (writeEach ls vs).Appends bs ∧ RowEach Reader.Room ls bs vs := by
  induction h with
  | nil => exact ⟨[], Writer.appends_skip, rfl, rfl⟩
  | @cons l v ls vs hv _ ihs =>
    rw [List.forall_mem_cons] at ih hs
    obtain ⟨bs, hw, hrow⟩ := ih.1 hv hs.1
    obtain ⟨bs', hw', hrow'⟩ := ihs ih.2 hs.2
    refine ⟨bs ++ bs', ?_, bs, bs', v, vs, rfl, rfl, hrow, hrow'⟩
    rw [writeEach]
    exact hw.andThen hw'

theorem Domain.returns {l : Layout} {v : Value} (h : l.Domain v) (hs : v.Storable) :
    Returns l v v := by
  induction l generalizing v with
  | number k =>
    cases h with
    | number n =>
      refine ⟨n.toBytes, ?_, row_number_iff.2 ⟨n.length_toBytes, by rw [Number.ofBytes_toBytes]⟩⟩
      rw [write, if_pos rfl]
      exact Writer.appends_append _
  | string =>
    cases h with
    | string text =>
      cases hs with
      | string hs =>
        have back := returns_string (v := .string text) rfl hs
        rwa [Value.ofBytes, Text.ofUtf8?_toUtf8] at back
    | @binary bs hbs =>
      cases hs with
      | bytes hs =>
        have back := returns_string (v := .bytes bs) rfl hs
        rwa [Value.ofBytes, hbs] at back
  | uuid =>
    cases h with
    | uuid u =>
      refine ⟨u.toWire, Writer.appends_append _, row_uuid_iff.2 ⟨u.length_toWire, ?_⟩⟩
      rw [Uuid.ofRow_toWire]
  | fixedString name size form =>
    cases h with
    | fixedRaw => exact returns_fixed (appends_writeFixed_bytes name .raw _)
    | @fixedText _ e fallback text bs hb =>
      have back := returns_fixed (appends_writeFixed_text hb name fallback)
      rwa [FixedForm.render_decode (TextEncoding.encode?_eq_some_iff.1 hb)] at back
    | @fixedBinary _ bs hb =>
      have back := returns_fixed (appends_writeFixed_bytes name (.decode .utf8 .raw) bs)
      rwa [FixedForm.render, TextEncoding.decode?, hb] at back
  | nothing =>
    cases h with
    | nothing => exact ⟨[], Writer.appends_skip, rfl, rfl⟩
  | nullable name inner ih =>
    cases h with
    | null => exact returns_null name inner
    | present hv h => exact returns_present hv (ih h hs) name
  | array name element ih =>
    cases h with
    | array h =>
      cases hs with
      | array hroom hs =>
        exact returns_array (List.forall₂_same.2 fun v hv => ih (h v hv) (hs v hv)) hroom name
  | tuple name elements ih =>
    cases h with
    | tuple h =>
      cases hs with
      | tuple hs =>
        obtain ⟨bs, hw, hrow⟩ := exists_rowEach h ih hs
        refine ⟨bs, ?_, _, hrow, rfl⟩
        rw [write, if_pos h.length_eq.symm]
        exact hw
  | map name key value ihk ihv =>
    cases h with
    | @map _ _ _ ps hdistinct hk hv =>
      cases hs with
      | map hroom hsk hsv =>
        have pair (p : Value × Value) (hp : p ∈ ps) : ∃ bs,
            ((write key p.1).andThen (write value p.2)).Appends bs ∧
              Pair (Row Reader.Room key) (Row Reader.Room value) bs p := by
          obtain ⟨bs, hw, hrow⟩ := ihk (hk p hp) (hsk p hp)
          obtain ⟨bs', hw', hrow'⟩ := ihv (hv p hp) (hsv p hp)
          exact ⟨bs ++ bs', hw.andThen hw', .mk hrow hrow'⟩
        obtain ⟨bs, hw, hrow⟩ := exists_counted (List.forall₂_same.2 pair) hroom
        exact ⟨bs, hw, row_map_iff.2 ⟨ps, hrow, by rw [Pairs.ofList_of_distinct hdistinct]⟩⟩
  | aggregateState name => cases h
  | simpleAggregate name inner ih =>
    cases h with
    | simpleAggregate h => exact ih h hs

/-- A value of the domain is read back from where it was written, whatever stands around it. -/
theorem read_write {l : Layout} {v : Value} (h : l.Domain v) (hs : v.Storable) :
    ∃ bs, ∀ out rest, l.write v out = (.ok (), out ++ bs) ∧
      l.read (out ++ bs ++ rest) out.length = .ok (v, out.length + bs.length) := by
  obtain ⟨bs, hw, hrow⟩ := h.returns hs
  exact ⟨bs, fun out rest => ⟨hw out, (read_reads l).complete hrow out rest⟩⟩

theorem read_write_keys_out_of_order :
    let l : Layout := .map "Map(String, Nullable(FixedString(2)))" .string
      (.nullable "Nullable(FixedString(2))" (.fixedString "FixedString(2)" 2 (.decode .utf8 .raw)))
    let v : Value := .map [(.string "b", .string "é"), (.string "a", .null),
      (.bytes [0xff], .bytes [0xff, 0xfe])]
    l.Domain v ∧ v.Storable ∧ ∃ bs, ∀ out rest, l.write v out = (.ok (), out ++ bs) ∧
      l.read (out ++ bs ++ rest) out.length = .ok (v, out.length + bs.length) := by
  intro l v
  have domain : l.Domain v := by
    refine .map (by decide) ?_ ?_
    · simp only [List.forall_mem_cons]
      exact ⟨.string _, .string _, .binary rfl, by simp⟩
    · simp only [List.forall_mem_cons]
      exact ⟨.present (by simp) (@Domain.fixedText _ _ _ _ [0xc3, 0xa9] rfl), .null,
        .present (by simp) (@Domain.fixedBinary _ [0xff, 0xfe] rfl), by simp⟩
  have storable : v.Storable := by
    refine .map (by decide) ?_ ?_
    · simp only [List.forall_mem_cons]
      exact ⟨.string (by decide), .string (by decide), .bytes (by decide), by simp⟩
    · simp only [List.forall_mem_cons]
      exact ⟨.string (by decide), .null, .bytes (by decide), by simp⟩
  exact ⟨domain, storable, read_write domain storable⟩

end Layout

end TypedColumn
