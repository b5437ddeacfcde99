import TypedColumn.Proofs.Row.RoundTrip

namespace TypedColumn

variable {α β : Type}

namespace Grammar

inductive Listed (G : Grammar α) : Bytes → List α → Prop
  | mk {bs bs' : Bytes} {as : List α} : CountPrefix.Shortest bs as.length → Sequence G bs' as →
      Listed G (bs ++ bs') as

def Shrinks (G H : Grammar α) : Prop :=
  ∀ bs a, G bs a → ∃ bs', H bs' a ∧ bs'.length ≤ bs.length

variable {G H : Grammar α} {G' H' : Grammar β}

theorem Shrinks.sequence (h : Shrinks G H) : Shrinks (Sequence G) (Sequence H) := by
  intro bs as hs
  induction hs with
  | nil => exact ⟨[], .nil, Nat.le_refl _⟩
  | cons ha _ ih =>
    obtain ⟨bs, ha, hle⟩ := h _ _ ha
    obtain ⟨bs', hs, hle'⟩ := ih
    refine ⟨bs ++ bs', .cons ha hs, ?_⟩
    rw [List.length_append, List.length_append]
    exact Nat.add_le_add hle hle'

theorem Shrinks.pair (h : Shrinks G H) (h' : Shrinks G' H') : Shrinks (Pair G G') (Pair H H') := by
  intro bs p hp
  cases hp with
  | mk ha hb =>
    obtain ⟨bs, ha, hle⟩ := h _ _ ha
    obtain ⟨bs', hb, hle'⟩ := h' _ _ hb
    refine ⟨bs ++ bs', .mk ha hb, ?_⟩
    rw [List.length_append, List.length_append]
    exact Nat.add_le_add hle hle'

theorem Pair.mono {bs : Bytes} {p : α × β} (hp : Pair G G' bs p) (h : ∀ bs a, G bs a → H bs a)
    (h' : ∀ bs b, G' bs b → H' bs b) : Pair H H' bs p := by
  cases hp with
  | mk ha hb => exact .mk (h _ _ ha) (h' _ _ hb)

theorem Listed.appends {G : Grammar α} {w : α → Writer} {bs : Bytes} {as : List α}
    (h : Listed G bs as) (hw : ∀ bs a, G bs a → (w a).Appends bs) :
    ((CountPrefix.write as.length).andThen (Writer.forEach w as)).Appends bs := by
  cases h with
  | mk hc hs =>
    obtain ⟨rfl, -⟩ := CountPrefix.shortest_iff.1 hc
    exact (Writer.appends_append _).andThen (Writer.appends_forEach (hs.mono hw))

theorem exists_listed {n size : Nat} {count bs : Bytes} {as : List α}
    (hc : CountPrefix.Spells count n) (hroom : Reader.Room size n) (hle : as.length ≤ n)
    (hs : Sequence (fun bs a => G bs a ∧ H bs a) bs as) :
    ∃ e, (Listed G e as ∧ Counted (Reader.Room size) H e as) ∧
      e.length ≤ (count ++ bs).length := by
  have word : as.length ≤ greatestWord := Nat.le_trans hle hc.le
  have shorter := Nat.le_trans (CountPrefix.length_toBytes_mono hle) hc.length_toBytes_le
  refine ⟨CountPrefix.toBytes as.length ++ bs, ⟨?_, ?_⟩, ?_⟩
  · exact .mk (CountPrefix.shortest_iff.2 ⟨rfl, word⟩) (hs.mono fun _ _ => And.left)
  · exact .mk (CountPrefix.spells_toBytes word) (Nat.le_trans hle hroom)
      (hs.mono fun _ _ => And.right)
  · rw [List.length_append, List.length_append]
    exact Nat.add_le_add_right shorter _

variable {K V : Grammar Value}

theorem sequence_insert {bs bs' : Bytes} {m : Pairs} {k v : Value}
    (hm : Sequence (Pair K V) bs m) (hp : Pair K V bs' (k, v)) :
    ∃ e, Sequence (Pair K V) e (Pairs.insert k v m) ∧ e.length ≤ bs.length + bs'.length := by
  induction hm with
  | nil => exact ⟨bs' ++ [], .cons hp .nil, by simp⟩
  | @cons first rest p ps hfirst hrest ih =>
    obtain ⟨k', v'⟩ := p
    rw [Pairs.insert]
    split
    · cases hp with
      | @mk kb vb _ _ hk hv =>
        cases hfirst with
        | @mk kb' vb' _ _ hk' hv' =>
          -- the key that comes again and the value that is replaced are left out
          refine ⟨kb' ++ vb ++ rest, .cons (.mk hk' hv) hrest, ?_⟩
          simp only [List.length_append]
          omega
    · obtain ⟨e, hs, hle⟩ := ih
      refine ⟨first ++ e, .cons hfirst hs, ?_⟩
      simp only [List.length_append]
      omega

theorem sequence_ofList : ∀ {bs : Bytes} {ps : List (Value × Value)}, Sequence (Pair K V) bs ps →
    ∃ e, Sequence (Pair K V) e (Pairs.ofList ps) ∧ e.length ≤ bs.length := by
  have grows {bs : Bytes} {ps : List (Value × Value)} (hs : Sequence (Pair K V) bs ps)
      {start : Bytes} {m : Pairs} (hm : Sequence (Pair K V) start m) :
      ∃ e, Sequence (Pair K V) e (ps.foldl (fun m p => Pairs.insert p.1 p.2 m) m) ∧
        e.length ≤ start.length + bs.length := by
    induction hs generalizing start m with
    | nil => exact ⟨start, hm, Nat.le_refl _⟩
    | cons hp _ ih =>
      obtain ⟨next, hnext, hle⟩ := sequence_insert hm hp
      obtain ⟨e, he, hle'⟩ := ih hnext
      refine ⟨e, he, ?_⟩
      rw [List.length_append]
      omega
  intro bs ps hs
  obtain ⟨e, he, hle⟩ := grows hs .nil
  exact ⟨e, he, by simpa using hle⟩

end Grammar

open Grammar (Sequence Pair Counted Listed Shrinks)

namespace Layout

inductive Lossless : Layout → Prop
  | number (k : NumberKind) : Lossless (.number k)
  | string : Lossless .string
  | uuid : Lossless .uuid
  | fixedString {name : String} {size : Nat} {form : FixedForm} : form.Lossless →
      Lossless (.fixedString name size form)
  | nothing : Lossless .nothing
  | nullable {name : String} {inner : Layout} : Lossless inner → Lossless (.nullable name inner)
  | array {name : String} {element : Layout} : Lossless element → Lossless (.array name element)
  | tuple {name : String} {elements : List Layout} : (∀ l ∈ elements, Lossless l) →
      Lossless (.tuple name elements)
  | map {name : String} {key value : Layout} : Lossless key → Lossless value →
      Lossless (.map name key value)
  | aggregateState (name : String) : Lossless (.aggregateState name)
  | simpleAggregate {name : String} {inner : Layout} : Lossless inner →
      Lossless (.simpleAggregate name inner)

mutual
/-- The rows in which every count is spelled as shortly as it can be, truth values and null flags are
zero or one, a null is flagged, and no map repeats a key. -/
def Canonical : Layout → Bytes → Value → Prop
  | .number k, bs, v => (∃ n, Number.Spells k bs n ∧ v = .number n) ∧
      (k = .bool → bs = [0] ∨ bs = [1])
  | .string, bs, v => ∃ count text, bs = count ++ text ∧ CountPrefix.Shortest count text.length ∧
      FixedForm.Shows (.decode .utf8 .raw) text v
  | .uuid, bs, v => ∃ u, Uuid.Spells bs u ∧ v = .uuid u
  | .fixedString _ size form, bs, v => bs.length = size ∧ form.Shows bs v
  | .nothing, bs, v => bs = [] ∧ v = .null
  | .nullable _ inner, bs, v => (bs = [1] ∧ v = .null) ∨
      ∃ rest, bs = 0 :: rest ∧ v ≠ .null ∧ Canonical inner rest v
  | .array _ element, bs, v => ∃ vs, Listed (Canonical element) bs vs ∧ v = .array vs
  | .tuple _ elements, bs, v => ∃ vs, CanonicalEach elements bs vs ∧ v = .tuple vs
  | .map _ key value, bs, v => ∃ ps : Pairs, Listed (Pair (Canonical key) (Canonical value)) bs ps ∧
      ps.Distinct ∧ v = .map ps
  | .aggregateState _, _, _ => False
  | .simpleAggregate _ inner, bs, v => Canonical inner bs v
def CanonicalEach : List Layout → Bytes → List Value → Prop
  | [], bs, vs => bs = [] ∧ vs = []
  | l :: ls, bs, vs => ∃ bs₁ bs₂ w ws, bs = bs₁ ++ bs₂ ∧ vs = w :: ws ∧ Canonical l bs₁ w ∧
      CanonicalEach ls bs₂ ws
end

theorem writeEach_appends {ls : List Layout}
    (ih : ∀ l ∈ ls, ∀ {bs v}, l.Canonical bs v → (l.write v).Appends bs) {bs : Bytes}
    {vs : List Value} (h : CanonicalEach ls bs vs) :
    vs.length = ls.length ∧ (writeEach ls vs).Appends bs := by
  induction ls generalizing bs vs with
  | nil =>
    obtain ⟨rfl, rfl⟩ := h
    exact ⟨rfl, Writer.appends_skip⟩
  | cons l ls ihs =>
    obtain ⟨bs₁, bs₂, w, ws, rfl, rfl, hw, hws⟩ := h
    rw [List.forall_mem_cons] at ih
    obtain ⟨hlen, happ⟩ := ihs ih.2 hws
    exact ⟨congrArg Nat.succ hlen, (ih.1 hw).andThen happ⟩

theorem Canonical.appends {l : Layout} (hl : l.Lossless) {bs : Bytes} {v : Value}
    (h : l.Canonical bs v) : (l.write v).Appends bs := by
  induction l generalizing bs v with
  | number k =>
    obtain ⟨⟨n, hn, rfl⟩, hb⟩ := h
    obtain ⟨hlen, rfl⟩ := Number.spells_iff.1 hn
    rw [write, if_pos (Number.kind_ofBytes bs k), Number.toBytes_ofBytes hlen hb]
    exact Writer.appends_append bs
  | string =>
    obtain ⟨count, text, rfl, hc, hv⟩ := h
    obtain ⟨rfl, -⟩ := CountPrefix.shortest_iff.1 hc
    rw [FixedForm.shows_iff.1 hv, ← Value.ofBytes_eq_render, Value.ofBytes]
    cases htext : Text.ofUtf8? text with
    | none => exact appends_writeString text
    | some s =>
      obtain rfl := Text.ofUtf8?_eq_some htext
      exact appends_writeString _
  | uuid =>
    obtain ⟨u, hu, rfl⟩ := h
    obtain ⟨hlen, rfl⟩ := Uuid.spells_iff.1 hu
    rw [write, Uuid.toWire_ofRow hlen]
    exact Writer.appends_append bs
  | fixedString name size form =>
    cases hl with
    | fixedString hform =>
      rw [write, FixedForm.shows_iff.1 h.2]
      exact appends_writeFixed_render hform name bs
  | nothing =>
    obtain ⟨rfl, rfl⟩ := h
    exact Writer.appends_skip
  | nullable name inner ih =>
    cases hl with
    | nullable hl =>
      rcases h with ⟨rfl, rfl⟩ | ⟨rest, rfl, hv, h⟩
      · exact Writer.appends_append [1]
      · rw [write_nullable hv]
        exact (Writer.appends_append [0]).andThen (ih hl h)
  | array name element ih =>
    cases hl with
    | array hl =>
      obtain ⟨vs, h, rfl⟩ := h
      exact h.appends fun _ _ => ih hl
  | tuple name elements ih =>
    cases hl with
    | tuple hl =>
      obtain ⟨vs, h, rfl⟩ := h
      obtain ⟨hlen, happ⟩ := writeEach_appends (fun l hmem _ _ => ih l hmem (hl l hmem)) h
      rw [write, if_pos hlen]
      exact happ
  | map name key value ihk ihv =>
    cases hl with
    | map hlk hlv =>
      obtain ⟨ps, h, -, rfl⟩ := h
      refine h.appends fun bs p hp => ?_
      cases hp with
      | mk hk hv => exact (ihk hlk hk).andThen (ihv hlv hv)
  | aggregateState name => exact h.elim
  | simpleAggregate name inner ih =>
    cases hl with
    | simpleAggregate hl => exact ih hl h

def Normal (l : Layout) (bs : Bytes) (v : Value) : Prop :=
  l.Canonical bs v ∧ l.Row Reader.Room bs v

theorem rowEach_shrinks {ls : List Layout}
    (ih : ∀ l ∈ ls, Shrinks (Row Reader.Room l) (Normal l)) :
    Shrinks (RowEach Reader.Room ls)
      fun bs vs => CanonicalEach ls bs vs ∧ RowEach Reader.Room ls bs vs := by
  induction ls with
  | nil =>
    intro bs vs h
    obtain ⟨rfl, rfl⟩ := h
    exact ⟨[], ⟨⟨rfl, rfl⟩, rfl, rfl⟩, Nat.le_refl _⟩
  | cons l ls ihs =>
    intro bs vs h
    rw [List.forall_mem_cons] at ih
    obtain ⟨bs₁, bs₂, w, ws, rfl, rfl, hw, hws⟩ := h
    obtain ⟨e₁, ⟨hc, hr⟩, hle⟩ := ih.1 _ _ hw
    obtain ⟨e₂, ⟨hcs, hrs⟩, hle'⟩ := ihs ih.2 _ _ hws
    refine ⟨e₁ ++ e₂, ⟨⟨e₁, e₂, w, ws, rfl, rfl, hc, hcs⟩, e₁, e₂, w, ws, rfl, rfl, hr, hrs⟩, ?_⟩
    rw [List.length_append, List.length_append]
    exact Nat.add_le_add hle hle'

theorem number_shrinks (k : NumberKind) :
    Shrinks (Row Reader.Room (.number k)) (Normal (.number k)) := by
  intro bs v h
  obtain ⟨hlen, rfl⟩ := row_number_iff.1 h
  have hkind := Number.kind_ofBytes bs k
  have hsize : (Number.ofBytes bs k).toBytes.length = k.width := by
    rw [Number.length_toBytes, hkind]
  have hback : Number.ofBytes (Number.ofBytes bs k).toBytes k = Number.ofBytes bs k := by
    have same := Number.ofBytes_toBytes (Number.ofBytes bs k)
    rwa [hkind] at same
  have hrow : Row Reader.Room (.number k) (Number.ofBytes bs k).toBytes
      (.number (Number.ofBytes bs k)) := row_number_iff.2 ⟨hsize, by rw [hback]⟩
  refine ⟨_, ⟨⟨hrow, ?_⟩, hrow⟩, Nat.le_of_eq (hsize.trans hlen.symm)⟩
  rintro rfl
  exact Number.toBytes_bool hkind

theorem nullable_shrinks {inner : Layout}
    (h : Shrinks (Row Reader.Room inner) (Normal inner)) (name : String) :
    Shrinks (Row Reader.Room (.nullable name inner)) (Normal (.nullable name inner)) := by
  have flagged : Normal (.nullable name inner) [1] .null :=
    ⟨.inl ⟨rfl, rfl⟩, .inl ⟨1, by decide, rfl, rfl⟩⟩
  rintro bs v (⟨flag, -, rfl, rfl⟩ | ⟨rest, rfl, hrest⟩)
  · exact ⟨[1], flagged, Nat.le_refl _⟩
  · by_cases hv : v = .null
    · -- a null under the flag of a value takes the flag of a null instead
      subst hv
      exact ⟨[1], flagged, Nat.le_add_left 1 _⟩
    · obtain ⟨e, ⟨hc, hr⟩, hle⟩ := h rest v hrest
      exact ⟨0 :: e, ⟨.inr ⟨e, rfl, hv, hc⟩, .inr ⟨e, rfl, hr⟩⟩, Nat.succ_le_succ hle⟩

theorem map_shrinks {key value : Layout}
    (hkey : Shrinks (Row Reader.Room key) (Normal key))
    (hvalue : Shrinks (Row Reader.Room value) (Normal value)) (name : String) :
    Shrinks (Row Reader.Room (.map name key value)) (Normal (.map name key value)) := by
  intro _ _ h
  obtain ⟨ps, ⟨hc, hroom, hs⟩, rfl⟩ := row_map_iff.1 h
  obtain ⟨es, hes, hle⟩ := (hkey.pair hvalue).sequence _ _ hs
  obtain ⟨fs, hfs, hle'⟩ := Grammar.sequence_ofList hes
  have members := hfs.mono fun bs p hp => And.intro
    (hp.mono (fun _ _ => And.left) (fun _ _ => And.left))
    (hp.mono (fun _ _ => And.right) (fun _ _ => And.right))
  obtain ⟨e, ⟨hlisted, hcounted⟩, hle''⟩ :=
    Grammar.exists_listed hc hroom (Pairs.length_ofList_le ps) members
  have hdistinct := Pairs.distinct_ofList ps
  refine ⟨e, ⟨⟨_, hlisted, hdistinct, rfl⟩, row_map_iff.2 ⟨_, hcounted, ?_⟩⟩, ?_⟩
  · rw [Pairs.ofList_of_distinct hdistinct]
  · rw [List.length_append] at hle'' ⊢
    omega

theorem row_shrinks (l : Layout) : Shrinks (Row Reader.Room l) (Normal l) := by
  induction l with
  | number k => exact number_shrinks k
  | string =>
    rintro _ _ ⟨count, text, rfl, hc, hv⟩
    have shortest := CountPrefix.shortest_iff.2 ⟨rfl, hc.le⟩
    refine ⟨_, ⟨⟨_, text, rfl, shortest, hv⟩, _, text, rfl, shortest.spells, hv⟩, ?_⟩
    rw [List.length_append, List.length_append]
    exact Nat.add_le_add_right hc.length_toBytes_le _
  | uuid => exact fun bs v h => ⟨bs, ⟨h, h⟩, Nat.le_refl _⟩
  | fixedString name size form => exact fun bs v h => ⟨bs, ⟨h, h⟩, Nat.le_refl _⟩
  | nothing => exact fun bs v h => ⟨bs, ⟨h, h⟩, Nat.le_refl _⟩
  | nullable name inner ih => exact nullable_shrinks ih name
  | array name element ih =>
    rintro _ _ ⟨vs, ⟨hc, hroom, hs⟩, rfl⟩
    obtain ⟨es, hes, hle⟩ := ih.sequence _ _ hs
    obtain ⟨e, ⟨hlisted, hcounted⟩, hle'⟩ := Grammar.exists_listed hc hroom (Nat.le_refl _) hes
    refine ⟨e, ⟨⟨vs, hlisted, rfl⟩, vs, hcounted, rfl⟩, ?_⟩
    rw [List.length_append] at hle' ⊢
    omega
  | tuple name elements ih =>
    rintro _ _ ⟨vs, h, rfl⟩
    obtain ⟨e, ⟨hc, hr⟩, hle⟩ := rowEach_shrinks ih _ _ h
    exact ⟨e, ⟨⟨vs, hc, rfl⟩, vs, hr, rfl⟩, hle⟩
  | map name key value ihk ihv => exact map_shrinks ihk ihv name
  | aggregateState name => exact fun _ _ h => h.elim
  | simpleAggregate name inner ih => exact ih

theorem domain_ofBytes (bs : Bytes) : Domain .string (Value.ofBytes bs) := by
  rw [Value.ofBytes]
  cases htext : Text.ofUtf8? bs with
  | none => exact .binary htext
  | some text => exact .string text

theorem domain_render {form : FixedForm} (h : form.Lossless) (name : String) (bs : Bytes) :
    Domain (.fixedString name bs.length form) (form.render bs) := by
  cases h with
  | raw => exact .fixedRaw
  | utf8 =>
    cases hd : TextEncoding.utf8.decode? bs with
    | none =>
      rw [FixedForm.render, hd]
      exact .fixedBinary hd
    | some text =>
      rw [FixedForm.render_decode hd]
      exact .fixedText (TextEncoding.encode?_eq_some_iff.2 hd)
  | latin1 fallback =>
    have hd : TextEncoding.latin1.decode? bs = some (Text.ofLatin1 bs) := rfl
    rw [FixedForm.render_decode hd]
    exact .fixedText (TextEncoding.encode?_eq_some_iff.2 hd)

theorem Row.domain {room : (size : Nat) → Nat → Prop} {l : Layout} (hl : l.Lossless) {bs : Bytes}
    {v : Value} (h : l.Row room bs v) : l.Domain v := by
  induction l generalizing bs v with
  | number k =>
    obtain ⟨-, rfl⟩ := row_number_iff.1 h
    have same := Domain.number (Number.ofBytes bs k)
    rwa [Number.kind_ofBytes] at same
  | string =>
    obtain ⟨count, text, -, -, rfl⟩ := row_string_iff.1 h
    exact domain_ofBytes text
  | uuid =>
    obtain ⟨u, -, rfl⟩ := h
    exact .uuid u
  | fixedString name size form =>
    obtain ⟨rfl, rfl⟩ := row_fixedString_iff.1 h
    cases hl with
    | fixedString hform => exact domain_render hform name bs
  | nothing =>
    obtain ⟨-, rfl⟩ := h
    exact .nothing
  | nullable name inner ih =>
    cases hl with
    | nullable hl =>
      by_cases hv : v = .null
      · subst hv
        exact .null
      · obtain ⟨-, -, -, rfl⟩ | ⟨rest, -, hrest⟩ := h
        · exact .null
        · exact .present hv (ih hl hrest)
  | array name element ih =>
    cases hl with
    | array hl =>
      obtain ⟨vs, ⟨-, -, hs⟩, rfl⟩ := h
      refine .array fun v hv => ?_
      obtain ⟨part, -, hpart⟩ := hs.exists_of_mem hv
      exact ih hl hpart
  | tuple name elements ih =>
    cases hl with
    | tuple hl =>
      obtain ⟨vs, hvs, rfl⟩ := h
      refine .tuple (forall₂_imp_of_mem hvs.forall₂ ?_)
      rintro l hmem v ⟨part, hpart⟩
      exact ih l hmem (hl l hmem) hpart
  | map name key value ihk ihv =>
    cases hl with
    | map hlk hlv =>
      obtain ⟨ps, ⟨-, -, hs⟩, rfl⟩ := row_map_iff.1 h
      have parts (p : Value × Value) (hp : p ∈ ps) : key.Domain p.1 ∧ value.Domain p.2 := by
        obtain ⟨part, -, hpart⟩ := hs.exists_of_mem hp
        cases hpart with
        | mk hk hv => exact ⟨ihk hlk hk, ihv hlv hv⟩
      have kept := Pairs.forall_ofList parts
      exact .map (Pairs.distinct_ofList ps) (fun p hp => (kept p hp).1) fun p hp => (kept p hp).2
  | aggregateState name => exact h.elim
  | simpleAggregate name inner ih =>
    cases hl with
    | simpleAggregate hl => exact .simpleAggregate (ih hl h)

/-- What was read is written as its canonical row, which reads back as the same value. -/
theorem write_read {l : Layout} (hl : l.Lossless) {buf : Bytes} {pos next : Nat} {v : Value}
    (h : l.read buf pos = .ok (v, next)) :
    ∃ e, l.write v [] = (.ok (), e) ∧ e.length ≤ next - pos ∧ l.read e 0 = .ok (v, e.length) ∧
      (e = buf.extract pos next ↔ l.Canonical (buf.extract pos next) v) := by
  obtain ⟨bs, rest, hbuf, rfl, hrow⟩ := (read_reads l).sound h
  obtain ⟨e, ⟨hcanonical, hrow'⟩, hle⟩ := row_shrinks l _ _ hrow
  have slice : buf.extract pos (pos + bs.length) = bs := by
    rw [List.extract, hbuf, Nat.add_sub_cancel_left, List.take_left]
  have hwrite := hcanonical.appends hl []
  have hread := (read_reads l).complete hrow' [] []
  simp only [List.nil_append, List.append_nil, List.length_nil, Nat.zero_add] at hwrite hread
  rw [slice, Nat.add_sub_cancel_left]
  refine ⟨e, hwrite, hle, hread, ?_⟩
  constructor
  · rintro rfl
    exact hcanonical
  · intro hc
    exact (hcanonical.appends hl).unique (hc.appends hl)

theorem write_read_repeated_key :
    let l : Layout := .map "Map(UInt8, Nullable(UInt8))" (.number (.uint .w8))
      (.nullable "Nullable(UInt8)" (.number (.uint .w8)))
    let buf : Bytes := [9, 0x82, 0x00, 1, 7, 1, 0, 3]
    let v : Value := .map [(.number (.uint .w8 1), .number (.uint .w8 3))]
    l.Lossless ∧ l.read buf 1 = .ok (v, 8) ∧ ∃ e, l.write v [] = (.ok (), e) ∧ e.length ≤ 8 - 1 ∧
      l.read e 0 = .ok (v, e.length) ∧
      (e = buf.extract 1 8 ↔ l.Canonical (buf.extract 1 8) v) :=
  ⟨.map (.number _) (.nullable (.number _)), rfl,
    write_read (.map (.number _) (.nullable (.number _))) rfl⟩

end Layout

end TypedColumn
