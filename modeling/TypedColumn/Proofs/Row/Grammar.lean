import TypedColumn.Proofs.CountPrefix
import TypedColumn.Proofs.Merging
import TypedColumn.Proofs.Row.Content
import TypedColumn.Proofs.Width

namespace TypedColumn

variable {α β : Type}

inductive Grammar.Counted (room : Nat → Prop) (G : Grammar α) : Bytes → List α → Prop
  | mk {bs bs' : Bytes} {as : List α} : CountPrefix.Spells bs as.length → room as.length →
      Sequence G bs' as → Counted room G (bs ++ bs') as

open Grammar (Sequence Pair Counted)

theorem FixedForm.Shows.wellKeyed {form : FixedForm} {bs : Bytes} {v : Value}
    (h : form.Shows bs v) : v.WellKeyed := by
  cases h with
  | raw => exact .bytes _
  | hex => exact .string _
  | text => exact .string _
  | rawFallback => exact .bytes _
  | hexFallback => exact .string _

namespace Layout

mutual
/-- The bytes of one value in a row, where `room` says how many things of a size memory can hold. -/
def Row (room : (size : Nat) → Nat → Prop) : Layout → Bytes → Value → Prop
  | .number k, bs, v => ∃ n, Number.Spells k bs n ∧ v = .number n
  | .string, bs, v => ∃ count text, bs = count ++ text ∧ CountPrefix.Spells count text.length ∧
      FixedForm.Shows (.decode .utf8 .raw) text v
  | .uuid, bs, v => ∃ u, Uuid.Spells bs u ∧ v = .uuid u
  | .fixedString _ size form, bs, v => bs.length = size ∧ form.Shows bs v
  | .nothing, bs, v => bs = [] ∧ v = .null
  | .nullable _ inner, bs, v => (∃ flag, flag ≠ 0 ∧ bs = [flag] ∧ v = .null) ∨
      ∃ rest, bs = 0 :: rest ∧ Row room inner rest v
  | .array _ element, bs, v => ∃ vs, Counted (room Value.size) (Row room element) bs vs ∧
      v = .array vs
  | .tuple _ elements, bs, v => ∃ vs, RowEach room elements bs vs ∧ v = .tuple vs
  | .map _ key value, bs, v => ∃ ps m,
      Counted (room Pairs.entrySize) (Pair (Row room key) (Row room value)) bs ps ∧
      Pairs.Merges ps m ∧ v = .map m
  | .aggregateState _, _, _ => False
  | .simpleAggregate _ inner, bs, v => Row room inner bs v
def RowEach (room : (size : Nat) → Nat → Prop) : List Layout → Bytes → List Value → Prop
  | [], bs, vs => bs = [] ∧ vs = []
  | l :: ls, bs, vs => ∃ bs₁ bs₂ w ws, bs = bs₁ ++ bs₂ ∧ vs = w :: ws ∧ Row room l bs₁ w ∧
      RowEach room ls bs₂ ws
end

variable {room : (size : Nat) → Nat → Prop}

theorem counted_length_pos {enough : Nat → Prop} {G : Grammar α} {bs : Bytes} {as : List α}
    (h : Counted enough G bs as) : 1 ≤ bs.length := by
  cases h with
  | mk hc _ _ =>
    have size := hc.groups.length_pos
    rw [List.length_append]
    omega

theorem RowEach.forall₂ {ls : List Layout} {bs : Bytes} {vs : List Value}
    (h : RowEach room ls bs vs) : List.Forall₂ (fun l v => ∃ part, l.Row room part v) ls vs := by
  induction ls generalizing bs vs with
  | nil =>
    obtain ⟨-, rfl⟩ := h
    exact .nil
  | cons l ls ih =>
    obtain ⟨bs₁, bs₂, w, ws, -, rfl, hw, hws⟩ := h
    exact .cons ⟨bs₁, hw⟩ (ih hws)

theorem row_number_iff {k : NumberKind} {bs : Bytes} {v : Value} :
    Row room (.number k) bs v ↔ bs.length = k.width ∧ v = .number (Number.ofBytes bs k) := by
  simp only [Row, Number.spells_iff]
  constructor
  · rintro ⟨n, ⟨hlen, rfl⟩, rfl⟩
    exact ⟨hlen, rfl⟩
  · rintro ⟨hlen, rfl⟩
    exact ⟨_, ⟨hlen, rfl⟩, rfl⟩

theorem row_string_iff {bs : Bytes} {v : Value} :
    Row room .string bs v ↔ ∃ count text, bs = count ++ text ∧
      CountPrefix.Spells count text.length ∧ v = Value.ofBytes text := by
  simp only [Row, FixedForm.shows_iff, Value.ofBytes_eq_render]

theorem row_uuid_iff {bs : Bytes} {v : Value} :
    Row room .uuid bs v ↔ bs.length = 16 ∧ v = .uuid (Uuid.ofRow bs) := by
  simp only [Row, Uuid.spells_iff]
  constructor
  · rintro ⟨u, ⟨hlen, rfl⟩, rfl⟩
    exact ⟨hlen, rfl⟩
  · rintro ⟨hlen, rfl⟩
    exact ⟨_, ⟨hlen, rfl⟩, rfl⟩

theorem row_fixedString_iff {name : String} {size : Nat} {form : FixedForm} {bs : Bytes}
    {v : Value} :
    Row room (.fixedString name size form) bs v ↔ bs.length = size ∧ v = form.render bs := by
  simp only [Row, FixedForm.shows_iff]

theorem wellKeyed_pairs {enough : Nat → Prop} {G H : Grammar Value}
    (hG : ∀ {bs v}, G bs v → v.WellKeyed) (hH : ∀ {bs v}, H bs v → v.WellKeyed) {bs : Bytes}
    {ps : List (Value × Value)} (h : Counted enough (Pair G H) bs ps) :
    ∀ p ∈ ps, p.1.WellKeyed ∧ p.2.WellKeyed := by
  cases h with
  | mk _ _ hs =>
    intro p hp
    obtain ⟨part, -, hpart⟩ := hs.exists_of_mem hp
    cases hpart with
    | mk hk hv => exact ⟨hG hk, hH hv⟩

theorem Row.wellKeyed {l : Layout} {bs : Bytes} {v : Value} (h : l.Row room bs v) :
    v.WellKeyed := by
  induction l generalizing bs v with
  | number k =>
    obtain ⟨n, -, rfl⟩ := h
    exact .number n
  | string =>
    obtain ⟨count, text, -, -, h⟩ := h
    exact h.wellKeyed
  | uuid =>
    obtain ⟨u, -, rfl⟩ := h
    exact .uuid u
  | fixedString name size form => exact h.2.wellKeyed
  | nothing =>
    obtain ⟨-, rfl⟩ := h
    exact .null
  | nullable name inner ih =>
    obtain ⟨flag, -, -, rfl⟩ | ⟨rest, -, h⟩ := h
    · exact .null
    · exact ih h
  | array name element ih =>
    obtain ⟨vs, hvs, rfl⟩ := h
    cases hvs with
    | mk _ _ hs =>
      refine .array fun v hv => ?_
      obtain ⟨part, -, hpart⟩ := hs.exists_of_mem hv
      exact ih hpart
  | tuple name elements ih =>
    obtain ⟨vs, hvs, rfl⟩ := h
    refine .tuple fun v hv => ?_
    obtain ⟨l, hl, part, hpart⟩ := exists_of_mem_right hvs.forall₂ hv
    exact ih l hl hpart
  | map name key value ihk ihv =>
    obtain ⟨ps, m, hps, hm, rfl⟩ := h
    exact hm.wellKeyed (wellKeyed_pairs ihk ihv hps)
  | aggregateState name => exact h.elim
  | simpleAggregate name inner ih => exact ih h

theorem row_map_iff {name : String} {key value : Layout} {bs : Bytes} {v : Value} :
    Row room (.map name key value) bs v ↔ ∃ ps,
      Counted (room Pairs.entrySize) (Pair (Row room key) (Row room value)) bs ps ∧
      v = .map (Pairs.ofList ps) := by
  have keyed {ps : List (Value × Value)}
      (h : Counted (room Pairs.entrySize) (Pair (Row room key) (Row room value)) bs ps) :=
    wellKeyed_pairs Row.wellKeyed Row.wellKeyed h
  constructor
  · rintro ⟨ps, m, hps, hm, rfl⟩
    exact ⟨ps, hps, by rw [(Pairs.merges_iff (keyed hps)).1 hm]⟩
  · rintro ⟨ps, hps, rfl⟩
    exact ⟨ps, _, hps, Pairs.merges_ofList (keyed hps), rfl⟩

theorem leastWidths_le {ls : List Layout}
    (ih : ∀ l ∈ ls, ∀ {bs v}, l.Row room bs v → l.leastWidth ≤ bs.length) {bs : Bytes}
    {vs : List Value} (h : RowEach room ls bs vs) : leastWidths ls ≤ bs.length := by
  induction ls generalizing bs vs with
  | nil => exact Nat.zero_le _
  | cons l ls ihs =>
    obtain ⟨bs₁, bs₂, w, ws, rfl, rfl, hw, hws⟩ := h
    have first := ih l (by simp) hw
    have others := ihs (fun m hm => ih m (by simp [hm])) hws
    rw [leastWidths, List.length_append]
    omega

theorem leastWidth_le (l : Layout) {bs : Bytes} {v : Value} (h : l.Row room bs v) :
    l.leastWidth ≤ bs.length := by
  induction l generalizing bs v with
  | number k => exact Nat.le_of_eq (row_number_iff.1 h).1.symm
  | string =>
    obtain ⟨count, text, rfl, hc, -⟩ := h
    have size := hc.groups.length_pos
    rw [leastWidth, List.length_append]
    omega
  | uuid => exact Nat.le_of_eq (row_uuid_iff.1 h).1.symm
  | fixedString name size form => exact Nat.le_of_eq h.1.symm
  | nothing => exact Nat.zero_le _
  | nullable name inner ih =>
    rcases h with ⟨flag, -, rfl, -⟩ | ⟨rest, rfl, -⟩
    · exact Nat.le_refl 1
    · exact Nat.le_add_left 1 _
  | array name element ih =>
    obtain ⟨vs, hvs, rfl⟩ := h
    exact counted_length_pos hvs
  | tuple name elements ih =>
    obtain ⟨vs, hvs, rfl⟩ := h
    exact leastWidths_le (fun l hl => ih l hl) hvs
  | map name key value ihk ihv =>
    obtain ⟨ps, m, hps, -⟩ := h
    exact counted_length_pos hps
  | aggregateState name => exact h.elim
  | simpleAggregate name inner ih => exact ih h

theorem minWidth_le (l : Layout) {bs : Bytes} {v : Value} (h : l.Row room bs v) :
    l.minWidth ≤ bs.length :=
  Nat.le_trans (minWidth_le_leastWidth l) (leastWidth_le l h)

theorem pair_reads {r : Reader α} {s : Reader β} {G : Grammar α} {H : Grammar β} (hr : r.Reads G)
    (hs : s.Reads H) : (do
      let a ← r
      let b ← s
      return (a, b)).Reads (Pair G H) := by
  apply (hr.bind fun a => hs.map (Prod.mk a)).congr
  intro bs p
  constructor
  · rintro ⟨bs₁, bs₂, a, rfl, ha, b, hb, rfl⟩
    exact .mk ha hb
  · rintro ⟨ha, hb⟩
    exact ⟨_, _, _, rfl, ha, _, hb, rfl⟩

theorem of_counted {width size : Nat} {r : Reader α} {buf : Bytes} {pos next : Nat} {as : List α}
    (h : counted width size r buf pos = .ok (as, next)) :
    ∃ n mid, CountPrefix.read buf pos = .ok (n, mid) ∧ n ≤ Reader.capacity size ∧
      Reader.replicate r n buf mid = .ok (as, next) := by
  obtain ⟨n, mid, hn, hrest⟩ := Reader.bind_eq_ok_iff.1 h
  obtain ⟨⟨⟩, here, hensure, hensured⟩ := Reader.bind_eq_ok_iff.1 hrest
  obtain ⟨⟨⟩, here', hreserve, hmembers⟩ := Reader.bind_eq_ok_iff.1 hensured
  obtain rfl := Reader.eq_of_ensure hensure
  obtain ⟨hroom, rfl⟩ := Reader.reserve_eq_ok_iff.1 hreserve
  exact ⟨n, _, hn, hroom, hmembers⟩

theorem counted_reads {width size : Nat} {r : Reader α} {G : Grammar α} (hr : r.Reads G)
    (hw : ∀ bs a, G bs a → width ≤ bs.length) :
    (counted width size r).Reads (Counted (Reader.Room size) G) where
  sound h := by
    obtain ⟨n, mid, hn, hroom, hmembers⟩ := of_counted h
    obtain ⟨bs₁, rest, hbuf, rfl, hcount⟩ := CountPrefix.read_reads.sound hn
    obtain ⟨bs₂, rest', hbuf', rfl, rfl, hs⟩ := (hr.replicate n).sound hmembers
    rw [← List.drop_drop, hbuf, List.drop_left] at hbuf'
    refine ⟨bs₁ ++ bs₂, rest', ?_, ?_, .mk hcount hroom hs⟩
    · rw [hbuf, hbuf', List.append_assoc]
    · rw [List.length_append, Nat.add_assoc]
  complete {bs as} h := by
    cases h with
    | @mk bs bs' as hc hroom hs =>
      intro out rest
      have hcount := CountPrefix.read_reads.complete hc out (bs' ++ rest)
      have hmembers := (hr.replicate as.length).complete ⟨rfl, hs⟩ (out ++ bs) rest
      simp only [List.append_assoc, List.length_append, Nat.add_assoc] at hcount hmembers ⊢
      have enough : as.length * width ≤
          (out ++ (bs ++ (bs' ++ rest))).length - (out.length + bs.length) := by
        have taken := hs.length_mul_le hw
        simp only [List.length_append]
        omega
      rw [counted, Reader.bind_of_ok hcount, Reader.bind_of_ok (Reader.ensure_of_le enough),
        Reader.bind_of_ok (Reader.reserve_eq_ok_iff.2 ⟨hroom, rfl⟩), hmembers]

theorem readString_reads : readString.Reads (Row room .string) := by
  apply (CountPrefix.read_reads.bind fun n => (Reader.Reads.take n).map Value.ofBytes).congr
  intro bs v
  rw [row_string_iff]
  constructor
  · rintro ⟨count, text, n, rfl, hc, text', ⟨rfl, rfl⟩, rfl⟩
    exact ⟨count, _, rfl, hc, rfl⟩
  · rintro ⟨count, text, rfl, hc, rfl⟩
    exact ⟨count, text, _, rfl, hc, text, ⟨rfl, rfl⟩, rfl⟩

theorem readEach_reads {ls : List Layout}
    (ih : ∀ l ∈ ls, (read l).Reads (Row Reader.Room l)) :
    (readEach ls).Reads (RowEach Reader.Room ls) := by
  induction ls with
  | nil => exact .pure []
  | cons l ls ihs =>
    have first := ih l (by simp)
    have others := ihs fun m hm => ih m (by simp [hm])
    rw [readEach]
    apply (first.bind fun v => others.map (v :: ·)).congr
    intro bs vs
    constructor
    · rintro ⟨bs₁, bs₂, w, rfl, hw, ws, hws, rfl⟩
      exact ⟨bs₁, bs₂, w, ws, rfl, rfl, hw, hws⟩
    · rintro ⟨bs₁, bs₂, w, ws, rfl, rfl, hw, hws⟩
      exact ⟨bs₁, bs₂, w, rfl, hw, ws, hws, rfl⟩

theorem nullable_reads {inner : Layout} (h : (read inner).Reads (Row Reader.Room inner))
    (name : String) :
    (read (.nullable name inner)).Reads (Row Reader.Room (.nullable name inner)) := by
  have rest (flag : UInt8) : (if flag = 0 then read inner else return .null).Reads fun bs v =>
      (flag ≠ 0 ∧ bs = [] ∧ v = .null) ∨ (flag = 0 ∧ Row Reader.Room inner bs v) := by
    split
    · rename_i zero
      apply h.congr
      intro bs v
      exact ⟨fun h => .inr ⟨zero, h⟩, fun h => h.elim (fun h => absurd zero h.1) And.right⟩
    · rename_i nonzero
      apply (Reader.Reads.pure _).congr
      intro bs v
      exact ⟨fun h => .inl ⟨nonzero, h⟩, fun h => h.elim And.right fun h => absurd h.1 nonzero⟩
  rw [read]
  apply (Reader.Reads.byte.bind rest).congr
  intro bs v
  constructor
  · rintro ⟨bs₁, bs₂, flag, rfl, rfl, ⟨hflag, rfl, rfl⟩ | ⟨rfl, hv⟩⟩
    · exact .inl ⟨flag, hflag, rfl, rfl⟩
    · exact .inr ⟨bs₂, rfl, hv⟩
  · rintro (⟨flag, hflag, rfl, rfl⟩ | ⟨rest, rfl, hv⟩)
    · exact ⟨[flag], [], flag, rfl, rfl, .inl ⟨hflag, rfl, rfl⟩⟩
    · exact ⟨[0], rest, 0, rfl, rfl, .inr ⟨rfl, hv⟩⟩

theorem pair_minWidth_le {key value : Layout} {bs : Bytes} {p : Value × Value}
    (h : Pair (Row room key) (Row room value) bs p) :
    addWords (minWidth key) (minWidth value) ≤ bs.length := by
  cases h with
  | mk hk hv =>
    have first := minWidth_le key hk
    have second := minWidth_le value hv
    have sum := addWords_le key.minWidth value.minWidth
    rw [List.length_append]
    omega

theorem read_reads (l : Layout) : (read l).Reads (Row Reader.Room l) := by
  induction l with
  | number k =>
    rw [read]
    apply ((Reader.Reads.take k.width).map fun bs => Value.number (Number.ofBytes bs k)).congr
    intro bs v
    rw [row_number_iff]
    constructor
    · rintro ⟨_, ⟨hlen, rfl⟩, rfl⟩
      exact ⟨hlen, rfl⟩
    · rintro ⟨hlen, rfl⟩
      exact ⟨bs, ⟨hlen, rfl⟩, rfl⟩
  | string => exact readString_reads
  | uuid =>
    rw [read]
    apply ((Reader.Reads.take 16).map fun bs => Value.uuid (Uuid.ofRow bs)).congr
    intro bs v
    rw [row_uuid_iff]
    constructor
    · rintro ⟨_, ⟨hlen, rfl⟩, rfl⟩
      exact ⟨hlen, rfl⟩
    · rintro ⟨hlen, rfl⟩
      exact ⟨bs, ⟨hlen, rfl⟩, rfl⟩
  | fixedString name size form =>
    rw [read]
    apply ((Reader.Reads.take size).map form.render).congr
    intro bs v
    rw [row_fixedString_iff]
    constructor
    · rintro ⟨_, ⟨hlen, rfl⟩, rfl⟩
      exact ⟨hlen, rfl⟩
    · rintro ⟨hlen, rfl⟩
      exact ⟨bs, ⟨hlen, rfl⟩, rfl⟩
  | nothing => exact .pure Value.null
  | nullable name inner ih => exact nullable_reads ih name
  | array name element ih =>
    rw [read]
    exact (counted_reads ih fun _ _ => minWidth_le element).map Value.array
  | tuple name elements ih =>
    rw [read]
    exact (readEach_reads ih).map Value.tuple
  | map name key value ihk ihv =>
    rw [read]
    apply ((counted_reads (pair_reads ihk ihv) fun _ _ => pair_minWidth_le).map fun ps =>
      Value.map (Pairs.ofList ps)).congr
    intro bs v
    rw [row_map_iff]
  | aggregateState name =>
    rw [read]
    exact .fail _
  | simpleAggregate name inner ih =>
    rw [read]
    exact ih

/-- Reading succeeds on the rows of the layout and on nothing else. -/
theorem read_eq_ok_iff (l : Layout) {buf : Bytes} {pos : Nat} (hpos : pos ≤ buf.length) (v : Value)
    (next : Nat) : l.read buf pos = .ok (v, next) ↔ pos ≤ next ∧ next ≤ buf.length ∧
      l.Row Reader.Room (buf.extract pos next) v :=
  (read_reads l).eq_ok_iff hpos

theorem read_overlong_count_odd_flag :
    let l : Layout := .array "Array(Nullable(Bool))" (.nullable "Nullable(Bool)" (.number .bool))
    let buf : Bytes := [9, 0x82, 0x00, 7, 0, 3, 5]
    let v : Value := .array [.null, .number (.bool true)]
    1 ≤ buf.length ∧ l.read buf 1 = .ok (v, 6) ∧ 1 ≤ 6 ∧ 6 ≤ buf.length ∧
      l.Row Reader.Room (buf.extract 1 6) v :=
  ⟨by decide, rfl, (read_eq_ok_iff _ (by decide) _ 6).1 rfl⟩

end Layout

end TypedColumn
