import TypedColumn.Proofs.Column.Scalar

namespace TypedColumn

variable {α : Type}

namespace Grammar

variable {G : Grammar α} {bs : Bytes}

theorem sequence_append_iff {as as' : List α} : Sequence G bs (as ++ as') ↔
    ∃ bs₁ bs₂, bs = bs₁ ++ bs₂ ∧ Sequence G bs₁ as ∧ Sequence G bs₂ as' := by
  induction as generalizing bs with
  | nil =>
    constructor
    · intro h
      exact ⟨[], bs, rfl, .nil, h⟩
    · rintro ⟨_, _, rfl, hnil, h⟩
      cases hnil
      exact h
  | cons a as ih =>
    constructor
    · intro h
      cases h with
      | cons ha hrest =>
        obtain ⟨bs₁, bs₂, rfl, has, has'⟩ := ih.1 hrest
        exact ⟨_, bs₂, (List.append_assoc _ bs₁ bs₂).symm, .cons ha has, has'⟩
    · rintro ⟨_, bs₂, rfl, hfirst, has'⟩
      cases hfirst with
      | @cons part bs₁ _ _ ha has =>
        rw [List.append_assoc]
        exact .cons ha (ih.2 ⟨bs₁, bs₂, rfl, has, has'⟩)

theorem sequence_flatten_iff {rows : List (List α)} :
    Sequence G bs rows.flatten ↔ Sequence (Sequence G) bs rows := by
  induction rows generalizing bs with
  | nil =>
    constructor
    · intro h
      cases h
      exact .nil
    · intro h
      cases h
      exact .nil
  | cons row rows ih =>
    rw [List.flatten_cons, sequence_append_iff]
    constructor
    · rintro ⟨_, _, rfl, hrow, hrows⟩
      exact .cons hrow (ih.1 hrows)
    · intro h
      cases h with
      | cons hrow hrows => exact ⟨_, _, rfl, hrow, ih.2 hrows⟩

end Grammar

open Grammar (Sequence)

namespace Layout

/-- What lies between each total and the one before it, which is `start` for the first. -/
def cutAt (as : List α) (start : Nat) (totals : List Nat) : List (List α) :=
  List.zipWith (fun i j => as.extract i j) (start :: totals) totals

section Cutting

variable {as : List α} {start : Nat} {totals : List Nat}

theorem cutAt_cons (as : List α) (start total : Nat) (totals : List Nat) :
    cutAt as start (total :: totals) = as.extract start total :: cutAt as total totals := rfl

theorem le_getLastD (h : (start :: totals).Pairwise (· ≤ ·)) : start ≤ totals.getLastD start := by
  induction totals generalizing start with
  | nil => exact Nat.le_refl start
  | cons total totals ih =>
    rw [List.pairwise_cons] at h
    rw [List.getLastD_cons]
    exact Nat.le_trans (h.1 total List.mem_cons_self) (ih h.2)

theorem extract_append_extract {i j k : Nat} (hij : i ≤ j) (hjk : j ≤ k) :
    as.extract i j ++ as.extract j k = as.extract i k := by
  have width : k - i = (j - i) + (k - j) := by omega
  have place : i + (j - i) = j := by omega
  rw [List.extract, List.extract, List.extract, width, List.take_add, List.drop_drop, place]

theorem flatten_cutAt (h : (start :: totals).Pairwise (· ≤ ·)) :
    (cutAt as start totals).flatten = as.extract start (totals.getLastD start) := by
  induction totals generalizing start with
  | nil =>
    rw [List.getLastD_nil, List.extract, Nat.sub_self, List.take_zero]
    rfl
  | cons total totals ih =>
    rw [List.pairwise_cons] at h
    rw [cutAt_cons, List.flatten_cons, ih h.2, List.getLastD_cons,
      extract_append_extract (h.1 total List.mem_cons_self) (le_getLastD h.2)]

theorem pairwise_zero (h : totals.Pairwise (· ≤ ·)) : (0 :: totals).Pairwise (· ≤ ·) :=
  List.pairwise_cons.2 ⟨fun n _ => Nat.zero_le n, h⟩

theorem flatten_cutAt_zero (h : totals.Pairwise (· ≤ ·)) (hlast : as.length = totals.getLastD 0) :
    (cutAt as 0 totals).flatten = as := by
  rw [flatten_cutAt (pairwise_zero h), ← hlast, List.extract, List.drop_zero, Nat.sub_zero,
    List.take_length]

theorem runningTotals_cutAt (h : (start :: totals).Pairwise (· ≤ ·))
    (hlast : totals.getLastD start ≤ as.length) :
    runningTotals start ((cutAt as start totals).map List.length) = totals := by
  induction totals generalizing start with
  | nil => rfl
  | cons total totals ih =>
    rw [List.pairwise_cons] at h
    rw [List.getLastD_cons] at hlast
    have first := h.1 total List.mem_cons_self
    have last := le_getLastD h.2
    have width : start + (as.extract start total).length = total := by
      rw [List.extract, List.length_take, List.length_drop]
      omega
    rw [cutAt_cons, List.map_cons, runningTotals, width, ih h.2 hlast]

theorem cutAt_runningTotals (front : List α) (rows : List (List α)) :
    cutAt (front ++ rows.flatten) front.length (runningTotals front.length (rows.map List.length)) =
      rows := by
  induction rows generalizing front with
  | nil => rfl
  | cons row rows ih =>
    have first : (front ++ (row ++ rows.flatten)).extract front.length
        (front.length + row.length) = row := by
      rw [List.extract, List.drop_left, Nat.add_sub_cancel_left, List.take_left]
    have others := ih (front ++ row)
    rw [List.length_append, List.append_assoc] at others
    rw [List.map_cons, runningTotals, cutAt_cons, List.flatten_cons, first, others]

theorem pairwise_runningTotals (last : Nat) (ns : List Nat) :
    (last :: runningTotals last ns).Pairwise (· ≤ ·) := by
  rw [← List.isChain_iff_pairwise]
  induction ns generalizing last with
  | nil => exact .singleton last
  | cons n ns ih => exact .cons_cons (Nat.le_add_right last n) (ih (last + n))

theorem getLastD_runningTotals (last : Nat) (rows : List (List α)) :
    (runningTotals last (rows.map List.length)).getLastD last = last + rows.flatten.length := by
  induction rows generalizing last with
  | nil => rfl
  | cons row rows ih =>
    rw [List.map_cons, runningTotals, List.getLastD_cons, ih, List.flatten_cons, List.length_append,
      Nat.add_assoc]

end Cutting

variable {swap : Bool} {element : Layout}

theorem Scalar.sequence_stored_iff (he : element.Scalar) {bs : Bytes} {rows : List (List Value)}
    (hword : bs.length ≤ greatestWord)
    (hroom : element = .nothing → rows.flatten.length ≤ Reader.capacity Value.size) :
    Sequence (fun part row => Stored swap element row.length part row) bs rows ↔
      Stored swap element rows.flatten.length bs rows.flatten := by
  have each {part : Bytes} {row : List Value} (hpart : part.length ≤ bs.length) (hrow : row ∈ rows) :
      Stored swap element row.length part row ↔ Sequence (Entry swap element) part row := by
    have size : row.length ≤ rows.flatten.length := (List.sublist_flatten_of_mem hrow).length_le
    rw [he.stored_iff_sequence (Nat.le_trans hpart hword) fun h => Nat.le_trans size (hroom h)]
    exact and_iff_right rfl
  rw [he.stored_iff_sequence hword hroom, and_iff_right rfl, Grammar.sequence_flatten_iff]
  constructor
  · intro h
    exact h.imp fun _ _ hpart hrow => (each hpart hrow).1
  · intro h
    exact h.imp fun _ _ hpart hrow => (each hpart hrow).2

theorem Scalar.arrayRows_eq_ok_iff (he : element.Scalar) (name : String) {totals : List Nat}
    (hroom : element = .nothing → totals.getLastD 0 ≤ Reader.capacity Value.size) {buf : Bytes}
    {pos next : Nat} {column : List Value} (hbuf : buf.length ≤ greatestWord) (hpos : pos ≤ buf.length) :
    arrayRows name (readColumn swap element) 0 0 totals buf pos = .ok (column, next) ↔
      totals.Pairwise (· ≤ ·) ∧ ∃ vs,
        readColumn swap element (totals.getLastD 0) buf pos = .ok (vs, next) ∧
          column = (cutAt vs 0 totals).map .array := by
  have size := Nat.le_trans (length_extract_le buf pos next) hbuf
  have reads := arrayRows_reads (readColumn_reads swap element) (fun _ _ _ => Stored.length_eq) name
    0 0 totals
  simp only [reads.eq_ok_iff hpos, (readColumn_reads swap element _).eq_ok_iff hpos]
  constructor
  · rintro ⟨hle, hlen, rows, rfl, hs, rfl⟩
    rw [getLastD_runningTotals, Nat.zero_add] at hroom ⊢
    exact ⟨(List.pairwise_cons.1 (pairwise_runningTotals 0 _)).2, rows.flatten,
      ⟨hle, hlen, (he.sequence_stored_iff size hroom).1 hs⟩,
      congrArg (List.map Value.array) (cutAt_runningTotals [] rows).symm⟩
  · rintro ⟨hsorted, vs, ⟨hle, hlen, hstored⟩, rfl⟩
    have count := hstored.length_eq
    have flat := flatten_cutAt_zero hsorted count
    have same := runningTotals_cutAt (pairwise_zero hsorted) (Nat.le_of_eq count.symm)
    refine ⟨hle, hlen, cutAt vs 0 totals, same.symm, ?_, rfl⟩
    rw [he.sequence_stored_iff size (by rwa [flat, count]), flat, count]
    exact hstored

theorem readRows_array (swap : Bool) (name : String) (element : Layout) (rows : Nat) :
    readRows swap (.array name element) rows =
      Reader.words rows swap >>= arrayRows name (readColumn swap element) 0 0 := rfl

theorem words_end {rows : Nat} {buf : Bytes} {pos next : Nat} {totals : List Nat}
    (h : Reader.words rows swap buf pos = .ok (totals, next)) :
    totals.length = rows ∧ next = pos + 8 * rows ∧ next ≤ buf.length := by
  have taken : Reader.words rows swap = rowsOf rows 8 >>= fun parts =>
      pure (parts.map fun row => Bytes.toNat (if swap then row.reverse else row)) := by
    rw [rowsOf, bind_assoc]
    rfl
  rw [taken, Reader.map_eq_ok_iff] at h
  obtain ⟨parts, hparts, rfl⟩ := h
  rw [rowsOf_apply] at hparts
  split at hparts
  · split at hparts
    · rename_i room
      cases hparts
      rw [List.length_map, Bytes.length_rows, Nat.mul_comm 8 rows]
      exact ⟨rfl, rfl, room⟩
    · cases hparts
  · cases hparts

theorem length_native (l : Layout) (vs : List Value) : (native l vs).length = vs.length := by
  induction l with
  | fixedString name size form => exact List.length_map _
  | nullable name inner ih => exact ih
  | _ => rfl

theorem flatten_cutAt_native {totals : List Nat} {flat : List Value} {buf : Bytes} {pos next : Nat}
    (hsorted : totals.Pairwise (· ≤ ·))
    (h : element.readRows swap (totals.getLastD 0) buf pos = .ok (flat, next)) :
    flat.length = totals.getLastD 0 ∧
      (cutAt (native element flat) 0 totals).flatten = native element flat := by
  have column : readColumn swap element (totals.getLastD 0) buf pos =
      .ok (native element flat, next) :=
    Reader.map_eq_ok_iff.2 ⟨flat, h, rfl⟩
  obtain ⟨bs, -, -, -, hstored⟩ := (readColumn_reads swap element _).sound column
  have count := hstored.length_eq
  exact ⟨(length_native element flat).symm.trans count, flatten_cutAt_zero hsorted count⟩

/-- Arrays of scalars are read as their totals and one column of all their elements, which the totals
cut into rows: nothing is lost, comes twice or changes its row. A total that is smaller than the one
before it fails the whole column. -/
theorem readRows_array_eq_ok_iff (he : element.Scalar) (name : String) (swap : Bool) (rows : Nat)
    {buf : Bytes} {pos : Nat} (hbuf : buf.length ≤ greatestWord)
    (hroom : element = .nothing → ∀ totals next,
      Reader.words rows swap buf pos = .ok (totals, next) →
        totals.getLastD 0 ≤ Reader.capacity Value.size) :
    (∀ column next, (Layout.array name element).readRows swap rows buf pos = .ok (column, next) ↔
      ∃ totals flat, Reader.words rows swap buf pos = .ok (totals, pos + 8 * rows) ∧
        totals.Pairwise (· ≤ ·) ∧
        element.readRows swap (totals.getLastD 0) buf (pos + 8 * rows) = .ok (flat, next) ∧
        column = (cutAt (native element flat) 0 totals).map .array) ∧
    (∀ totals flat next, totals.Pairwise (· ≤ ·) →
      element.readRows swap (totals.getLastD 0) buf (pos + 8 * rows) = .ok (flat, next) →
      flat.length = totals.getLastD 0 ∧
        (cutAt (native element flat) 0 totals).flatten = native element flat) ∧
    ∀ totals next, Reader.words rows swap buf pos = .ok (totals, next) →
      ¬totals.Pairwise (· ≤ ·) →
      ∃ f, (Layout.array name element).readRows swap rows buf pos = .error f := by
  have cut (column : List Value) (next : Nat) :
      (Layout.array name element).readRows swap rows buf pos = .ok (column, next) ↔
        ∃ totals flat, Reader.words rows swap buf pos = .ok (totals, pos + 8 * rows) ∧
          totals.Pairwise (· ≤ ·) ∧
          element.readRows swap (totals.getLastD 0) buf (pos + 8 * rows) = .ok (flat, next) ∧
          column = (cutAt (native element flat) 0 totals).map .array := by
    rw [readRows_array, Reader.bind_eq_ok_iff]
    constructor
    · rintro ⟨totals, mid, hwords, hrows⟩
      obtain ⟨-, rfl, hmid⟩ := words_end hwords
      rw [he.arrayRows_eq_ok_iff name (fun h => hroom h totals _ hwords) hbuf hmid] at hrows
      obtain ⟨hsorted, vs, hvs, rfl⟩ := hrows
      obtain ⟨flat, hflat, rfl⟩ := Reader.map_eq_ok_iff.1 hvs
      exact ⟨totals, flat, hwords, hsorted, hflat, rfl⟩
    · rintro ⟨totals, flat, hwords, hsorted, hflat, rfl⟩
      obtain ⟨-, -, hmid⟩ := words_end hwords
      refine ⟨totals, _, hwords, ?_⟩
      rw [he.arrayRows_eq_ok_iff name (fun h => hroom h totals _ hwords) hbuf hmid]
      exact ⟨hsorted, _, Reader.map_eq_ok_iff.2 ⟨flat, hflat, rfl⟩, rfl⟩
  refine ⟨cut, fun totals flat next => flatten_cutAt_native, fun totals next hwords hdecreases => ?_⟩
  cases hread : (Layout.array name element).readRows swap rows buf pos with
  | error f => exact ⟨f, rfl⟩
  | ok x =>
    obtain ⟨totals', -, hwords', hsorted, -⟩ := (cut x.1 x.2).1 hread
    rw [hwords] at hwords'
    cases hwords'
    exact absurd hsorted hdecreases

theorem readRows_array_empty_row :
    let element : Layout := .fixedString "FixedString(2)" 2 (.decode .utf8 .hex)
    let l : Layout := .array "Array(FixedString(2))" element
    let buf : Bytes := [9, 0, 0, 0, 0, 0, 0, 0, 1, 0, 0, 0, 0, 0, 0, 0, 1, 0, 0, 0, 0, 0, 0, 0, 2,
      0xc3, 0xa9, 0xff, 0xfe]
    let column : List Value := [.array [.string "é"], .array [], .array [.string "fffe"]]
    let broken : Bytes := [9, 0, 0, 0, 0, 0, 0, 0, 2, 0, 0, 0, 0, 0, 0, 0, 1,
      0xc3, 0xa9, 0xff, 0xfe]
    element.Scalar ∧ element ≠ .nothing ∧ buf.length ≤ greatestWord ∧ broken.length ≤ greatestWord ∧
      (l.readRows true 3 buf 1 = .ok (column, 29) ∧
        ∃ totals flat, Reader.words 3 true buf 1 = .ok (totals, 1 + 8 * 3) ∧
          totals.Pairwise (· ≤ ·) ∧
          element.readRows true (totals.getLastD 0) buf (1 + 8 * 3) = .ok (flat, 29) ∧
          column = (cutAt (native element flat) 0 totals).map .array ∧
          flat.length = totals.getLastD 0 ∧
          (cutAt (native element flat) 0 totals).flatten = native element flat) ∧
      Reader.words 2 true broken 1 = .ok ([2, 1], 17) ∧ ¬[2, 1].Pairwise (· ≤ ·) ∧
        ∃ f, l.readRows true 2 broken 1 = .error f := by
  intro element l buf column broken
  have scalar : element.Scalar := .fixedString _ 2 _
  have held : element ≠ .nothing := nofun
  have room {P : Prop} (h : element = .nothing) : P := absurd h held
  have size : buf.length ≤ greatestWord := by decide
  have brokenSize : broken.length ≤ greatestWord := by decide
  have read : l.readRows true 3 buf 1 = .ok (column, 29) := by
    simp only [l, element, buf, column]
    rfl
  have words : Reader.words 2 true broken 1 = .ok ([2, 1], 17) := rfl
  have decreases : ¬[2, 1].Pairwise (· ≤ ·) := by decide
  obtain ⟨cut, kept, -⟩ := readRows_array_eq_ok_iff scalar "Array(FixedString(2))" true 3 size room
  obtain ⟨totals, flat, hwords, hsorted, hflat, hcolumn⟩ := (cut column 29).1 read
  obtain ⟨count, whole⟩ := kept totals flat 29 hsorted hflat
  exact ⟨scalar, held, size, brokenSize,
    ⟨read, totals, flat, hwords, hsorted, hflat, hcolumn, count, whole⟩, words, decreases,
    (readRows_array_eq_ok_iff scalar _ true 2 brokenSize room).2.2 [2, 1] 17 words decreases⟩

end Layout

end TypedColumn
