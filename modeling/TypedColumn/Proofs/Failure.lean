import TypedColumn.Proofs.Column.Grammar
import TypedColumn.Proofs.Parts

/-!
What failures say. A failure of reading names a place of the buffer that was reached, and says truly
how many bytes are left there; or it names a part of the layout that cannot be read, or an array
whose running totals decrease, with the totals as they are stored.
-/

namespace TypedColumn

variable {α β : Type}

inductive Fault.Located (buf : Bytes) (pos : Nat) : Fault → Prop
  | underrun {position needed available : Nat} : pos ≤ position → position ≤ buf.length →
      available = buf.length - position → available < needed →
      Located buf pos (.underrun position needed available)
  | lengthOverflow {position : Nat} : pos ≤ position → position ≤ buf.length →
      Located buf pos (.lengthOverflow position)

theorem Fault.Located.of_le {buf : Bytes} {pos pos' : Nat} {f : Fault} (h : f.Located buf pos')
    (hle : pos ≤ pos') : f.Located buf pos := by
  cases h with
  | underrun hposition hlen hleft hneeded =>
    exact .underrun (Nat.le_trans hle hposition) hlen hleft hneeded
  | lengthOverflow hposition hlen => exact .lengthOverflow (Nat.le_trans hle hposition) hlen

namespace Reader

theorem Reads.forward {r : Reader α} {G : Grammar α} (h : r.Reads G) {buf : Bytes} {pos next : Nat}
    {a : α} (hpos : pos ≤ buf.length) (hr : r buf pos = .ok (a, next)) :
    pos ≤ next ∧ next ≤ buf.length := by
  obtain ⟨hle, hlen, -⟩ := (h.eq_ok_iff hpos).1 hr
  exact ⟨hle, hlen⟩

structure Careful (S : Fault → Prop) (r : Reader α) : Prop where
  forward {buf : Bytes} {pos next : Nat} {a : α} : pos ≤ buf.length →
    r buf pos = .ok (a, next) → pos ≤ next ∧ next ≤ buf.length
  located {buf : Bytes} {pos : Nat} {f : Fault} : buf.length < greatestWord → pos ≤ buf.length →
    r buf pos = .error f → f.Located buf pos ∨ S f

namespace Careful

variable {S T : Fault → Prop} {r : Reader α}

theorem imp (h : r.Careful S) (hST : ∀ f, S f → T f) : r.Careful T where
  forward := h.forward
  located hbuf hpos hr := (h.located hbuf hpos hr).imp_right (hST _)

theorem pure (a : α) : (Pure.pure a : Reader α).Careful S where
  forward hpos hr := by
    cases hr
    exact ⟨Nat.le_refl _, hpos⟩
  located _ _ hr := nomatch hr

theorem fail {f : Fault} (hf : S f) : (Reader.fail f : Reader α).Careful S where
  forward _ hr := nomatch hr
  located _ _ hr := by
    cases hr
    exact .inr hf

theorem bind {f : α → Reader β} (h : r.Careful S) (hf : ∀ a, (f a).Careful S) :
    (r >>= f).Careful S where
  forward hpos hr := by
    obtain ⟨a, mid, hfirst, hrest⟩ := bind_eq_ok_iff.1 hr
    obtain ⟨hle, hlen⟩ := h.forward hpos hfirst
    obtain ⟨hle', hlen'⟩ := (hf a).forward hlen hrest
    exact ⟨Nat.le_trans hle hle', hlen'⟩
  located hbuf hpos hr := by
    obtain hfirst | ⟨a, mid, hfirst, hrest⟩ := bind_eq_error_iff.1 hr
    · exact h.located hbuf hpos hfirst
    · obtain ⟨hle, hlen⟩ := h.forward hpos hfirst
      exact ((hf a).located hbuf hlen hrest).imp_left fun located => located.of_le hle

theorem map (h : r.Careful S) (f : α → β) : (r >>= fun a => Pure.pure (f a)).Careful S :=
  h.bind fun a => pure (f a)

theorem replicate (h : r.Careful S) (n : Nat) : (Reader.replicate r n).Careful S := by
  induction n with
  | zero =>
    rw [replicate_zero]
    exact pure []
  | succ n ih =>
    rw [replicate_succ]
    exact h.bind fun a => ih.map (a :: ·)

theorem take (n : Nat) : (Reader.take n).Careful S where
  forward hpos hr := (Reads.take n).forward hpos hr
  located {buf pos f} _ hpos hr := by
    rw [Reader.take] at hr
    split at hr
    · cases hr
    · cases hr
      exact .inl (.underrun (Nat.le_refl pos) hpos rfl (by omega))

theorem byte : Reader.byte.Careful S where
  forward hpos hr := Reads.byte.forward hpos hr
  located {buf pos f} _ hpos hr := by
    rw [Reader.byte] at hr
    cases hget : buf[pos]? with
    | some b => simp [hget] at hr
    | none =>
      rw [hget] at hr
      cases hr
      have hlen := List.getElem?_eq_none_iff.1 hget
      exact .inl (.underrun (Nat.le_refl pos) hpos rfl (by omega))

theorem takeRows (rows width : Nat) : (Reader.takeRows rows width).Careful S where
  forward hpos hr := (takeRows_reads rows width).forward hpos hr
  located {buf pos f} hbuf hpos hr := by
    rw [Reader.takeRows] at hr
    split at hr
    · exact (take (rows * width)).located hbuf hpos hr
    · cases hr
      exact .inl (.underrun (Nat.le_refl pos) hpos rfl (by omega))

theorem words (rows : Nat) (swap : Bool) : (Reader.words rows swap).Careful S :=
  (takeRows rows 8).map _

theorem reserve (n size : Nat) : (Reader.reserve n size).Careful S where
  forward hpos hr := by
    obtain ⟨-, rfl⟩ := reserve_eq_ok_iff.1 hr
    exact ⟨Nat.le_refl _, hpos⟩
  located {buf pos f} _ hpos hr := by
    rw [Reader.reserve] at hr
    split at hr
    · cases hr
    · cases hr
      exact .inl (.lengthOverflow (Nat.le_refl pos) hpos)

theorem ensure (count width : Nat) : (Reader.ensure count width).Careful S where
  forward hpos hr := by
    obtain rfl := eq_of_ensure hr
    exact ⟨Nat.le_refl _, hpos⟩
  located {buf pos f} hbuf hpos hr := by
    rw [Reader.ensure] at hr
    split at hr
    · rename_i few
      cases hr
      -- the count was compared with a quotient
      have product : buf.length - pos < count * width := (Nat.div_lt_iff_lt_mul few.1).1 few.2
      exact .inl (.underrun (Nat.le_refl pos) hpos rfl (by omega))
    · cases hr

end Careful

end Reader

open Reader (Careful)

namespace CountPrefix

theorem groups_located {start room : Nat} {buf : Bytes} {pos : Nat} {f : Fault}
    (hbuf : buf.length < greatestWord) (hstart : start ≤ pos) (hpos : pos ≤ buf.length)
    (h : groups start room buf pos = .error f) : f.Located buf start := by
  have overlong : (Fault.lengthOverflow start).Located buf start :=
    .lengthOverflow (Nat.le_refl start) (Nat.le_trans hstart hpos)
  induction room generalizing pos with
  | zero =>
    cases h
    exact overlong
  | succ room ih =>
    rw [groups] at h
    obtain hbyte | ⟨b, mid, hbyte, hrest⟩ := Reader.bind_eq_error_iff.1 h
    · obtain located | none := (Careful.byte (S := fun _ => False)).located hbuf hpos hbyte
      · exact located.of_le hstart
      · exact none.elim
    · obtain ⟨hle, hlen⟩ := Reader.Reads.byte.forward hpos hbyte
      split at hrest
      · cases hrest
        exact overlong
      · split at hrest
        · cases hrest
        · exact ih (Nat.le_trans hstart hle) hlen (Reader.map_eq_error_iff.1 hrest)

theorem read_careful {S : Fault → Prop} : read.Careful S where
  forward hpos hr := read_reads.forward hpos hr
  located hbuf hpos hr := .inl (groups_located hbuf (Nat.le_refl _) hpos hr)

end CountPrefix

namespace Layout

inductive Lacks : Operation → Layout → Prop
  | row (name : String) : Lacks .readRow (.aggregateState name)
  | aggregateState (name : String) : Lacks .readColumn (.aggregateState name)
  | tuple (name : String) (elements : List Layout) : Lacks .readColumn (.tuple name elements)
  | map (name : String) (key value : Layout) : Lacks .readColumn (.map name key value)
  | simpleAggregate (name : String) (inner : Layout) :
      Lacks .readColumn (.simpleAggregate name inner)

inductive Denies (operation : Operation) (l : Layout) : Fault → Prop
  | unsupported {part : Layout} : part.PartOf l → part.Lacks operation →
      Denies operation l (.unsupported part.typeName operation)

theorem Denies.imp {operation : Operation} {l m : Layout} {f : Fault} (h : l.Denies operation f)
    (hlm : ∀ part : Layout, part.PartOf l → part.PartOf m) : m.Denies operation f := by
  cases h with
  | unsupported hpart hlacks => exact .unsupported (hlm _ hpart) hlacks

theorem counted_careful {S : Fault → Prop} {r : Reader α} (h : r.Careful S) (width size : Nat) :
    (counted width size r).Careful S :=
  CountPrefix.read_careful.bind fun n => (Careful.ensure n width).bind fun _ =>
    (Careful.reserve n size).bind fun _ => h.replicate n

theorem readString_careful {S : Fault → Prop} : readString.Careful S :=
  CountPrefix.read_careful.bind fun n => (Careful.take n).map Value.ofBytes

theorem readEach_careful {S : Fault → Prop} {ls : List Layout} (ih : ∀ l ∈ ls, (read l).Careful S) :
    (readEach ls).Careful S := by
  induction ls with
  | nil => exact .pure []
  | cons l ls ihs =>
    rw [List.forall_mem_cons] at ih
    rw [readEach]
    exact ih.1.bind fun v => (ihs ih.2).map (v :: ·)

theorem read_careful (l : Layout) : (read l).Careful (l.Denies .readRow) := by
  induction l with
  | number k =>
    rw [read]
    exact (Careful.take k.width).map _
  | string => exact readString_careful
  | uuid =>
    rw [read]
    exact (Careful.take 16).map _
  | fixedString name size form =>
    rw [read]
    exact (Careful.take size).map form.render
  | nothing => exact .pure Value.null
  | nullable name inner ih =>
    rw [read]
    refine Careful.byte.bind fun flag => ?_
    split
    · exact ih.imp fun _ h => h.imp fun _ => .nullable name
    · exact .pure Value.null
  | array name element ih =>
    rw [read]
    have elements := ih.imp fun _ h => h.imp fun _ => .array name
    exact (counted_careful elements _ _).map Value.array
  | tuple name elements ih =>
    rw [read]
    have each := readEach_careful fun l hl => (ih l hl).imp fun _ h => h.imp fun _ => .tuple name hl
    exact each.map Value.tuple
  | map name key value ihk ihv =>
    rw [read]
    have keys := ihk.imp fun _ h => h.imp fun _ => .key name value
    have values := ihv.imp fun _ h => h.imp fun _ => .value name key
    have pairs := keys.bind fun k => values.map (Prod.mk k)
    exact (counted_careful pairs _ _).map fun ps => Value.map (Pairs.ofList ps)
  | aggregateState name =>
    rw [read]
    exact .fail (.unsupported (.self _) (.row name))
  | simpleAggregate name inner ih =>
    rw [read]
    exact ih.imp fun _ h => h.imp fun _ => .simpleAggregate name

section Columns

variable (swap : Bool) (buf : Bytes)

/-- Reading so many rows of a layout from a place comes to reading so many rows of one of its parts
from another place. -/
inductive Asks : (l : Layout) → (rows pos : Nat) → (part : Layout) → (count place : Nat) → Prop
  | self (l : Layout) (rows pos : Nat) : Asks l rows pos l rows pos
  | nullable {name : String} {inner part : Layout} {rows pos mid count place : Nat}
      {flags : Bytes} : Reader.take rows buf pos = .ok (flags, mid) →
      Asks inner rows mid part count place →
      Asks (.nullable name inner) rows pos part count place
  -- the rows before are read, and the next one adds its elements to their total
  | array {name : String} {element part : Layout} {rows pos mid next total count place : Nat}
      {front back : List Nat} {vs : List Value} :
      Reader.words rows swap buf pos = .ok (front ++ total :: back, mid) →
      arrayRows name (readColumn swap element) 0 0 front buf mid = .ok (vs, next) →
      front.getLastD 0 ≤ total →
      Asks element (total - front.getLastD 0) next part count place →
      Asks (.array name element) rows pos part count place

inductive Decreases (l : Layout) (rows pos : Nat) : Fault → Prop
  | offsets {name : String} {element : Layout} {count place mid row previous current : Nat}
      {totals : List Nat} : Asks swap buf l rows pos (.array name element) count place →
      Reader.words count swap buf place = .ok (totals, mid) → 1 ≤ row → row < count →
      totals[row - 1]? = some previous → totals[row]? = some current → current < previous →
      (totals.take row).Pairwise (· ≤ ·) → Decreases l rows pos (.offsets name row previous current)

/-- All that the reading of a column can fail with. -/
inductive ColumnFault (l : Layout) (rows pos : Nat) (f : Fault) : Prop
  | located : f.Located buf pos → ColumnFault l rows pos f
  | denied : l.Denies .readColumn f → ColumnFault l rows pos f
  | decreases : Decreases swap buf l rows pos f → ColumnFault l rows pos f

end Columns

variable {swap : Bool} {buf : Bytes}

theorem ColumnFault.of_part {l part : Layout} {rows pos count place : Nat} {f : Fault}
    (h : ColumnFault swap buf part count place f) (hplace : pos ≤ place)
    (hpart : ∀ p : Layout, p.PartOf part → p.PartOf l)
    (hasks : ∀ {p n at'}, Asks swap buf part count place p n at' →
      Asks swap buf l rows pos p n at') : ColumnFault swap buf l rows pos f := by
  cases h with
  | located h => exact .located (h.of_le hplace)
  | denied h => exact .denied (h.imp hpart)
  | decreases h =>
    cases h with
    | offsets hpart hwords hrow hcount hprevious hcurrent hlt hsorted =>
      exact .decreases (.offsets (hasks hpart) hwords hrow hcount hprevious hcurrent hlt hsorted)

theorem columnFault_of_careful {l : Layout} {rows pos : Nat} {f : Fault} {r : Reader α}
    (h : r.Careful fun _ => False) (hbuf : buf.length < greatestWord) (hpos : pos ≤ buf.length)
    (hr : r buf pos = .error f) : ColumnFault swap buf l rows pos f := by
  obtain located | none := h.located hbuf hpos hr
  · exact .located located
  · exact none.elim

theorem arrayRows_failed {name : String} {elements : Nat → Reader (List Value)} {totals : List Nat}
    {row last pos : Nat} {f : Fault}
    (h : arrayRows name elements row last totals buf pos = .error f) :
    ∃ front total back, totals = front ++ total :: back ∧ (last :: front).Pairwise (· ≤ ·) ∧
      ((∃ vs next, arrayRows name elements row last front buf pos = .ok (vs, next) ∧
          front.getLastD last ≤ total ∧
          elements (total - front.getLastD last) buf next = .error f) ∨
        total < front.getLastD last ∧
          f = .offsets name (row + front.length) (front.getLastD last) total) := by
  induction totals generalizing row last pos with
  | nil => nomatch h
  | cons total totals ih =>
    rw [arrayRows] at h
    split at h
    · rename_i decreases
      cases h
      exact ⟨[], total, totals, rfl, List.pairwise_singleton _ last, .inr ⟨decreases, rfl⟩⟩
    · rename_i grows
      obtain helement | ⟨vs, mid, helement, hrest⟩ := Reader.bind_eq_error_iff.1 h
      · exact ⟨[], total, totals, rfl, List.pairwise_singleton _ last,
          .inl ⟨[], pos, rfl, Nat.le_of_not_lt grows, helement⟩⟩
      · have htail := Reader.map_eq_error_iff.1 hrest
        obtain ⟨front, stop, back, rfl, hsorted, hstop⟩ := ih htail
        refine ⟨total :: front, stop, back, rfl, ?_, ?_⟩
        · refine List.pairwise_cons.2 ⟨fun n hn => ?_, hsorted⟩
          obtain rfl | hn := List.mem_cons.1 hn
          · exact Nat.le_of_not_lt grows
          · exact Nat.le_trans (Nat.le_of_not_lt grows) ((List.pairwise_cons.1 hsorted).1 n hn)
        · rw [List.getLastD_cons]
          obtain ⟨rest, next, hrest, hgrows, hfail⟩ | ⟨hlt, hf⟩ := hstop
          · refine .inl ⟨.array vs :: rest, next, ?_, hgrows, hfail⟩
            rw [arrayRows, if_neg grows, Reader.bind_of_ok helement, Reader.bind_of_ok hrest]
            rfl
          · refine .inr ⟨hlt, ?_⟩
            rw [hf, List.length_cons]
            congr 1
            omega

theorem readColumn_eq_error_iff {l : Layout} {rows pos : Nat} {f : Fault} :
    readColumn swap l rows buf pos = .error f ↔ readRows swap l rows buf pos = .error f :=
  Reader.map_eq_error_iff

theorem rowsOf_careful {S : Fault → Prop} (rows width : Nat) : (rowsOf rows width).Careful S :=
  (Careful.takeRows rows width).map (Bytes.rows width rows)

theorem array_failed {name : String} {element : Layout}
    (ih : ∀ {rows pos f}, pos ≤ buf.length → readRows swap element rows buf pos = .error f →
      ColumnFault swap buf element rows pos f) {rows pos mid : Nat} {totals : List Nat} {f : Fault}
    (hpos : pos ≤ buf.length) (hwords : Reader.words rows swap buf pos = .ok (totals, mid))
    (h : arrayRows name (readColumn swap element) 0 0 totals buf mid = .error f) :
    ColumnFault swap buf (.array name element) rows pos f := by
  obtain ⟨hle, hlen⟩ := (words_reads rows swap).forward hpos hwords
  obtain ⟨-, -, -, -, hrows, -, -⟩ := (words_reads rows swap).sound hwords
  obtain ⟨front, total, back, rfl, hsorted, hstop⟩ := arrayRows_failed h
  rw [List.length_append, List.length_cons] at hrows
  obtain ⟨vs, next, hfront, hgrows, hfail⟩ | ⟨hlt, rfl⟩ := hstop
  · have before := arrayRows_reads (fun n => readColumn_reads swap element n)
      (fun _ _ _ => Stored.length_eq) name 0 0 front
    obtain ⟨hle', hlen'⟩ := before.forward hlen hfront
    exact (ih hlen' (readColumn_eq_error_iff.1 hfail)).of_part (Nat.le_trans hle hle')
      (fun _ => .array name) (.array hwords hfront hgrows)
  · -- the first total is compared with zero, so that there is a row before this one
    obtain rfl | ⟨front, previous, rfl⟩ := front.eq_nil_or_concat
    · exact absurd hlt (Nat.not_lt_zero total)
    · rw [List.concat_eq_append] at *
      rw [List.getLastD_concat] at hlt ⊢
      rw [Nat.zero_add]
      rw [List.length_append, List.length_singleton] at *
      refine .decreases (.offsets (.self _ rows pos) hwords (by omega) (by omega) ?_ ?_ hlt ?_)
      · simp
      · simp
      · rw [List.take_left' (by simp)]
        exact (List.pairwise_cons.1 hsorted).2

theorem denied_failed {l : Layout} (hlacks : l.Lacks .readColumn) {rows pos : Nat} {f : Fault}
    (h : Reader.fail (α := List Value) (.unsupported l.typeName .readColumn) buf pos = .error f) :
    ColumnFault swap buf l rows pos f := by
  cases h
  exact .denied (.unsupported (.self l) hlacks)

theorem readRows_failed (hbuf : buf.length < greatestWord) {l : Layout} {rows pos : Nat} {f : Fault}
    (hpos : pos ≤ buf.length) (h : readRows swap l rows buf pos = .error f) :
    ColumnFault swap buf l rows pos f := by
  induction l generalizing rows pos f with
  | number k => exact columnFault_of_careful ((rowsOf_careful rows k.width).map _) hbuf hpos h
  | string => exact columnFault_of_careful (readString_careful.replicate rows) hbuf hpos h
  | uuid => exact columnFault_of_careful ((rowsOf_careful rows 16).map _) hbuf hpos h
  | fixedString name size form =>
    exact columnFault_of_careful ((rowsOf_careful rows size).map _) hbuf hpos h
  | nothing => exact columnFault_of_careful ((Careful.reserve rows Value.size).map _) hbuf hpos h
  | nullable name inner ih =>
    obtain hflags | ⟨flags, mid, hflags, hrest⟩ := Reader.bind_eq_error_iff.1 h
    · exact columnFault_of_careful (Careful.take rows) hbuf hpos hflags
    · have hinner := Reader.map_eq_error_iff.1 hrest
      obtain ⟨hle, hlen⟩ := (Reader.Reads.take rows).forward hpos hflags
      exact (ih hlen hinner).of_part hle (fun _ => .nullable name) (.nullable hflags)
  | array name element ih =>
    obtain hwords | ⟨totals, mid, hwords, hrest⟩ := Reader.bind_eq_error_iff.1 h
    · exact columnFault_of_careful (Careful.words rows swap) hbuf hpos hwords
    · exact array_failed ih hpos hwords hrest
  | tuple name elements => exact denied_failed (.tuple name elements) h
  | map name key value => exact denied_failed (.map name key value) h
  | aggregateState name => exact denied_failed (.aggregateState name) h
  | simpleAggregate name inner => exact denied_failed (.simpleAggregate name inner) h

/-- Every failure of reading is an underrun or an overlong count at a place that was reached, or it
names a part that the operation refuses; a column can also fail with the first running total of an
array that is smaller than the one before it. -/
theorem failure_located (l : Layout) {buf : Bytes} {pos : Nat} (hbuf : buf.length < greatestWord)
    (hpos : pos ≤ buf.length) :
    (∀ f, l.read buf pos = .error f → f.Located buf pos ∨ l.Denies .readRow f) ∧
      ∀ swap rows f,
        l.readRows swap rows buf pos = .error f ∨ l.readColumn swap rows buf pos = .error f →
        f.Located buf pos ∨ l.Denies .readColumn f ∨ Decreases swap buf l rows pos f := by
  constructor
  · intro f h
    exact (read_careful l).located hbuf hpos h
  · intro swap rows f h
    rw [readColumn_eq_error_iff, or_self] at h
    cases readRows_failed hbuf hpos h with
    | located h => exact .inl h
    | denied h => exact .inr (.inl h)
    | decreases h => exact .inr (.inr h)

theorem failure_located_decreasing_inner_totals :
    let l : Layout := .nullable "Nullable(Array(String))" (.array "Array(String)" .string)
    let row : Bytes := [9, 0, 2, 1, 0x61, 3, 0x62]
    let column : Bytes := [9, 0, 0, 0, 1, 0, 0, 0, 0, 0, 0, 0, 1, 0, 0, 0, 0, 0, 0, 0,
      0, 0, 0, 0, 0, 0, 0, 0, 1, 0x61]
    let missing : Fault := .underrun 6 3 1
    let decrease : Fault := .offsets "Array(String)" 2 1 0
    (row.length < greatestWord ∧ 1 ≤ row.length ∧ l.read row 1 = .error missing ∧
      (missing.Located row 1 ∨ l.Denies .readRow missing)) ∧
      column.length < greatestWord ∧ 1 ≤ column.length ∧
        l.readRows false 3 column 1 = .error decrease ∧
        (decrease.Located column 1 ∨ l.Denies .readColumn decrease ∨
          Decreases false column l 3 1 decrease) := by
  intro l row column missing decrease
  have read : l.read row 1 = .error missing := by
    simp only [l, row, missing]
    rfl
  have readRows : l.readRows false 3 column 1 = .error decrease := rfl
  exact ⟨⟨by decide, by decide, read, (failure_located l (by decide) (by decide)).1 _ read⟩,
    by decide, by decide, readRows,
    (failure_located l (by decide) (by decide)).2 false 3 _ (.inl readRows)⟩

end Layout

end TypedColumn
