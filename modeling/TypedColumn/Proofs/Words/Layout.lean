import TypedColumn.Layout.Column
import TypedColumn.Proofs.Width
import TypedColumn.Proofs.Words.CountPrefix

namespace TypedColumn

namespace Layout

mutual
/-- Sizes are words, and so are the sums of the widths of a tuple's elements and of a key and its
value. -/
def Fits : Layout → Prop
  | .fixedString _ size _ => size ≤ greatestWord
  | .nullable _ inner => Fits inner
  | .array _ element => Fits element
  | .tuple _ elements => leastWidths elements ≤ greatestWord ∧ FitsEach elements
  | .map _ key value => leastWidth key + leastWidth value ≤ greatestWord ∧ Fits key ∧ Fits value
  | .simpleAggregate _ inner => Fits inner
  | _ => True
def FitsEach : List Layout → Prop
  | [] => True
  | l :: ls => Fits l ∧ FitsEach ls
end

mutual
/-- Sizes are words, whatever the widths add up to. -/
def SizesFit : Layout → Prop
  | .fixedString _ size _ => size ≤ greatestWord
  | .nullable _ inner => SizesFit inner
  | .array _ element => SizesFit element
  | .tuple _ elements => SizesFitEach elements
  | .map _ key value => SizesFit key ∧ SizesFit value
  | .simpleAggregate _ inner => SizesFit inner
  | _ => True
def SizesFitEach : List Layout → Prop
  | [] => True
  | l :: ls => SizesFit l ∧ SizesFitEach ls
end

mutual
def wordWidth (mode : Overflow) : Layout → Except Halt UInt64
  | .number k => .ok (UInt64.ofNat k.width)
  | .string => .ok 1
  | .uuid => .ok 16
  | .fixedString _ size _ => .ok (UInt64.ofNat size)
  | .nothing => .ok 0
  | .nullable _ _ => .ok 1
  | .array _ _ => .ok 1
  | .tuple _ elements => wordWidths mode elements 0
  | .map _ _ _ => .ok 1
  | .aggregateState _ => .ok 0
  | .simpleAggregate _ inner => wordWidth mode inner
def wordWidths (mode : Overflow) : List Layout → UInt64 → Except Halt UInt64
  | [], sum => .ok sum
  | l :: ls, sum => do wordWidths mode ls (← mode.add sum (← wordWidth mode l))
end

def pairWidth (mode : Overflow) (key value : Layout) : Except Halt UInt64 := do
  mode.add (← wordWidth mode key) (← wordWidth mode value)

mutual
/-- On words the widths come to those that reading counts with. -/
def Measured (mode : Overflow) : Layout → Prop
  | .fixedString _ size _ => size ≤ greatestWord
  | .nullable _ inner => Measured mode inner
  | .array _ element => (∃ w, wordWidth mode element = .ok w ∧ w.toNat = minWidth element) ∧
      Measured mode element
  | .tuple _ elements => MeasuredEach mode elements
  | .map _ key value => (∃ w, pairWidth mode key value = .ok w ∧
      w.toNat = addWords (minWidth key) (minWidth value)) ∧ Measured mode key ∧ Measured mode value
  | .simpleAggregate _ inner => Measured mode inner
  | _ => True
def MeasuredEach (mode : Overflow) : List Layout → Prop
  | [] => True
  | l :: ls => Measured mode l ∧ MeasuredEach mode ls
end

end Layout

namespace WordReader

variable {α : Type}

def counted (mode : Overflow) (width : Except Halt UInt64) (size : Nat) (element : WordReader α) :
    WordReader (List α) := do
  let n ← readCount mode
  let w ← lift width
  check (Reader.ensure n.toNat w.toNat)
  check (Reader.reserve n.toNat size)
  replicate element n.toNat

def readString (mode : Overflow) : WordReader Value := do
  let n ← readCount mode
  return Value.ofBytes (← take mode n)

def rowsOf (mode : Overflow) (rows : UInt64) (width : Nat) : WordReader (List Bytes) := do
  return Bytes.rows width rows.toNat (← takeRows mode rows (UInt64.ofNat width))

def arrayRows (mode : Overflow) (name : String) (elements : UInt64 → WordReader (List Value)) :
    (row : Nat) → (last : UInt64) → List UInt64 → WordReader (List Value)
  | _, _, [] => pure []
  | row, last, total :: totals =>
    if total < last then fail (.offsets name row last.toNat total.toNat)
    else do
      let vs ← elements (← lift (mode.sub total last))
      return .array vs :: (← arrayRows mode name elements (row + 1) total totals)

end WordReader

namespace Layout

mutual
def wordRead (mode : Overflow) : Layout → WordReader Value
  | .number k => do
    return .number (Number.ofBytes (← WordReader.take mode (UInt64.ofNat k.width)) k)
  | .string => WordReader.readString mode
  | .uuid => do return .uuid (Uuid.ofRow (← WordReader.take mode 16))
  | .fixedString _ size form => do
    return form.render (← WordReader.take mode (UInt64.ofNat size))
  | .nothing => pure .null
  | .nullable _ inner => do
    let flag ← WordReader.byte mode
    if flag = 0 then wordRead mode inner else return .null
  | .array _ element => do
    let width := wordWidth mode element
    return .array (← WordReader.counted mode width Value.size (wordRead mode element))
  | .tuple _ elements => do return .tuple (← wordReadEach mode elements)
  | .map _ key value => do
    let pairs ← WordReader.counted mode (pairWidth mode key value) Pairs.entrySize (do
      let k ← wordRead mode key
      let v ← wordRead mode value
      return (k, v))
    return .map (Pairs.ofList pairs)
  | .aggregateState name => WordReader.fail (.unsupported name .readRow)
  | .simpleAggregate _ inner => wordRead mode inner
def wordReadEach (mode : Overflow) : List Layout → WordReader (List Value)
  | [] => pure []
  | l :: ls => do
    let v ← wordRead mode l
    return v :: (← wordReadEach mode ls)
end

def wordReadRows (mode : Overflow) (swap : Bool) : Layout → UInt64 → WordReader (List Value)
  | .number k, rows => do
    return (← WordReader.rowsOf mode rows k.width).map fun bs =>
      .number (Number.ofBytes (if swap then bs.reverse else bs) k)
  | .string, rows => WordReader.replicate (WordReader.readString mode) rows.toNat
  | .uuid, rows => do
    return (← WordReader.rowsOf mode rows 16).map fun bs => .uuid (Uuid.ofWire bs)
  | .fixedString _ size _, rows => do return (← WordReader.rowsOf mode rows size).map .bytes
  | .nothing, rows => do
    WordReader.check (Reader.reserve rows.toNat Value.size)
    return List.replicate rows.toNat .null
  | .nullable _ inner, rows => do
    let flags ← WordReader.take mode rows
    return maskNulls flags (← wordReadRows mode swap inner rows)
  | .array name element, rows => do
    let totals ← WordReader.words mode rows swap
    WordReader.arrayRows mode name
      (fun n => do return native element (← wordReadRows mode swap element n)) 0 0 totals
  | .tuple name _, _ => WordReader.fail (.unsupported name .readColumn)
  | .map name _ _, _ => WordReader.fail (.unsupported name .readColumn)
  | .aggregateState name, _ => WordReader.fail (.unsupported name .readColumn)
  | .simpleAggregate name _, _ => WordReader.fail (.unsupported name .readColumn)

theorem fitsEach_iff {ls : List Layout} : FitsEach ls ↔ ∀ l ∈ ls, l.Fits := by
  induction ls with
  | nil => exact iff_of_true trivial (List.forall_mem_nil _)
  | cons l ls ih => rw [FitsEach, ih, List.forall_mem_cons]

theorem sizesFitEach_iff {ls : List Layout} : SizesFitEach ls ↔ ∀ l ∈ ls, l.SizesFit := by
  induction ls with
  | nil => exact iff_of_true trivial (List.forall_mem_nil _)
  | cons l ls ih => rw [SizesFitEach, ih, List.forall_mem_cons]

theorem measuredEach_iff {mode : Overflow} {ls : List Layout} :
    MeasuredEach mode ls ↔ ∀ l ∈ ls, l.Measured mode := by
  induction ls with
  | nil => exact iff_of_true trivial (List.forall_mem_nil _)
  | cons l ls ih => rw [MeasuredEach, ih, List.forall_mem_cons]

theorem width_le_word (k : NumberKind) : k.width ≤ greatestWord := by
  have small : ∀ k ∈ NumberKind.all, k.width ≤ greatestWord := by decide
  exact small k k.mem_all

section Width

variable (mode : Overflow)

theorem wordWidths_exact {ls : List Layout}
    (ih : ∀ l ∈ ls, ∃ w, wordWidth mode l = .ok w ∧ w.toNat = leastWidth l)
    {before : UInt64} (hsum : before.toNat + leastWidths ls ≤ greatestWord) :
    ∃ w, wordWidths mode ls before = .ok w ∧ w.toNat = before.toNat + leastWidths ls := by
  induction ls generalizing before with
  | nil => exact ⟨before, rfl, rfl⟩
  | cons l ls ihs =>
    rw [List.forall_mem_cons] at ih
    rw [leastWidths, ← Nat.add_assoc] at hsum ⊢
    obtain ⟨w, hw, hto⟩ := ih.1
    rw [← hto] at hsum ⊢
    obtain ⟨next, hadd, hnext⟩ := mode.add_exact (Nat.le_trans (Nat.le_add_right _ _) hsum)
    rw [← hnext] at hsum ⊢
    rw [wordWidths, hw]
    change ∃ total, (mode.add before w >>= wordWidths mode ls) = .ok total ∧ _
    rw [hadd]
    exact ihs ih.2 hsum

theorem wordWidth_exact {l : Layout} (hl : l.Fits) :
    ∃ w, wordWidth mode l = .ok w ∧ w.toNat = leastWidth l := by
  induction l with
  | number k => exact ⟨_, rfl, Overflow.toNat_ofNat (width_le_word k)⟩
  | fixedString name size form => exact ⟨_, rfl, Overflow.toNat_ofNat hl⟩
  | tuple name elements ih =>
    obtain ⟨hsum, helements⟩ := hl
    have zero : (0 : UInt64).toNat = 0 := rfl
    rw [← Nat.zero_add (leastWidths elements), ← zero] at hsum
    obtain ⟨w, hw, hto⟩ := wordWidths_exact mode
      (fun l hmem => ih l hmem (fitsEach_iff.1 helements l hmem)) hsum
    rw [zero, Nat.zero_add] at hto
    exact ⟨w, hw, hto⟩
  | simpleAggregate name inner ih => exact ih hl
  | _ => exact ⟨_, rfl, rfl⟩

theorem wordWidth_fits {l : Layout} (hl : l.Fits) :
    ∃ w, wordWidth mode l = .ok w ∧ w.toNat = minWidth l := by
  obtain ⟨w, hw, hto⟩ := wordWidth_exact mode hl
  exact ⟨w, hw, hto.trans (minWidth_eq_leastWidth l (hto ▸ Nat.le_of_lt_succ w.toNat_lt)).symm⟩

theorem pairWidth_fits {key value : Layout} (hkey : key.Fits) (hvalue : value.Fits)
    (hsum : leastWidth key + leastWidth value ≤ greatestWord) :
    ∃ w, pairWidth mode key value = .ok w ∧ w.toNat = addWords (minWidth key) (minWidth value) := by
  have hleast := Nat.le_trans (Nat.add_le_add (minWidth_le_leastWidth key)
    (minWidth_le_leastWidth value)) hsum
  obtain ⟨k, hk, htok⟩ := wordWidth_fits mode hkey
  obtain ⟨v, hv, htov⟩ := wordWidth_fits mode hvalue
  rw [addWords_of_le hleast]
  rw [← htok, ← htov] at hleast ⊢
  rw [pairWidth, hk, hv]
  exact mode.add_exact hleast

theorem Fits.measured {l : Layout} (hl : l.Fits) : l.Measured mode := by
  induction l with
  | fixedString name size form => exact hl
  | nullable name inner ih => exact ih hl
  | array name element ih => exact ⟨wordWidth_fits mode (l := element) hl, ih hl⟩
  | tuple name elements ih =>
    exact measuredEach_iff.2 fun l hmem => ih l hmem (fitsEach_iff.1 hl.2 l hmem)
  | map name key value ihk ihv =>
    obtain ⟨hsum, hkey, hvalue⟩ := hl
    exact ⟨pairWidth_fits mode hkey hvalue hsum, ihk hkey, ihv hvalue⟩
  | simpleAggregate name inner ih => exact ih hl
  | _ => trivial

theorem Fits.sizesFit {l : Layout} (hl : l.Fits) : l.SizesFit := by
  induction l with
  | fixedString name size form => exact hl
  | nullable name inner ih => exact ih hl
  | array name element ih => exact ih hl
  | tuple name elements ih =>
    exact sizesFitEach_iff.2 fun l hmem => ih l hmem (fitsEach_iff.1 hl.2 l hmem)
  | map name key value ihk ihv => exact ⟨ihk hl.2.1, ihv hl.2.2⟩
  | simpleAggregate name inner ih => exact ih hl
  | _ => trivial

end Width

section Wrapping

theorem wordWidths_wraps {ls : List Layout}
    (ih : ∀ l ∈ ls, ∃ w, wordWidth .wraps l = .ok w ∧ w.toNat = minWidth l) (before : UInt64) :
    ∃ w, wordWidths .wraps ls before = .ok w ∧
      w.toNat = addWords before.toNat (minWidths ls) := by
  induction ls generalizing before with
  | nil =>
    have word : before.toNat + minWidths [] ≤ greatestWord := Nat.le_of_lt_succ before.toNat_lt
    exact ⟨before, rfl, (addWords_of_le word).symm⟩
  | cons l ls ihs =>
    rw [List.forall_mem_cons] at ih
    obtain ⟨w, hw, hto⟩ := ih.1
    obtain ⟨next, hadd, hnext⟩ := Overflow.add_wraps before w
    rw [minWidths, ← addWords_assoc, ← hto, ← hnext, wordWidths, hw]
    change ∃ total, (Overflow.wraps.add before w >>= wordWidths .wraps ls) = .ok total ∧ _
    rw [hadd]
    exact ihs ih.2 next

theorem minWidths_le_greatestWord (ls : List Layout) : minWidths ls ≤ greatestWord := by
  cases ls with
  | nil => exact Nat.zero_le _
  | cons l ls => exact Nat.le_of_lt_succ (Nat.mod_lt _ (by decide))

/-- A sum that no word holds begins again at zero, as it does for `minWidth`. -/
theorem wordWidth_wraps {l : Layout} (hl : l.SizesFit) :
    ∃ w, wordWidth .wraps l = .ok w ∧ w.toNat = minWidth l := by
  induction l with
  | number k => exact ⟨_, rfl, Overflow.toNat_ofNat (width_le_word k)⟩
  | fixedString name size form => exact ⟨_, rfl, Overflow.toNat_ofNat hl⟩
  | tuple name elements ih =>
    obtain ⟨w, hw, hto⟩ :=
      wordWidths_wraps (fun l hmem => ih l hmem (sizesFitEach_iff.1 hl l hmem)) 0
    have word : (0 : UInt64).toNat + minWidths elements ≤ greatestWord :=
      (Nat.zero_add _).symm ▸ minWidths_le_greatestWord elements
    rw [addWords_of_le word] at hto
    exact ⟨w, hw, hto.trans (Nat.zero_add _)⟩
  | simpleAggregate name inner ih => exact ih hl
  | _ => exact ⟨_, rfl, rfl⟩

theorem pairWidth_wraps {key value : Layout} (hkey : key.SizesFit) (hvalue : value.SizesFit) :
    ∃ w, pairWidth .wraps key value = .ok w ∧
      w.toNat = addWords (minWidth key) (minWidth value) := by
  obtain ⟨k, hk, htok⟩ := wordWidth_wraps hkey
  obtain ⟨v, hv, htov⟩ := wordWidth_wraps hvalue
  rw [pairWidth, hk, hv, ← htok, ← htov]
  exact Overflow.add_wraps k v

theorem SizesFit.measured {l : Layout} (hl : l.SizesFit) : l.Measured .wraps := by
  induction l with
  | fixedString name size form => exact hl
  | nullable name inner ih => exact ih hl
  | array name element ih => exact ⟨wordWidth_wraps (l := element) hl, ih hl⟩
  | tuple name elements ih =>
    exact measuredEach_iff.2 fun l hmem => ih l hmem (sizesFitEach_iff.1 hl l hmem)
  | map name key value ihk ihv =>
    exact ⟨pairWidth_wraps hl.1 hl.2, ihk hl.1, ihv hl.2⟩
  | simpleAggregate name inner ih => exact ih hl
  | _ => trivial

end Wrapping

end Layout

section Sized

variable {buf : Bytes} (hbuf : buf.length ≤ greatestWord) (mode : Overflow)
include hbuf

namespace WordReader

omit hbuf in
theorem reserve_follows (n : UInt64) (size : Nat) :
    Follows Eq buf (check (Reader.reserve n.toNat size)) (Reader.reserve n.toNat size) :=
  .check fun _ _ hroom => (Reader.reserve_eq_ok_iff.1 hroom).2

theorem counted_follows {α : Type} {width : Except Halt UInt64} {least : Nat}
    (hwidth : ∃ w, width = .ok w ∧ w.toNat = least) {s : WordReader α} {r : Reader α}
    (h : Follows Eq buf s r) (size : Nat) :
    Follows Eq buf (counted mode width size s) (Layout.counted least size r) := by
  obtain ⟨w, rfl, rfl⟩ := hwidth
  refine (readCount_follows hbuf mode).bind ?_
  rintro n _ rfl
  rw [lift_ok_bind rfl]
  refine (Follows.check fun _ _ => Reader.eq_of_ensure).bind fun _ _ _ => ?_
  exact (reserve_follows n size).bind fun _ _ _ => h.replicate n.toNat

theorem readString_follows : Follows Eq buf (readString mode) Layout.readString := by
  refine (readCount_follows hbuf mode).bind ?_
  rintro n _ rfl
  exact (take_follows hbuf mode n).map fun _ _ => congrArg Value.ofBytes

theorem rowsOf_follows {width : Nat} (hwidth : width ≤ greatestWord) (rows : UInt64) :
    Follows Eq buf (rowsOf mode rows width) (Layout.rowsOf rows.toNat width) := by
  have spans := takeRows_follows hbuf mode rows (UInt64.ofNat width)
  rw [Overflow.toNat_ofNat hwidth] at spans
  exact spans.map fun _ _ => congrArg _

omit hbuf in
theorem arrayRows_follows (name : String) {s : UInt64 → WordReader (List Value)}
    {r : Nat → Reader (List Value)} (h : ∀ n : UInt64, Follows Eq buf (s n) (r n.toNat))
    {totals : List UInt64} {ns : List Nat} (htotals : List.Forall₂ Stands totals ns) (row : Nat)
    (last : UInt64) :
    Follows Eq buf (arrayRows mode name s row last totals)
      (Layout.arrayRows name r row last.toNat ns) := by
  induction htotals generalizing row last with
  | nil => exact .pure rfl
  | @cons total n totals ns htotal _ ih =>
    obtain rfl : total.toNat = n := htotal
    rw [arrayRows, Layout.arrayRows]
    by_cases hlt : total < last
    · rw [if_pos hlt, if_pos (UInt64.lt_iff_toNat_lt.1 hlt)]
      exact .fail _
    · obtain ⟨count, hsub, hcount⟩ := mode.sub_exact (UInt64.not_lt.1 hlt)
      rw [if_neg hlt, if_neg (mt UInt64.lt_iff_toNat_lt.2 hlt), lift_ok_bind hsub, ← hcount]
      refine (h count).bind ?_
      rintro vs _ rfl
      exact (ih (row + 1) total).map fun _ _ => congrArg _

end WordReader

namespace Layout

open WordReader

omit hbuf in
theorem wordReadEach_follows {ls : List Layout}
    (ih : ∀ l ∈ ls, Follows Eq buf (wordRead mode l) (read l)) :
    Follows Eq buf (wordReadEach mode ls) (readEach ls) := by
  induction ls with
  | nil => exact .pure rfl
  | cons l ls ihs =>
    rw [List.forall_mem_cons] at ih
    refine ih.1.bind ?_
    rintro v _ rfl
    exact (ihs ih.2).map fun _ _ => congrArg _

theorem wordRead_follows {l : Layout} (hl : l.Measured mode) :
    Follows Eq buf (wordRead mode l) (read l) := by
  induction l with
  | number k =>
    exact (take_ofNat_follows hbuf mode (width_le_word k)).map fun _ _ h => by rw [h]
  | string => exact readString_follows hbuf mode
  | uuid => exact (take_follows hbuf mode 16).map fun _ _ h => by rw [h]
  | fixedString name size form =>
    exact (take_ofNat_follows hbuf mode hl).map fun _ _ h => by rw [h]
  | nothing => exact .pure rfl
  | nullable name inner ih =>
    refine (byte_follows hbuf mode).bind ?_
    rintro flag _ rfl
    by_cases hflag : flag = 0
    · rw [if_pos hflag, if_pos hflag]
      exact ih hl
    · rw [if_neg hflag, if_neg hflag]
      exact .pure rfl
  | array name element ih =>
    obtain ⟨hwidth, helement⟩ := hl
    exact (counted_follows hbuf mode hwidth (ih helement) _).map fun _ _ => congrArg _
  | tuple name elements ih =>
    exact (wordReadEach_follows mode fun l hmem =>
      ih l hmem (measuredEach_iff.1 hl l hmem)).map fun _ _ => congrArg _
  | map name key value ihk ihv =>
    obtain ⟨hwidth, hkey, hvalue⟩ := hl
    refine (counted_follows hbuf mode hwidth ?_ _).map fun _ _ h => by rw [h]
    refine (ihk hkey).bind ?_
    rintro k _ rfl
    exact (ihv hvalue).map fun _ _ => congrArg _
  | aggregateState name => exact .fail _
  | simpleAggregate name inner ih => exact ih hl

theorem wordReadRows_follows (swap : Bool) {l : Layout} (hl : l.SizesFit) (rows : UInt64) :
    Follows Eq buf (wordReadRows mode swap l rows) (readRows swap l rows.toNat) := by
  induction l generalizing rows with
  | number k =>
    exact (rowsOf_follows hbuf mode (width_le_word k) rows).map fun _ _ => congrArg _
  | string => exact (readString_follows hbuf mode).replicate _
  | uuid =>
    have small : 16 ≤ greatestWord := by decide
    exact (rowsOf_follows hbuf mode small rows).map fun _ _ => congrArg _
  | fixedString name size form =>
    exact (rowsOf_follows hbuf mode hl rows).map fun _ _ => congrArg _
  | nothing =>
    exact (reserve_follows rows Value.size).map fun _ _ _ => rfl
  | nullable name inner ih =>
    refine (take_follows hbuf mode rows).bind ?_
    rintro flags _ rfl
    exact (ih hl rows).map fun _ _ => congrArg _
  | array name element ih =>
    refine (words_follows hbuf mode rows swap).bind fun totals ns htotals => ?_
    have columns (n : UInt64) := (ih hl n).map (f := native element) (g := native element)
      fun _ _ => congrArg _
    exact arrayRows_follows mode name columns htotals 0 0
  | _ => exact .fail _

/-- Reading on words, where an operation without a result may wrap around or halt, ends like
reading with unbounded counts and positions: no operation is without a result and no bytes are taken
from outside the buffer. This is so from every position, also beyond the buffer, and for every
number of rows. -/
theorem reading_on_words {l : Layout} (hl : l.Fits) (pos : UInt64) :
    Matches Eq (wordRead mode l buf pos) (read l buf pos.toNat) ∧
      ∀ swap rows, Matches Eq (wordReadRows mode swap l rows buf pos)
        (readRows swap l rows.toNat buf pos.toNat) :=
  ⟨wordRead_follows hbuf mode (hl.measured mode) pos,
    fun swap rows => wordReadRows_follows hbuf mode swap hl.sizesFit rows pos⟩

end Layout

end Sized

theorem Layout.reading_on_words_greatest :
    let wide : Layout := .fixedString "FixedString(18446744073709551614)" (greatestWord - 1) .raw
    let pairs : Layout := .map "Map(String, FixedString(18446744073709551614))" .string wide
    let count : Bytes := [7, 0xff, 0xff, 0xff, 0xff, 0xff, 0xff, 0xff, 0xff, 0xff, 0x01]
    let leaf : Layout := .fixedString "FixedString(1)" 1 .raw
    let arrays : Layout := .array "Array(Nullable(FixedString(1)))"
      (.nullable "Nullable(FixedString(1))" leaf)
    let column : Bytes := [7, 0, 0, 0, 0, 0, 0, 0, 1, 0, 0, 0, 0, 0, 0, 0, 3] ++
      [0, 0x61, 1, 0, 0x62, 0x63]
    let vs : List Value := [.array [.bytes [0x61]], .array [.null, .bytes [0x63]]]
    (pairs.Fits ∧ count.length ≤ greatestWord ∧
        WordReader.Matches Eq (pairs.wordRead .wraps count 1)
          (.error (.underrun 11 greatestWord 0)) ∧
        WordReader.Matches Eq (pairs.wordRead .halts count 0xffffffffffffffff)
          (.error (.underrun greatestWord 1 0))) ∧
      arrays.Fits ∧ column.length ≤ greatestWord ∧
        WordReader.Matches Eq (arrays.wordReadRows .halts true 2 column 1) (.ok (vs, 23)) ∧
        WordReader.Matches Eq (arrays.wordReadRows .wraps true 0xffffffffffffffff column 1)
          (.error (.underrun 1 greatestWord 22)) := by
  intro wide pairs count leaf arrays column vs
  have hpairs : pairs.Fits := ⟨by decide, trivial, Nat.sub_le _ _⟩
  have harrays : arrays.Fits := (by decide : 1 ≤ greatestWord)
  have hcount : count.length ≤ greatestWord := by decide
  have hcolumn : column.length ≤ greatestWord := by decide
  have first : pairs.read count 1 = .error (.underrun 11 greatestWord 0) := by
    simp only [pairs, count, wide]
    cbv
  have far : pairs.read count greatestWord = .error (.underrun greatestWord 1 0) := by
    simp only [pairs, count, wide]
    cbv
  have rows : arrays.readRows true 2 column 1 = .ok (vs, 23) := rfl
  have many : arrays.readRows true greatestWord column 1 =
      .error (.underrun 1 greatestWord 22) := by
    simp only [arrays, leaf, column]
    cbv
  exact ⟨⟨hpairs, hcount, first ▸ (reading_on_words hcount .wraps hpairs 1).1,
      far ▸ (reading_on_words hcount .halts hpairs 0xffffffffffffffff).1⟩,
    harrays, hcolumn, rows ▸ (reading_on_words hcolumn .halts harrays 1).2 true 2,
    many ▸ (reading_on_words hcolumn .wraps harrays 1).2 true 0xffffffffffffffff⟩

/-- Where operations wrap around, widths may add up to more than a word: reading counts with what is
left of them. -/
theorem Layout.wrapped_reading_on_words {buf : Bytes} (hbuf : buf.length ≤ greatestWord)
    {l : Layout} (hl : l.SizesFit) (pos : UInt64) :
    WordReader.Matches Eq (l.wordRead .wraps buf pos) (l.read buf pos.toNat) ∧
      ∀ swap rows, WordReader.Matches Eq (l.wordReadRows .wraps swap rows buf pos)
        (l.readRows swap rows.toNat buf pos.toNat) :=
  ⟨wordRead_follows hbuf .wraps hl.measured pos,
    fun swap rows => wordReadRows_follows hbuf .wraps swap hl rows pos⟩

example :
    let wide : Layout := .fixedString "FixedString(9223372036854775808)" 0x8000000000000000 .raw
    let pairs : Layout :=
      .map "Map(FixedString(9223372036854775808), FixedString(9223372036854775808))" wide wide
    pairs.SizesFit ∧ ¬pairs.Fits ∧ pairs.read [1] 0 = .error (.underrun 1 0x8000000000000000 0) := by
  intro wide pairs
  have size : wide.SizesFit := (by decide : 0x8000000000000000 ≤ greatestWord)
  refine ⟨⟨size, size⟩, fun fits => absurd fits.1 (by decide), ?_⟩
  simp only [pairs, wide]
  cbv

end TypedColumn
