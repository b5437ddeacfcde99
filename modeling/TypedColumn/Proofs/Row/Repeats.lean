import TypedColumn.Layout.Column
import TypedColumn.Proofs.Row.Grammar
import TypedColumn.Proofs.Successive

namespace TypedColumn

open Grammar (Sequence Counted)

namespace Layout

variable {room : Nat → Prop}

theorem wellKeyed_render (form : FixedForm) (bs : Bytes) : (form.render bs).WellKeyed := by
  obtain h | ⟨text, h⟩ := form.render_eq bs
  · rw [h]
    exact .bytes bs
  · rw [h]
    exact .string text

theorem wellKeyed_of_read {l : Layout} {buf : Bytes} {pos next : Nat} {v : Value}
    (h : l.read buf pos = .ok (v, next)) : v.WellKeyed := by
  obtain ⟨bs, rest, -, -, hrow⟩ := (read_reads l).sound h
  exact hrow.wellKeyed

section Columns

variable {swap : Bool} {vs : List Value}

theorem wellKeyed_maskNulls (h : ∀ v ∈ vs, v.WellKeyed) (flags : Bytes) :
    ∀ v ∈ maskNulls flags vs, v.WellKeyed := by
  induction vs generalizing flags with
  | nil => exact List.forall_mem_nil _
  | cons v vs ih =>
    rw [List.forall_mem_cons] at h
    cases flags with
    | nil => exact List.forall_mem_nil _
    | cons flag flags =>
      rw [maskNulls, List.zipWith_cons_cons, ← maskNulls, List.forall_mem_cons]
      refine ⟨?_, ih h.2 flags⟩
      split
      · exact h.1
      · exact .null

theorem wellKeyed_native (h : ∀ v ∈ vs, v.WellKeyed) (l : Layout) :
    ∀ v ∈ native l vs, v.WellKeyed := by
  induction l with
  | fixedString name size form =>
    refine List.forall_mem_map.2 fun v hv => ?_
    cases v with
    | bytes bs => exact wellKeyed_render form bs
    | _ => exact h _ hv
  | nullable name inner ih => exact ih
  | _ => exact h

theorem wellKeyed_arrayRows {elements : Nat → Reader (List Value)} {buf : Bytes}
    (h : ∀ {n pos vs next}, elements n buf pos = .ok (vs, next) → ∀ v ∈ vs, v.WellKeyed)
    {name : String} {row last : Nat} {totals : List Nat} {pos next : Nat}
    (hread : arrayRows name elements row last totals buf pos = .ok (vs, next)) :
    ∀ v ∈ vs, v.WellKeyed := by
  induction totals generalizing row last pos vs with
  | nil =>
    cases hread
    exact List.forall_mem_nil _
  | cons total totals ih =>
    rw [arrayRows] at hread
    split at hread
    · cases hread
    · obtain ⟨ws, mid, hfirst, hrest⟩ := Reader.bind_eq_ok_iff.1 hread
      obtain ⟨others, hothers, rfl⟩ := Reader.map_eq_ok_iff.1 hrest
      exact List.forall_mem_cons.2 ⟨.array (h hfirst), ih hothers⟩

theorem wellKeyed_of_readRows {l : Layout} {n : Nat} {buf : Bytes} {pos next : Nat}
    (h : l.readRows swap n buf pos = .ok (vs, next)) : ∀ v ∈ vs, v.WellKeyed := by
  induction l generalizing n pos next vs with
  | number k =>
    obtain ⟨parts, -, rfl⟩ := Reader.map_eq_ok_iff.1 h
    exact List.forall_mem_map.2 fun _ _ => .number _
  | string =>
    have first {pos next : Nat} {v : Value} (h : readString buf pos = .ok (v, next)) :
        v.WellKeyed := wellKeyed_of_read (l := .string) h
    exact (Reader.replicate_eq_ok_iff.1 h).2.forall first
  | uuid =>
    obtain ⟨parts, -, rfl⟩ := Reader.map_eq_ok_iff.1 h
    exact List.forall_mem_map.2 fun _ _ => .uuid _
  | fixedString name size form =>
    obtain ⟨parts, -, rfl⟩ := Reader.map_eq_ok_iff.1 h
    exact List.forall_mem_map.2 fun _ _ => .bytes _
  | nothing =>
    obtain ⟨_, -, rfl⟩ := Reader.map_eq_ok_iff.1 h
    intro v hv
    rw [List.eq_of_mem_replicate hv]
    exact .null
  | nullable name inner ih =>
    obtain ⟨flags, mid, -, hrest⟩ := Reader.bind_eq_ok_iff.1 h
    obtain ⟨ws, hws, rfl⟩ := Reader.map_eq_ok_iff.1 hrest
    exact wellKeyed_maskNulls (ih hws) flags
  | array name element ih =>
    obtain ⟨totals, mid, -, hrows⟩ := Reader.bind_eq_ok_iff.1 h
    refine wellKeyed_arrayRows (fun {n pos ws next} hws => ?_) hrows
    obtain ⟨raw, hraw, rfl⟩ := Reader.map_eq_ok_iff.1 hws
    exact wellKeyed_native (ih hraw) element
  | _ => cases h

theorem wellKeyed_of_readColumn {l : Layout} {n : Nat} {buf : Bytes} {pos next : Nat}
    (h : l.readColumn swap n buf pos = .ok (vs, next)) : ∀ v ∈ vs, v.WellKeyed := by
  obtain ⟨raw, hraw, rfl⟩ := Reader.map_eq_ok_iff.1 h
  exact wellKeyed_native (wellKeyed_of_readRows hraw) l

end Columns

def readPair (key value : Layout) : Reader (Value × Value) := do
  let k ← read key
  let v ← read value
  return (k, v)

theorem wellKeyed_of_readPair {key value : Layout} {buf : Bytes} {pos next : Nat}
    {p : Value × Value} (h : readPair key value buf pos = .ok (p, next)) :
    p.1.WellKeyed ∧ p.2.WellKeyed := by
  obtain ⟨k, mid, hk, hrest⟩ := Reader.bind_eq_ok_iff.1 h
  obtain ⟨v, hv, rfl⟩ := Reader.map_eq_ok_iff.1 hrest
  exact ⟨wellKeyed_of_read hk, wellKeyed_of_read hv⟩

theorem read_map_eq_ok {name : String} {key value : Layout} {buf : Bytes} {pos next : Nat}
    {v : Value} (h : (Layout.map name key value).read buf pos = .ok (v, next)) :
    ∃ count mid ps m, CountPrefix.read buf pos = .ok (count, mid) ∧ ps.length = count ∧
      (readPair key value).Successive buf mid ps next ∧ v = .map m ∧ Pairs.Merges ps m := by
  rw [read] at h
  obtain ⟨ps, hps, rfl⟩ := Reader.map_eq_ok_iff.1 h
  obtain ⟨n, mid, hcount, -, hmembers⟩ := of_counted hps
  obtain ⟨hlen, hs⟩ := Reader.replicate_eq_ok_iff.1 hmembers
  exact ⟨n, mid, ps, _, hcount, hlen, hs, rfl,
    Pairs.merges_ofList (hs.forall wellKeyed_of_readPair)⟩

/-- A map is the pairs that were read one after another, with repeated keys merged, and no map at any
depth of what is read has two keys that are the same. -/
theorem read_merges_repeats :
    (∀ {name : String} {key value : Layout} {buf : Bytes} {pos next : Nat} {v : Value},
      (Layout.map name key value).read buf pos = .ok (v, next) →
      ∃ count mid ps m, CountPrefix.read buf pos = .ok (count, mid) ∧ ps.length = count ∧
        (readPair key value).Successive buf mid ps next ∧ v = .map m ∧ Pairs.Merges ps m) ∧
    (∀ {l : Layout} {buf : Bytes} {pos next : Nat} {v : Value},
      l.read buf pos = .ok (v, next) → ∀ m, (Value.map m).Inside v → Pairs.Apart m) ∧
    ∀ {swap : Bool} {l : Layout} {n : Nat} {buf : Bytes} {pos next : Nat} {vs : List Value},
      l.readRows swap n buf pos = .ok (vs, next) ∨ l.readColumn swap n buf pos = .ok (vs, next) →
      ∀ v ∈ vs, ∀ m, (Value.map m).Inside v → Pairs.Apart m := by
  refine ⟨read_map_eq_ok, ?_, ?_⟩
  · intro l buf pos next v h m hm
    exact (Value.WellKeyed.of_inside hm (wellKeyed_of_read h)).apart
  · intro swap l n buf pos next vs h v hv m hm
    have keyed := h.elim wellKeyed_of_readRows wellKeyed_of_readColumn
    exact (Value.WellKeyed.of_inside hm (keyed v hv)).apart

theorem read_merges_repeats_keys_out_of_order :
    let inner : Layout := .map "Map(String, Bool)" .string (.number .bool)
    let l : Layout := .map "Map(Map(String, Bool), String)" inner .string
    let buf : Bytes := [3, 2, 1, 97, 1, 1, 98, 0, 1, 120, 2, 1, 97, 0, 1, 97, 1, 1, 121,
      2, 1, 98, 0, 1, 97, 1, 1, 122]
    let both : Pairs := [(.string "a", .number (.bool true)), (.string "b", .number (.bool false))]
    let one : Pairs := [(.string "a", .number (.bool true))]
    let m : Pairs := [(.map both, .string "z"), (.map one, .string "y")]
    l.read buf 0 = .ok (.map m, 28) ∧
      (∃ count mid ps m', CountPrefix.read buf 0 = .ok (count, mid) ∧ ps.length = count ∧
        (readPair inner .string).Successive buf mid ps 28 ∧ Value.map m = .map m' ∧
        Pairs.Merges ps m') ∧
      (Value.map both).Inside (.map m) ∧ both.Apart ∧
      (Layout.array "Array(String)" .string).readColumn false 1 (1 :: List.replicate 8 0) 0 =
        .ok ([.array [.string ""]], 9) ∧
      ∀ m, (Value.map m).Inside (.array [.string ""]) → Pairs.Apart m := by
  intro inner l buf both one m
  have read : l.read buf 0 = .ok (.map m, 28) := by
    simp only [l, inner, buf, m, both, one]
    rfl
  have inside : (Value.map both).Inside (.map m) := .key (List.mem_cons_self ..) (.self _)
  have column : (Layout.array "Array(String)" .string).readColumn false 1
      (1 :: List.replicate 8 0) 0 = .ok ([.array [.string ""]], 9) := rfl
  obtain ⟨merges, apart, apartInColumns⟩ := read_merges_repeats
  exact ⟨read, merges read, inside, apart read both inside, column,
    apartInColumns (.inr column) _ (List.mem_singleton_self _)⟩

end Layout

end TypedColumn
