import TypedColumn.Proofs.Row.RoundTrip

namespace TypedColumn

open Grammar (Sequence)

namespace Layout

theorem framed_refuse (l : Layout) (v : Value) : (refuse l v).Framed := Writer.framed_fail _

theorem framed_counted {α : Type} {w : α → Writer} (h : ∀ a, (w a).Framed) (as : List α) :
    ((CountPrefix.write as.length).andThen (Writer.forEach w as)).Framed :=
  (Writer.framed_append _).andThen (Writer.framed_forEach h as)

theorem appends_counted_iff {α : Type} {w : α → Writer} (h : ∀ a, (w a).Framed) {bs : Bytes}
    {as : List α} : ((CountPrefix.write as.length).andThen (Writer.forEach w as)).Appends bs ↔
      ∃ es, bs = CountPrefix.toBytes as.length ++ es ∧
        Sequence (fun bs a => (w a).Appends bs) es as := by
  have count := Writer.appends_append (CountPrefix.toBytes as.length)
  rw [CountPrefix.write, (Writer.framed_append _).appends_andThen_iff (Writer.framed_forEach h as)]
  constructor
  · rintro ⟨bs₁, es, rfl, hcount, hs⟩
    exact ⟨es, by rw [hcount.unique count], (Writer.appends_forEach_iff h).1 hs⟩
  · rintro ⟨es, rfl, hs⟩
    exact ⟨_, es, rfl, count, Writer.appends_forEach hs⟩

theorem framed_writeString (bs : Bytes) : (writeString bs).Framed :=
  (Writer.framed_append _).andThen (Writer.framed_append bs)

theorem framed_writeFixed (name : String) (form : FixedForm) (v : Value) :
    (writeFixed name form v).Framed := by
  unfold writeFixed
  split
  · exact Writer.framed_append _
  · split
    · exact Writer.framed_append _
    · exact Writer.framed_fail _
  · exact Writer.framed_fail _

theorem framed_writeEach {ls : List Layout} (ih : ∀ l ∈ ls, ∀ v, (write l v).Framed)
    (vs : List Value) : (writeEach ls vs).Framed := by
  induction ls generalizing vs with
  | nil =>
    unfold writeEach
    exact Writer.framed_skip
  | cons l ls ihs =>
    rw [List.forall_mem_cons] at ih
    cases vs with
    | nil =>
      unfold writeEach
      exact Writer.framed_skip
    | cons v vs => exact (ih.1 v).andThen (ihs ih.2 vs)

theorem framed_write (l : Layout) (v : Value) : (write l v).Framed := by
  induction l generalizing v with
  | number k =>
    cases v with
    | number n =>
      rw [write]
      split
      · exact Writer.framed_append _
      · exact framed_refuse _ _
    | _ => exact framed_refuse (.number k) _
  | string =>
    cases v with
    | string text => exact framed_writeString _
    | bytes bs => exact framed_writeString bs
    | _ => exact framed_refuse .string _
  | uuid =>
    cases v with
    | uuid u => exact Writer.framed_append _
    | _ => exact framed_refuse .uuid _
  | fixedString name size form =>
    rw [write]
    exact framed_writeFixed name form v
  | nothing =>
    rw [write]
    exact Writer.framed_skip
  | nullable name inner ih =>
    by_cases hv : v = .null
    · subst hv
      exact Writer.framed_append [1]
    · rw [write_nullable hv]
      exact (Writer.framed_append [0]).andThen (ih v)
  | array name element ih =>
    cases v with
    | array vs => exact framed_counted ih vs
    | _ => exact Writer.framed_fail _
  | tuple name elements ih =>
    cases v with
    | tuple vs =>
      rw [write]
      split
      · exact framed_writeEach ih vs
      · exact Writer.framed_fail _
    | _ => exact Writer.framed_fail _
  | map name key value ihk ihv =>
    cases v with
    | map ps => exact framed_counted (fun p => (ihk p.1).andThen (ihv p.2)) ps
    | _ => exact Writer.framed_fail _
  | aggregateState name =>
    rw [write]
    exact Writer.framed_fail _
  | simpleAggregate name inner ih =>
    rw [write]
    exact ih v

def Encodes (l : Layout) (bs : Bytes) (v : Value) : Prop := l.write v [] = (.ok (), bs)

theorem encodes_iff {l : Layout} {bs : Bytes} {v : Value} :
    l.Encodes bs v ↔ (l.write v).Appends bs := (framed_write l v).appends_iff.symm

theorem length_of_encodes_number {k : NumberKind} {bs : Bytes} {v : Value}
    (h : Encodes (.number k) bs v) : bs.length = k.width := by
  cases v with
  | number n =>
    rw [Encodes, write] at h
    split at h
    · rename_i kind
      cases h
      rw [List.nil_append, n.length_toBytes, kind]
    · cases h
  | _ => cases h

theorem length_of_encodes_uuid {bs : Bytes} {v : Value} (h : Encodes .uuid bs v) :
    bs.length = 16 := by
  cases v with
  | uuid u =>
    cases h
    exact u.length_toWire
  | _ => cases h

mutual
def Exact : Layout → Value → Prop
  | .fixedString name size form, v => ∀ bs, Encodes (.fixedString name size form) bs v →
      bs.length = size
  | .nullable _ inner, v => v = .null ∨ Exact inner v
  | .array _ element, .array vs => ∀ v ∈ vs, Exact element v
  | .tuple _ elements, .tuple vs => ExactEach elements vs
  | .map _ key value, .map ps => ∀ p ∈ ps, Exact key p.1 ∧ Exact value p.2
  | .simpleAggregate _ inner, v => Exact inner v
  | _, _ => True
def ExactEach : List Layout → List Value → Prop
  | l :: ls, v :: vs => Exact l v ∧ ExactEach ls vs
  | _, _ => True
end

structure Accepts (l : Layout) (v : Value) : Prop where
  storable : v.Storable
  encodes : ∃ bs, l.Encodes bs v
  exact : l.Exact v

theorem Accepts.present {name : String} {inner : Layout} {v : Value}
    (h : Accepts (.nullable name inner) v) (hv : v ≠ .null) : Accepts inner v where
  storable := h.storable
  encodes := by
    obtain ⟨bs, hbs⟩ := h.encodes
    rw [encodes_iff, write_nullable hv,
      (Writer.framed_append [0]).appends_andThen_iff (framed_write inner v)] at hbs
    obtain ⟨-, bs', -, -, happ⟩ := hbs
    exact ⟨bs', encodes_iff.2 happ⟩
  exact := h.exact.resolve_left hv

theorem Accepts.of_mem {name : String} {element : Layout} {vs : List Value}
    (h : Accepts (.array name element) (.array vs)) {v : Value} (hv : v ∈ vs) :
    Accepts element v where
  storable := by
    cases h.storable with
    | array _ hs => exact hs v hv
  encodes := by
    obtain ⟨bs, hbs⟩ := h.encodes
    obtain ⟨es, -, hs⟩ := (appends_counted_iff (framed_write element)).1 (encodes_iff.1 hbs)
    obtain ⟨part, -, hpart⟩ := hs.exists_of_mem hv
    exact ⟨part, encodes_iff.2 hpart⟩
  exact := h.exact v hv

end Layout

end TypedColumn
