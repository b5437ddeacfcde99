import TypedColumn.Proofs.Partners
import TypedColumn.Reader
import TypedColumn.Writer

/-!
Grammars: which bytes stand for which result. A reader agrees with a grammar when it takes what the
grammar has, wherever that stands, and takes nothing else. Readers that are put together agree with
grammars that are put together in the same way; the same holds of writers and what they append.
-/

namespace TypedColumn

abbrev Grammar (α : Type) := Bytes → α → Prop

variable {α β : Type}

theorem length_extract_le (as : List α) (i j : Nat) : (as.extract i j).length ≤ as.length := by
  rw [List.extract, List.length_take, List.length_drop]
  omega

namespace Grammar

inductive Sequence (G : Grammar α) : Bytes → List α → Prop
  | nil : Sequence G [] []
  | cons {bs bs' : Bytes} {a : α} {as : List α} :
      G bs a → Sequence G bs' as → Sequence G (bs ++ bs') (a :: as)

inductive Pair (G : Grammar α) (H : Grammar β) : Bytes → α × β → Prop
  | mk {bs bs' : Bytes} {a : α} {b : β} :
      G bs a → H bs' b → Pair G H (bs ++ bs') (a, b)

variable {G H : Grammar α}

theorem Sequence.imp {bs : Bytes} {as : List α} (hs : Sequence G bs as)
    (h : ∀ part a, part.length ≤ bs.length → a ∈ as → G part a → H part a) : Sequence H bs as := by
  induction hs with
  | nil => exact .nil
  | @cons bs bs' a as ha _ ih =>
    rw [List.length_append] at h
    refine .cons (h bs a (by omega) (by simp) ha) (ih fun part b hpart hb => ?_)
    exact h part b (by omega) (by simp [hb])

theorem Sequence.mono {bs : Bytes} {as : List α} (hs : Sequence G bs as)
    (h : ∀ bs a, G bs a → H bs a) : Sequence H bs as := hs.imp fun part a _ _ => h part a

theorem sequence_congr (h : ∀ bs a, G bs a ↔ H bs a) {bs : Bytes} {as : List α} :
    Sequence G bs as ↔ Sequence H bs as :=
  ⟨fun hs => hs.mono fun bs a => (h bs a).1, fun hs => hs.mono fun bs a => (h bs a).2⟩

theorem exists_sequence {I : Grammar β} {as : List α} {bs : List β}
    (h : List.Forall₂ (fun a b => ∃ e, G e a ∧ I e b) as bs) :
    ∃ e, Sequence G e as ∧ Sequence I e bs := by
  induction h with
  | nil => exact ⟨[], .nil, .nil⟩
  | cons hab _ ih =>
    obtain ⟨e, ha, hb⟩ := hab
    obtain ⟨e', has, hbs⟩ := ih
    exact ⟨e ++ e', .cons ha has, .cons hb hbs⟩

theorem sequence_iff_parts {bs : Bytes} {as : List α} :
    Sequence G bs as ↔ ∃ parts : List Bytes, bs = parts.flatten ∧ List.Forall₂ G parts as := by
  constructor
  · intro h
    induction h with
    | nil => exact ⟨[], rfl, .nil⟩
    | @cons part _ _ _ ha _ ih =>
      obtain ⟨parts, rfl, hp⟩ := ih
      exact ⟨part :: parts, rfl, .cons ha hp⟩
  · rintro ⟨parts, rfl, h⟩
    induction h with
    | nil => exact .nil
    | cons ha _ ih => exact .cons ha ih

theorem Sequence.exists_of_mem {bs : Bytes} {as : List α} (hs : Sequence G bs as) {a : α}
    (ha : a ∈ as) : ∃ part, part.length ≤ bs.length ∧ G part a := by
  induction hs with
  | nil => cases ha
  | cons hfirst _ ih =>
    rw [List.length_append]
    rcases List.mem_cons.1 ha with rfl | ha
    · exact ⟨_, Nat.le_add_right _ _, hfirst⟩
    · obtain ⟨part, hle, hpart⟩ := ih ha
      exact ⟨part, Nat.le_add_left_of_le hle, hpart⟩

theorem Sequence.length_mul_le {width : Nat} (h : ∀ bs a, G bs a → width ≤ bs.length)
    {bs : Bytes} {as : List α} (hs : Sequence G bs as) : as.length * width ≤ bs.length := by
  induction hs with
  | nil => simp
  | cons ha _ ih =>
    have first := h _ _ ha
    rw [List.length_cons, List.length_append, Nat.succ_mul]
    omega

end Grammar

namespace Reader

def Yields (r : Reader α) (bs : Bytes) (a : α) : Prop := ∀ out rest,
  r (out ++ bs ++ rest) out.length = .ok (a, out.length + bs.length)

namespace Yields

variable {r : Reader α}

theorem pure (a : α) : (Pure.pure a : Reader α).Yields [] a := fun _ _ => rfl

theorem bind {f : α → Reader β} {bs bs' : Bytes} {a : α} {b : β} (h : r.Yields bs a)
    (h' : (f a).Yields bs' b) : (r >>= f).Yields (bs ++ bs') b := by
  intro out rest
  have first := h out (bs' ++ rest)
  have second := h' (out ++ bs) rest
  simp only [List.append_assoc, List.length_append, Nat.add_assoc] at first second ⊢
  rw [bind_of_ok first, second]

theorem map {bs : Bytes} {a : α} (h : r.Yields bs a) (f : α → β) :
    (r >>= fun a => Pure.pure (f a)).Yields bs (f a) := by
  have both := h.bind (f := fun a => Pure.pure (f a)) (pure (f a))
  rwa [List.append_nil] at both

theorem take (bs : Bytes) : (Reader.take bs.length).Yields bs bs := by
  intro out rest
  simp [Reader.take]

end Yields

/-- The reader takes from any place the bytes that the grammar has, and no others. -/
structure Reads (r : Reader α) (G : Grammar α) : Prop where
  sound {buf : Bytes} {pos next : Nat} {a : α} : r buf pos = .ok (a, next) →
    ∃ bs rest, buf.drop pos = bs ++ rest ∧ next = pos + bs.length ∧ G bs a
  complete {bs : Bytes} {a : α} : G bs a → r.Yields bs a

namespace Reads

variable {r : Reader α} {G H : Grammar α}

theorem congr (h : r.Reads G) (hGH : ∀ bs a, G bs a ↔ H bs a) : r.Reads H where
  sound hr := by
    obtain ⟨bs, rest, hbuf, hnext, ha⟩ := h.sound hr
    exact ⟨bs, rest, hbuf, hnext, (hGH bs _).1 ha⟩
  complete ha := h.complete ((hGH _ _).2 ha)

theorem pure (a : α) : (Pure.pure a : Reader α).Reads fun bs b => bs = [] ∧ b = a where
  sound hr := by
    cases hr
    exact ⟨[], _, rfl, rfl, rfl, rfl⟩
  complete h := by
    obtain ⟨rfl, rfl⟩ := h
    exact Yields.pure _

theorem fail (f : Fault) : (Reader.fail f : Reader α).Reads fun _ _ => False where
  sound hr := by cases hr
  complete h := h.elim

theorem bind {f : α → Reader β} {F : α → Grammar β} (h : r.Reads G) (hf : ∀ a, (f a).Reads (F a)) :
    (r >>= f).Reads fun bs b => ∃ bs₁ bs₂ a, bs = bs₁ ++ bs₂ ∧ G bs₁ a ∧ F a bs₂ b where
  sound hr := by
    obtain ⟨a, mid, hread, hread'⟩ := bind_eq_ok_iff.1 hr
    obtain ⟨bs₁, rest, hbuf, rfl, ha⟩ := h.sound hread
    obtain ⟨bs₂, rest', hbuf', rfl, hb⟩ := (hf a).sound hread'
    rw [← List.drop_drop, hbuf, List.drop_left] at hbuf'
    refine ⟨bs₁ ++ bs₂, rest', ?_, ?_, bs₁, bs₂, a, rfl, ha, hb⟩
    · rw [hbuf, hbuf', List.append_assoc]
    · rw [List.length_append, Nat.add_assoc]
  complete hb := by
    obtain ⟨bs₁, bs₂, a, rfl, ha, hb⟩ := hb
    exact (h.complete ha).bind ((hf a).complete hb)

theorem map (h : r.Reads G) (f : α → β) :
    (r >>= fun a => Pure.pure (f a)).Reads fun bs b => ∃ a, G bs a ∧ b = f a := by
  apply (h.bind fun a => pure (f a)).congr
  intro bs b
  constructor
  · rintro ⟨bs₁, bs₂, a, rfl, ha, rfl, rfl⟩
    exact ⟨a, by rwa [List.append_nil], rfl⟩
  · rintro ⟨a, ha, rfl⟩
    exact ⟨bs, [], a, (List.append_nil bs).symm, ha, rfl, rfl⟩

theorem take (n : Nat) : (Reader.take n).Reads fun bs a => bs.length = n ∧ a = bs where
  sound {buf pos next a} hr := by
    rw [Reader.take] at hr
    split at hr
    · rename_i room
      cases hr
      have size : ((buf.drop pos).take n).length = n := by
        rw [List.length_take, List.length_drop]
        omega
      exact ⟨_, _, (List.take_append_drop n _).symm, by rw [size], size, rfl⟩
    · cases hr
  complete {bs a} h := by
    obtain ⟨rfl, rfl⟩ := h
    exact Yields.take a

theorem byte : Reader.byte.Reads fun bs b => bs = [b] where
  sound {buf pos next b} hr := by
    rw [Reader.byte] at hr
    cases hget : buf[pos]? with
    | none => simp [hget] at hr
    | some c =>
      simp only [hget, Except.ok.injEq, Prod.mk.injEq] at hr
      obtain ⟨rfl, rfl⟩ := hr
      obtain ⟨hlt, rfl⟩ := List.getElem?_eq_some_iff.1 hget
      exact ⟨_, _, List.drop_eq_getElem_cons hlt, rfl, rfl⟩
  complete {bs b} h := by
    subst h
    intro out rest
    simp [Reader.byte]

theorem replicate (h : r.Reads G) (n : Nat) :
    (Reader.replicate r n).Reads fun bs as => as.length = n ∧ Grammar.Sequence G bs as := by
  induction n with
  | zero =>
    rw [replicate_zero]
    apply (pure []).congr
    intro bs as
    constructor
    · rintro ⟨rfl, rfl⟩
      exact ⟨rfl, .nil⟩
    · rintro ⟨hlen, hs⟩
      cases hs with
      | nil => exact ⟨rfl, rfl⟩
      | cons => cases hlen
  | succ n ih =>
    rw [replicate_succ]
    apply (h.bind fun a => ih.map (a :: ·)).congr
    intro bs as
    constructor
    · rintro ⟨bs₁, bs₂, a, rfl, ha, as, ⟨rfl, hs⟩, rfl⟩
      exact ⟨rfl, .cons ha hs⟩
    · rintro ⟨hlen, hs⟩
      cases hs with
      | nil => cases hlen
      | cons ha hs =>
        exact ⟨_, _, _, rfl, ha, _, ⟨Nat.succ.inj hlen, hs⟩, rfl⟩

theorem eq_ok_iff (h : r.Reads G) {buf : Bytes} {pos next : Nat} {a : α} (hpos : pos ≤ buf.length) :
    r buf pos = .ok (a, next) ↔
      pos ≤ next ∧ next ≤ buf.length ∧ G (buf.extract pos next) a := by
  constructor
  · intro hr
    obtain ⟨bs, rest, hbuf, rfl, ha⟩ := h.sound hr
    have size := congrArg List.length hbuf
    rw [List.length_drop, List.length_append] at size
    refine ⟨by omega, by omega, ?_⟩
    rwa [List.extract, hbuf, Nat.add_sub_cancel_left, List.take_left]
  · rintro ⟨hle, hlen, ha⟩
    have size : (buf.extract pos next).length = next - pos := by
      rw [List.extract, List.length_take, List.length_drop]
      omega
    have whole : buf.take pos ++ buf.extract pos next ++ buf.drop next = buf := by
      have tail : buf.drop next = (buf.drop pos).drop (next - pos) := by
        rw [List.drop_drop, Nat.add_sub_cancel' hle]
      rw [tail, List.append_assoc, List.extract, List.take_append_drop, List.take_append_drop]
    have hr := h.complete ha (buf.take pos) (buf.drop next)
    rw [whole, size, List.length_take, Nat.min_eq_left hpos, Nat.add_sub_cancel' hle] at hr
    exact hr

end Reads

end Reader

namespace Writer

def Appends (w : Writer) (bs : Bytes) : Prop := ∀ out, w out = (.ok (), out ++ bs)

theorem appends_skip : skip.Appends [] := by
  intro out
  rw [skip_apply, List.append_nil]

theorem appends_append (bs : Bytes) : (append bs).Appends bs := fun out => append_apply bs out

theorem Appends.unique {w : Writer} {bs bs' : Bytes} (h : w.Appends bs) (h' : w.Appends bs') :
    bs = bs' := by
  have both := h []
  rw [h', List.nil_append, List.nil_append] at both
  exact (congrArg Prod.snd both).symm

theorem Appends.andThen {w w' : Writer} {bs bs' : Bytes} (h : w.Appends bs) (h' : w'.Appends bs') :
    (w.andThen w').Appends (bs ++ bs') := by
  intro out
  rw [andThen_of_ok (h out), h', List.append_assoc]

theorem appends_forEach {w : α → Writer} {bs : Bytes} {as : List α}
    (h : Grammar.Sequence (fun bs a => (w a).Appends bs) bs as) : (forEach w as).Appends bs := by
  induction h with
  | nil => exact appends_skip
  | cons ha _ ih => exact ha.andThen ih

def Ends (w : Writer) (r : Except Fault Unit) : Prop := ∃ bs, ∀ out, w out = (r, out ++ bs)

theorem Appends.ends {w : Writer} {bs : Bytes} (h : w.Appends bs) : w.Ends (.ok ()) := ⟨bs, h⟩

theorem ends_fail (f : Fault) : (fail f).Ends (.error f) :=
  ⟨[], fun out => by rw [fail_apply, List.append_nil]⟩

theorem Ends.unique {w : Writer} {r r' : Except Fault Unit} (h : w.Ends r) (h' : w.Ends r') :
    r = r' := by
  obtain ⟨bs, hw⟩ := h
  obtain ⟨bs', hw'⟩ := h'
  exact congrArg Prod.fst ((hw []).symm.trans (hw' []))

theorem Ends.andThen {w w' : Writer} {r : Except Fault Unit} (h : w.Ends (.ok ()))
    (h' : w'.Ends r) : (w.andThen w').Ends r := by
  obtain ⟨bs, hw⟩ := h
  obtain ⟨bs', hw'⟩ := h'
  exact ⟨bs ++ bs', fun out => by rw [andThen_of_ok (hw out), hw', List.append_assoc]⟩

theorem Ends.andThen_of_error {w : Writer} {f : Fault} (h : w.Ends (.error f)) (w' : Writer) :
    (w.andThen w').Ends (.error f) := by
  obtain ⟨bs, hw⟩ := h
  exact ⟨bs, fun out => Writer.andThen_of_error (hw out)⟩

theorem ends_forEach {w : α → Writer} {as : List α} (h : ∀ a ∈ as, (w a).Ends (.ok ())) :
    (forEach w as).Ends (.ok ()) := by
  induction as with
  | nil => exact appends_skip.ends
  | cons a as ih =>
    rw [List.forall_mem_cons] at h
    exact h.1.andThen (ih h.2)

theorem ends_forEach_of_error {w : α → Writer} {as : List α} {a : α} {f : Fault}
    (h : ∀ a ∈ as, (w a).Ends (.ok ())) (hf : (w a).Ends (.error f)) (others : List α) :
    (forEach w (as ++ a :: others)).Ends (.error f) := by
  induction as with
  | nil => exact hf.andThen_of_error _
  | cons b as ih =>
    rw [List.forall_mem_cons] at h
    exact h.1.andThen (ih h.2)

def Framed (w : Writer) : Prop := ∃ r bs, ∀ out, w out = (r, out ++ bs)

theorem framed_skip : skip.Framed := ⟨.ok (), appends_skip.ends⟩

theorem framed_append (bs : Bytes) : (append bs).Framed := ⟨.ok (), (appends_append bs).ends⟩

theorem framed_fail (f : Fault) : (fail f).Framed := ⟨.error f, ends_fail f⟩

theorem Framed.andThen {w w' : Writer} (h : w.Framed) (h' : w'.Framed) : (w.andThen w').Framed := by
  obtain ⟨r, ends⟩ := h
  cases r with
  | error f => exact ⟨.error f, Ends.andThen_of_error ends w'⟩
  | ok u =>
    obtain ⟨r', ends'⟩ := h'
    exact ⟨r', Ends.andThen ends ends'⟩

theorem framed_forEach {w : α → Writer} (h : ∀ a, (w a).Framed) (as : List α) :
    (forEach w as).Framed := by
  induction as with
  | nil => exact framed_skip
  | cons a as ih => exact (h a).andThen ih

theorem Framed.appends_iff {w : Writer} (h : w.Framed) {bs : Bytes} :
    w.Appends bs ↔ w [] = (.ok (), bs) := by
  obtain ⟨r, bs', hw⟩ := h
  constructor
  · intro h
    rw [h [], List.nil_append]
  · intro h out
    rw [hw, List.nil_append] at h
    cases h
    exact hw out

theorem Framed.appends_andThen_iff {w w' : Writer} (h : w.Framed) (h' : w'.Framed) {bs : Bytes} :
    (w.andThen w').Appends bs ↔ ∃ bs₁ bs₂, bs = bs₁ ++ bs₂ ∧ w.Appends bs₁ ∧ w'.Appends bs₂ := by
  constructor
  · intro hboth
    obtain ⟨r, bs₁, hw⟩ := h
    obtain ⟨r', bs₂, hw'⟩ := h'
    have both := hboth []
    cases r with
    | error f =>
      rw [andThen_of_error (hw [])] at both
      cases both
    | ok u =>
      rw [andThen_of_ok (hw []), hw', List.nil_append, List.nil_append] at both
      cases both
      exact ⟨bs₁, bs₂, rfl, hw, hw'⟩
  · rintro ⟨bs₁, bs₂, rfl, hw, hw'⟩
    exact hw.andThen hw'

theorem appends_forEach_iff {w : α → Writer} (h : ∀ a, (w a).Framed) {bs : Bytes} {as : List α} :
    (forEach w as).Appends bs ↔ Grammar.Sequence (fun bs a => (w a).Appends bs) bs as := by
  refine ⟨fun happ => ?_, appends_forEach⟩
  induction as generalizing bs with
  | nil =>
    have none := happ []
    cases none
    exact .nil
  | cons a as ih =>
    obtain ⟨bs₁, bs₂, rfl, ha, has⟩ := ((h a).appends_andThen_iff (framed_forEach h as)).1 happ
    exact .cons ha (ih has)

end Writer

end TypedColumn
