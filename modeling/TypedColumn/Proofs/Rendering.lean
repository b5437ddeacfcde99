import Mathlib.Data.List.Find
import TypedColumn.Proofs.Column.Grammar
import TypedColumn.Proofs.Row.Canonical
import TypedColumn.Proofs.Simulation

/-!
The form of fixed-width strings and all else. A layout can be put in another form; what is read then
is the value that is read in the raw form with its fixed-width strings rendered, and the bytes that
are taken and the keys that are told apart are the same.
-/

namespace TypedColumn

namespace Value

theorem null_same (v : Value) : Value.null.same v = v.isNull := by
  cases v <;> rfl

theorem same_null (v : Value) : v.same .null = v.isNull := by
  cases v <;> rfl

theorem within_mapParts {f g : Value → Value} {ps qs : Pairs}
    (hf : ∀ p ∈ ps, ∀ q ∈ qs, (f p.1).same (f q.1) = p.1.same q.1)
    (hg : ∀ p ∈ ps, ∀ q ∈ qs, (g p.2).same (g q.2) = p.2.same q.2) :
    within (Pairs.mapParts f g ps) (Pairs.mapParts f g qs) = within ps qs := by
  induction ps with
  | nil => rfl
  | cons p ps ih =>
    rw [List.forall_mem_cons] at hf hg
    have found : List.find? (fun q => (f p.1).same q.1) (Pairs.mapParts f g qs) =
        (List.find? (fun q => p.1.same q.1) qs).map fun q => (f q.1, g q.2) := by
      rw [Pairs.mapParts, List.find?_map]
      exact congrArg _ (List.find?_congr hf.1)
    have rest : within (Pairs.mapParts f g ps) (Pairs.mapParts f g qs) = within ps qs :=
      ih hf.2 hg.2
    rw [Pairs.mapParts, List.map_cons, within, within, ← Pairs.mapParts, rest, found]
    cases hq : List.find? (fun q => p.1.same q.1) qs with
    | none => rfl
    | some q =>
      rw [Option.map_some]
      exact congrArg (· && within ps qs) (hg.1 q (List.mem_of_find?_eq_some hq))

end Value

namespace Layout

mutual
def inForm (form : FixedForm) : Layout → Layout
  | .fixedString name size _ => .fixedString name size form
  | .nullable name inner => .nullable name (inForm form inner)
  | .array name element => .array name (inForm form element)
  | .tuple name elements => .tuple name (inFormEach form elements)
  | .map name key value => .map name (inForm form key) (inForm form value)
  | .simpleAggregate name inner => .simpleAggregate name (inForm form inner)
  | l => l
def inFormEach (form : FixedForm) : List Layout → List Layout
  | [] => []
  | l :: ls => inForm form l :: inFormEach form ls
end

mutual
/-- The value with the bytes of each fixed-width string rendered, the keys of maps included. -/
def render (form : FixedForm) : Layout → Value → Value
  | .fixedString _ _ _, v => form.renderValue v
  | .nullable _ inner, v => render form inner v
  | .array _ element, .array vs => .array (vs.map fun v => render form element v)
  | .tuple _ elements, .tuple vs => .tuple (renderEach form elements vs)
  | .map _ key value, .map ps =>
    .map (Pairs.mapParts (fun k => render form key k) (fun v => render form value v) ps)
  | .simpleAggregate _ inner, v => render form inner v
  | _, v => v
def renderEach (form : FixedForm) : List Layout → List Value → List Value
  | l :: ls, v :: vs => render form l v :: renderEach form ls vs
  | _, vs => vs
end

variable {form : FixedForm}

@[simp] theorem render_null (l : Layout) : render form l .null = .null := by
  induction l with
  | nullable name inner ih => exact ih
  | simpleAggregate name inner ih => exact ih
  | _ => rfl

theorem isNull_render (l : Layout) (v : Value) : (render form l v).isNull = v.isNull := by
  induction l with
  | fixedString name size f =>
    cases v with
    | bytes bs =>
      change (form.render bs).isNull = false
      obtain h | ⟨text, h⟩ := form.render_eq bs
      · rw [h]
        rfl
      · rw [h]
        rfl
    | _ => rfl
  | nullable name inner ih => exact ih
  | simpleAggregate name inner ih => exact ih
  | _ => cases v <;> rfl

theorem lossless_inForm (h : form.Lossless) (l : Layout) : (l.inForm form).Lossless := by
  induction l with
  | number k => exact .number k
  | string => exact .string
  | uuid => exact .uuid
  | fixedString name size f => exact .fixedString h
  | nothing => exact .nothing
  | nullable name inner ih => exact .nullable ih
  | array name element ih => exact .array ih
  | tuple name elements ih =>
    refine .tuple ?_
    induction elements with
    | nil => exact List.forall_mem_nil _
    | cons l ls ihs =>
      rw [List.forall_mem_cons] at ih
      exact List.forall_mem_cons.2 ⟨ih.1, ihs ih.2⟩
  | map name key value ihk ihv => exact .map ihk ihv
  | aggregateState name => exact .aggregateState name
  | simpleAggregate name inner ih => exact .simpleAggregate ih

abbrev Raw (l : Layout) (v : Value) : Prop := (l.inForm .raw).Domain v

theorem sameAll_render {l : Layout}
    (ih : ∀ {v w}, l.Raw v → l.Raw w → (render form l v).same (render form l w) = v.same w)
    {vs ws : List Value} (hv : ∀ v ∈ vs, l.Raw v) (hw : ∀ w ∈ ws, l.Raw w) :
    Value.sameAll (vs.map fun v => render form l v) (ws.map fun w => render form l w) =
      Value.sameAll vs ws := by
  induction vs generalizing ws with
  | nil => cases ws <;> rfl
  | cons v vs ihs =>
    cases ws with
    | nil => rfl
    | cons w ws =>
      rw [List.forall_mem_cons] at hv hw
      rw [List.map_cons, List.map_cons, Value.sameAll, Value.sameAll, ih hv.1 hw.1, ihs hv.2 hw.2]

theorem sameAll_renderEach {ls : List Layout}
    (ih : ∀ l ∈ ls, ∀ {v w}, l.Raw v → l.Raw w →
      (render form l v).same (render form l w) = v.same w)
    {vs ws : List Value} (hv : List.Forall₂ Domain (inFormEach .raw ls) vs)
    (hw : List.Forall₂ Domain (inFormEach .raw ls) ws) :
    Value.sameAll (renderEach form ls vs) (renderEach form ls ws) = Value.sameAll vs ws := by
  induction ls generalizing vs ws with
  | nil =>
    cases hv
    cases hw
    rfl
  | cons l ls ihs =>
    rw [List.forall_mem_cons] at ih
    rw [inFormEach] at hv hw
    cases hv with
    | cons hv hvs =>
      cases hw with
      | cons hw hws =>
        rw [renderEach, renderEach, Value.sameAll, Value.sameAll, ih.1 hv hw, ihs ih.2 hvs hws]

theorem same_render {l : Layout} {v w : Value} (hv : l.Raw v) (hw : l.Raw w) :
    (render form l v).same (render form l w) = v.same w := by
  induction l generalizing v w with
  | fixedString name size f =>
    obtain ⟨bs, rfl, rfl⟩ : ∃ bs, v = .bytes bs ∧ size = bs.length := by
      cases hv
      exact ⟨_, rfl, rfl⟩
    obtain ⟨bs', rfl, hlen⟩ : ∃ bs', w = .bytes bs' ∧ bs.length = bs'.length := by
      generalize bs.length = n at hw
      cases hw
      exact ⟨_, rfl, rfl⟩
    exact form.same_render hlen
  | nullable name inner ih =>
    cases hv with
    | null =>
      rw [render_null, Value.null_same, Value.null_same, isNull_render]
    | present _ hv =>
      cases hw with
      | null => rw [render_null, Value.same_null, Value.same_null, isNull_render]
      | present _ hw => exact ih hv hw
  | array name element ih =>
    cases hv with
    | array hv =>
      cases hw with
      | array hw => exact sameAll_render ih hv hw
  | tuple name elements ih =>
    cases hv with
    | tuple hv =>
      cases hw with
      | tuple hw => exact sameAll_renderEach ih hv hw
  | map name key value ihk ihv =>
    cases hv with
    | @map _ _ _ ps _ hpk hpv =>
      cases hw with
      | @map _ _ _ qs _ hqk hqv =>
        have pairs := Value.within_mapParts (f := fun k => render form key k)
          (g := fun v => render form value v)
          (fun p hp q hq => ihk (hpk p hp) (hqk q hq)) fun p hp q hq => ihv (hpv p hp) (hqv q hq)
        rw [render, render, Value.same, Value.same, pairs, Pairs.mapParts, Pairs.mapParts,
          List.length_map, List.length_map]
  | simpleAggregate name inner ih =>
    cases hv with
    | simpleAggregate hv =>
      cases hw with
      | simpleAggregate hw => exact ih hv hw
  | _ => rfl

theorem minWidth_inForm (form : FixedForm) (l : Layout) : minWidth (l.inForm form) = minWidth l := by
  induction l with
  | tuple name elements ih =>
    rw [inForm, minWidth, minWidth]
    induction elements with
    | nil => rfl
    | cons l ls ihs =>
      rw [List.forall_mem_cons] at ih
      rw [inFormEach, minWidths, minWidths, ih.1, ihs ih.2]
  | simpleAggregate name inner ih => exact ih
  | _ => rfl

section Reading

open Reader (Alike)

theorem read_raw {l : Layout} (buf : Bytes) (pos : Nat) (v : Value) (next : Nat)
    (h : (l.inForm .raw).read buf pos = .ok (v, next)) : l.Raw v := by
  obtain ⟨bs, rest, -, -, hrow⟩ := (read_reads _).sound h
  exact hrow.domain (lossless_inForm .raw l)

theorem counted_alike {α β : Type} {R : α → β → Prop} {r : Reader α} {s : Reader β}
    (h : Alike R r s) (width size : Nat) :
    Alike (List.Forall₂ R) (counted width size r) (counted width size s) :=
  (Alike.refl CountPrefix.read).bind fun n _ hn => hn ▸
    (Alike.refl _).bind fun _ _ _ => (Alike.refl _).bind fun _ _ _ => h.replicate n

theorem readEach_alike {ls : List Layout} (ih : ∀ l ∈ ls,
      Alike (fun v w => w = render form l v) (read (l.inForm .raw)) (read (l.inForm form))) :
    Alike (fun vs ws => ws = renderEach form ls vs) (readEach (inFormEach .raw ls))
      (readEach (inFormEach form ls)) := by
  induction ls with
  | nil => exact .pure rfl
  | cons l ls ihs =>
    rw [List.forall_mem_cons] at ih
    rw [inFormEach, inFormEach, readEach, readEach]
    refine ih.1.bind fun v w hw => (ihs ih.2).map fun vs ws hws => ?_
    rw [renderEach, hw, hws]

theorem map_alike {key value : Layout}
    (hk : Alike (fun v w => w = render form key v) (read (key.inForm .raw)) (read (key.inForm form)))
    (hv : Alike (fun v w => w = render form value v) (read (value.inForm .raw))
      (read (value.inForm form))) (name : String) :
    Alike (fun v w => w = render form (.map name key value) v)
      (read ((Layout.map name key value).inForm .raw))
      (read ((Layout.map name key value).inForm form)) := by
  rw [inForm, inForm, read, read, minWidth_inForm, minWidth_inForm, minWidth_inForm,
    minWidth_inForm]
  have pair := (hk.and_left read_raw).bind (S := fun p q => key.Raw p.1 ∧
      q = (render form key p.1, render form value p.2))
    fun k _ hkey => hv.map (f := fun v => (k, v)) fun v _ hvalue => ⟨hkey.1, by rw [hkey.2, hvalue]⟩
  refine (counted_alike pair _ _).map fun ps qs h => ?_
  obtain ⟨raw, rendered⟩ := (List.forall₂_and_left ps qs).1 h
  -- rendering keeps keys apart, so that as many pairs are left in the same order
  rw [render, ← Pairs.ofList_mapParts (fun hk hk' => same_render hk hk') raw,
    eq_map_of_forall₂ rendered]
  rfl

theorem read_alike (form : FixedForm) (l : Layout) :
    Alike (fun v w => w = render form l v) (read (l.inForm .raw)) (read (l.inForm form)) := by
  induction l with
  | fixedString name size f =>
    rw [inForm, inForm, read, read]
    exact (Alike.refl (Reader.take size)).map fun bs _ h => by
      subst h
      rfl
  | nullable name inner ih =>
    rw [inForm, inForm, read, read]
    refine (Alike.refl Reader.byte).bind fun flag _ h => ?_
    subst h
    split
    · exact ih
    · exact .pure (render_null _).symm
  | array name element ih =>
    rw [inForm, inForm, read, read, minWidth_inForm, minWidth_inForm]
    refine (counted_alike ih _ _).map fun vs ws h => ?_
    rw [render, eq_map_of_forall₂ h]
  | tuple name elements ih =>
    rw [inForm, inForm, read, read]
    refine (readEach_alike ih).map fun vs ws h => ?_
    rw [render, h]
  | map name key value ihk ihv => exact map_alike ihk ihv name
  | simpleAggregate name inner ih =>
    rw [inForm, inForm, read, read]
    exact ih
  | aggregateState name => exact .fail _
  | _ => exact (Alike.refl _).mono fun v w h => h.symm

theorem arrayRows_alike {r s : Nat → Reader (List Value)} {f g : Value → Value}
    (h : ∀ n, Alike (fun vs ws => ws = vs.map f) (r n) (s n))
    (hg : ∀ vs, g (.array vs) = .array (vs.map f)) (name : String) (row last : Nat)
    (totals : List Nat) : Alike (fun vs ws => ws = vs.map g) (arrayRows name r row last totals)
      (arrayRows name s row last totals) := by
  induction totals generalizing row last with
  | nil => exact .pure rfl
  | cons total totals ih =>
    rw [arrayRows, arrayRows]
    split
    · exact .fail _
    · refine (h _).bind fun vs ws hws => (ih (row + 1) total).map fun out out' hout => ?_
      rw [List.map_cons, hg, hws, hout]

theorem readColumn_alike (swap : Bool) (form : FixedForm) (l : Layout) (n : Nat) :
    Alike (fun vs ws => ws = vs.map fun v => render form l v)
      (readColumn swap (l.inForm .raw) n) (readColumn swap (l.inForm form) n) := by
  induction l generalizing n with
  | fixedString name size f =>
    rw [inForm, inForm, readColumn_fixedString, readColumn_fixedString]
    refine (Alike.refl (rowsOf n size)).map fun parts _ h => ?_
    subst h
    rw [List.map_map]
    rfl
  | nullable name inner ih =>
    rw [inForm, inForm, readColumn_nullable, readColumn_nullable]
    refine (Alike.refl (Reader.take n)).bind fun flags _ h => (ih n).map fun vs ws hws => ?_
    subst h
    rw [hws]
    exact (map_maskNulls (render_null inner) flags vs).symm
  | array name element ih =>
    rw [inForm, inForm, readColumn_array, readColumn_array]
    refine (Alike.refl (Reader.words n swap)).bind fun totals _ h => ?_
    subst h
    exact arrayRows_alike ih (fun _ => rfl) name 0 0 totals
  | tuple name elements => exact .fail _
  | map name key value => exact .fail _
  | aggregateState name => exact .fail _
  | simpleAggregate name inner => exact .fail _
  | _ =>
    refine (Alike.refl _).mono fun vs ws h => ?_
    rw [← h]
    exact (List.map_id vs).symm

end Reading

end Layout

end TypedColumn
