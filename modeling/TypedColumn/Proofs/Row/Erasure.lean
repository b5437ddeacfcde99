import TypedColumn.Layout.Row
import TypedColumn.Proofs.Parts

namespace TypedColumn

inductive Fault.Renamed (rename : String → String) : Fault → Fault → Prop
  | same (f : Fault) : Renamed rename f f
  | mismatch (type : String) (found : Value.Kind) :
      Renamed rename (.mismatch type found) (.mismatch (rename type) found)
  | arity (type : String) (expected found : Nat) :
      Renamed rename (.arity type expected found) (.arity (rename type) expected found)

theorem Fault.Renamed.eq {f g : Fault} (h : f.Renamed id g) : g = f := by
  cases h <;> rfl

namespace Writer

variable {α : Type} {R : Fault → Fault → Prop}

inductive Endings (R : Fault → Fault → Prop) :
    Except Fault Unit × Bytes → Except Fault Unit × Bytes → Prop
  | ok (out : Bytes) : Endings R (.ok (), out) (.ok (), out)
  | error {f g : Fault} (out : Bytes) : R f g → Endings R (.error f, out) (.error g, out)

def Alike (R : Fault → Fault → Prop) (w w' : Writer) : Prop := ∀ out, Endings R (w out) (w' out)

namespace Alike

theorem refl (h : ∀ f, R f f) (w : Writer) : Alike R w w := by
  intro out
  obtain ⟨r, out'⟩ := w out
  cases r with
  | ok _ => exact .ok out'
  | error f => exact .error out' (h f)

theorem fail {f g : Fault} (h : R f g) : Alike R (Writer.fail f) (Writer.fail g) :=
  fun out => .error out h

theorem andThen {v v' w w' : Writer} (hv : Alike R v v') (hw : Alike R w w') :
    Alike R (v.andThen w) (v'.andThen w') := by
  intro out
  have first := hv out
  rw [Writer.andThen, Writer.andThen]
  generalize v out = x, v' out = y at first ⊢
  cases first with
  | ok out' => exact hw out'
  | error out' hf => exact .error out' hf

theorem forEach {w w' : α → Writer} (h : ∀ a, Alike R (w a) (w' a)) (as : List α) :
    Alike R (Writer.forEach w as) (Writer.forEach w' as) := by
  induction as with
  | nil => exact fun out => .ok out
  | cons a as ih => exact (h a).andThen ih

theorem eq {w w' : Writer} (h : Alike R w w') (heq : ∀ f g, R f g → g = f) : w' = w := by
  funext out
  have both := h out
  generalize w out = x, w' out = y at both ⊢
  cases both with
  | ok out' => rfl
  | error out' hf => rw [heq _ _ hf]

end Alike

end Writer

open Writer (Alike)

namespace Layout

mutual
/-- The layout without its simple aggregates: the layouts of their values take their places, and the
nodes around them are called otherwise. -/
def erase (rename : String → String) : Layout → Layout
  | .nullable name inner => .nullable (rename name) (erase rename inner)
  | .array name element => .array (rename name) (erase rename element)
  | .tuple name elements => .tuple (rename name) (eraseEach rename elements)
  | .map name key value => .map (rename name) (erase rename key) (erase rename value)
  | .simpleAggregate _ inner => erase rename inner
  | l => l
def eraseEach (rename : String → String) : List Layout → List Layout
  | [] => []
  | l :: ls => erase rename l :: eraseEach rename ls
end

variable (rename : String → String)

theorem eraseEach_eq_map (ls : List Layout) : eraseEach rename ls = ls.map (erase rename) := by
  induction ls with
  | nil => rfl
  | cons l ls ih => rw [eraseEach, ih, List.map_cons]

theorem not_simpleAggregate_partOf_erase (l : Layout) {name : String} {inner : Layout} :
    ¬(simpleAggregate name inner).PartOf (erase rename l) := by
  induction l with
  | nullable name' inner' ih =>
    intro h
    cases h with
    | nullable _ h => exact ih h
  | array name' element ih =>
    intro h
    cases h with
    | array _ h => exact ih h
  | tuple name' elements ih =>
    intro h
    rw [erase, eraseEach_eq_map] at h
    cases h with
    | tuple _ hmem h =>
      obtain ⟨l, hl, rfl⟩ := List.mem_map.1 hmem
      exact ih l hl h
  | map name' key value ihk ihv =>
    intro h
    cases h with
    | key _ _ h => exact ihk h
    | value _ _ h => exact ihv h
  | simpleAggregate name' inner' ih => exact ih
  | _ => exact nofun

theorem minWidths_eraseEach {ls : List Layout}
    (ih : ∀ l ∈ ls, minWidth (erase rename l) = minWidth l) :
    minWidths (eraseEach rename ls) = minWidths ls := by
  induction ls with
  | nil => rfl
  | cons l ls ihs =>
    rw [List.forall_mem_cons] at ih
    rw [eraseEach, minWidths, minWidths, ih.1, ihs ih.2]

theorem minWidth_erase (l : Layout) : minWidth (erase rename l) = minWidth l := by
  induction l with
  | tuple name elements ih => exact minWidths_eraseEach rename ih
  | simpleAggregate name inner ih => exact ih
  | _ => rfl

theorem readEach_eraseEach {ls : List Layout} (ih : ∀ l ∈ ls, read (erase rename l) = read l) :
    readEach (eraseEach rename ls) = readEach ls := by
  induction ls with
  | nil => rfl
  | cons l ls ihs =>
    rw [List.forall_mem_cons] at ih
    rw [eraseEach, readEach, readEach, ih.1, ihs ih.2]

theorem read_erase (l : Layout) : read (erase rename l) = read l := by
  -- the counts of members are checked against the same widths
  induction l with
  | nullable name inner ih => rw [erase, read, read, ih]
  | array name element ih => rw [erase, read, read, ih, minWidth_erase]
  | tuple name elements ih => rw [erase, read, read, readEach_eraseEach rename ih]
  | map name key value ihk ihv =>
    rw [erase, read, read, ihk, ihv, minWidth_erase, minWidth_erase]
  | simpleAggregate name inner ih => exact ih
  | _ => rfl

theorem writeEach_eraseEach {ls : List Layout}
    (ih : ∀ l ∈ ls, ∀ v, Alike (Fault.Renamed rename) (write l v) (write (erase rename l) v))
    (vs : List Value) :
    Alike (Fault.Renamed rename) (writeEach ls vs) (writeEach (eraseEach rename ls) vs) := by
  induction ls generalizing vs with
  | nil => exact .refl .same _
  | cons l ls ihs =>
    rw [List.forall_mem_cons] at ih
    cases vs with
    | nil => exact .refl .same _
    | cons v vs => exact (ih.1 v).andThen (ihs ih.2 vs)

theorem write_erase (l : Layout) (v : Value) :
    Alike (Fault.Renamed rename) (write l v) (write (erase rename l) v) := by
  have alike (w : Writer) : Alike (Fault.Renamed rename) w w := .refl .same w
  induction l generalizing v with
  | nullable name inner ih =>
    cases v with
    | null => exact alike _
    | _ => exact (alike _).andThen (ih _)
  | array name element ih =>
    cases v with
    | array vs => exact (alike _).andThen (.forEach ih vs)
    | _ => exact .fail (.mismatch name _)
  | tuple name elements ih =>
    cases v with
    | tuple vs =>
      have length : (eraseEach rename elements).length = elements.length := by
        rw [eraseEach_eq_map, List.length_map]
      rw [erase, write, write, length]
      split
      · exact writeEach_eraseEach rename ih vs
      · exact .fail (.arity name _ _)
    | _ => exact .fail (.mismatch name _)
  | map name key value ihk ihv =>
    cases v with
    | map ps => exact (alike _).andThen (.forEach (fun p => (ihk p.1).andThen (ihv p.2)) ps)
    | _ => exact .fail (.mismatch name _)
  | simpleAggregate name inner ih => exact ih v
  | _ => exact alike _

/-- Without its simple aggregates a layout has the same width, reads the same or fails the same, and
writes the same or fails together; what the failure says differs in the name of the type at most,
and not at all when the nodes keep their names. -/
theorem erase_transparent (l : Layout) :
    (∀ name inner, ¬(simpleAggregate name inner).PartOf (erase rename l)) ∧
    (erase rename l).minWidth = l.minWidth ∧
    (∀ buf pos, (erase rename l).read buf pos = l.read buf pos) ∧
    (∀ v out, Writer.Endings (Fault.Renamed rename) (l.write v out)
      ((erase rename l).write v out)) ∧
    ∀ v out, (erase id l).write v out = l.write v out := by
  refine ⟨fun name inner => not_simpleAggregate_partOf_erase rename l, minWidth_erase rename l,
    fun buf pos => by rw [read_erase], write_erase rename l, fun v out => ?_⟩
  rw [(write_erase id l v).eq fun f g => Fault.Renamed.eq]

end Layout

end TypedColumn
