import TypedColumn.Fault

namespace TypedColumn

def Writer : Type := Bytes → Except Fault Unit × Bytes

namespace Writer

def skip : Writer := fun out => (.ok (), out)

def append (bs : Bytes) : Writer := fun out => (.ok (), out ++ bs)

def fail (f : Fault) : Writer := fun out => (.error f, out)

def andThen (w w' : Writer) : Writer := fun out =>
  match w out with
  | (.ok _, out) => w' out
  | (.error f, out) => (.error f, out)

def forEach {α : Type} (w : α → Writer) : List α → Writer
  | [] => skip
  | a :: as => (w a).andThen (forEach w as)

@[simp] theorem skip_apply (out : Bytes) : skip out = (.ok (), out) := rfl

@[simp] theorem append_apply (bs out : Bytes) : append bs out = (.ok (), out ++ bs) := rfl

@[simp] theorem fail_apply (f : Fault) (out : Bytes) : fail f out = (.error f, out) := rfl

theorem andThen_of_ok {w w' : Writer} {out out' : Bytes} (h : w out = (.ok (), out')) :
    w.andThen w' out = w' out' := by
  rw [andThen, h]

theorem andThen_of_error {w w' : Writer} {out out' : Bytes} {f : Fault}
    (h : w out = (.error f, out')) : w.andThen w' out = (.error f, out') := by
  rw [andThen, h]

end Writer

end TypedColumn
