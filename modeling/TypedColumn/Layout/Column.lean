import TypedColumn.Layout.Row

/-!
Whole columns at once. Numbers, identifiers and fixed-width strings are rows of one width; a nullable
column has its null flags in front; an array column has the running totals of its element counts in
front and all elements after them. Fixed-width strings are first read as bytes and rendered when the
column is handed out.
-/

namespace TypedColumn.Layout

def rowsOf (rows width : Nat) : Reader (List Bytes) := do
  return Bytes.rows width rows (← Reader.takeRows rows width)

def maskNulls (flags : Bytes) (vs : List Value) : List Value :=
  List.zipWith (fun v flag => if flag = 0 then v else .null) vs flags

def arrayRows (name : String) (elements : Nat → Reader (List Value)) :
    (row last : Nat) → List Nat → Reader (List Value)
  | _, _, [] => pure []
  | row, last, total :: totals =>
    if total < last then Reader.fail (.offsets name row last total)
    else do
      let vs ← elements (total - last)
      return .array vs :: (← arrayRows name elements (row + 1) total totals)

/-- The form in which a column is handed out: nulls and all but bytes stay as they are. -/
def native : Layout → List Value → List Value
  | .fixedString _ _ form, vs => vs.map form.renderValue
  | .nullable _ inner, vs => native inner vs
  | _, vs => vs

/-- Reads a column of so many rows; `swap` says that numbers have their highest byte first. -/
def readRows (swap : Bool) : Layout → Nat → Reader (List Value)
  | .number k, rows => do
    return (← rowsOf rows k.width).map fun bs =>
      .number (Number.ofBytes (if swap then bs.reverse else bs) k)
  | .string, rows => Reader.replicate readString rows
  | .uuid, rows => do return (← rowsOf rows 16).map fun bs => .uuid (Uuid.ofWire bs)
  | .fixedString _ size _, rows => do return (← rowsOf rows size).map .bytes
  | .nothing, rows => do
    Reader.reserve rows Value.size
    return List.replicate rows .null
  | .nullable _ inner, rows => do
    let flags ← Reader.take rows
    return maskNulls flags (← readRows swap inner rows)
  | .array name element, rows => do
    let totals ← Reader.words rows swap
    arrayRows name (fun n => do return native element (← readRows swap element n)) 0 0 totals
  | .tuple name _, _ => Reader.fail (.unsupported name .readColumn)
  | .map name _ _, _ => Reader.fail (.unsupported name .readColumn)
  | .aggregateState name, _ => Reader.fail (.unsupported name .readColumn)
  | .simpleAggregate name _, _ => Reader.fail (.unsupported name .readColumn)

def readColumn (swap : Bool) (l : Layout) (rows : Nat) : Reader (List Value) := do
  return native l (← readRows swap l rows)

end TypedColumn.Layout
