import TypedColumn.CountPrefix
import TypedColumn.Layout

namespace TypedColumn

def Value.ofBytes (bs : Bytes) : Value :=
  match Text.ofUtf8? bs with
  | some text => .string text
  | none => .bytes bs

namespace Layout

/-- Reads a count and so many elements, unless that many cannot be there or cannot be held. -/
def counted {α : Type} (width size : Nat) (element : Reader α) : Reader (List α) := do
  let n ← CountPrefix.read
  Reader.ensure n width
  Reader.reserve n size
  Reader.replicate element n

def readString : Reader Value := do
  let n ← CountPrefix.read
  return Value.ofBytes (← Reader.take n)

mutual
def read : Layout → Reader Value
  | .number k => do return .number (Number.ofBytes (← Reader.take k.width) k)
  | .string => readString
  | .uuid => do return .uuid (Uuid.ofRow (← Reader.take 16))
  | .fixedString _ size form => do return form.render (← Reader.take size)
  | .nothing => pure .null
  | .nullable _ inner => do
    let flag ← Reader.byte
    if flag = 0 then read inner else return .null
  | .array _ element => do return .array (← counted (minWidth element) Value.size (read element))
  | .tuple _ elements => do return .tuple (← readEach elements)
  | .map _ key value => do
    let width := addWords (minWidth key) (minWidth value)
    let pairs ← counted width Pairs.entrySize (do
      let k ← read key
      let v ← read value
      return (k, v))
    return .map (Pairs.ofList pairs)
  | .aggregateState name => Reader.fail (.unsupported name .readRow)
  | .simpleAggregate _ inner => read inner
def readEach : List Layout → Reader (List Value)
  | [] => pure []
  | l :: ls => do
    let v ← read l
    return v :: (← readEach ls)
end

def refuse (l : Layout) (v : Value) : Writer := Writer.fail (.mismatch l.typeName v.kind)

def writeString (bs : Bytes) : Writer := (CountPrefix.write bs.length).andThen (Writer.append bs)

def writeFixed (name : String) (form : FixedForm) : Value → Writer
  | .bytes bs => Writer.append bs
  | .string text =>
    match form.encoding.encode? text with
    | some bs => Writer.append bs
    | none => Writer.fail (.unencodable name form.encoding text)
  | v => Writer.fail (.mismatch name v.kind)

mutual
/-- Writes one value, or as much of it as comes before the first part that the layout refuses. -/
def write : Layout → Value → Writer
  | .number k, .number n =>
    if n.kind = k then Writer.append n.toBytes else refuse (.number k) (.number n)
  | .number k, v => refuse (.number k) v
  | .string, .string text => writeString (Text.toUtf8 text)
  | .string, .bytes bs => writeString bs
  | .string, v => refuse .string v
  | .uuid, .uuid u => Writer.append u.toWire
  | .uuid, v => refuse .uuid v
  | .fixedString name _ form, v => writeFixed name form v
  | .nothing, _ => Writer.skip
  | .nullable _ _, .null => Writer.append [1]
  | .nullable _ inner, v => (Writer.append [0]).andThen (write inner v)
  | .array _ element, .array vs =>
    (CountPrefix.write vs.length).andThen (Writer.forEach (fun v => write element v) vs)
  | .array name _, v => Writer.fail (.mismatch name v.kind)
  | .tuple name elements, .tuple vs =>
    if vs.length = elements.length then writeEach elements vs
    else Writer.fail (.arity name elements.length vs.length)
  | .tuple name _, v => Writer.fail (.mismatch name v.kind)
  | .map _ key value, .map pairs =>
    (CountPrefix.write pairs.length).andThen
      (Writer.forEach (fun p => (write key p.1).andThen (write value p.2)) pairs)
  | .map name _ _, v => Writer.fail (.mismatch name v.kind)
  | .aggregateState name, _ => Writer.fail (.unsupported name .writeRow)
  | .simpleAggregate _ inner, v => write inner v
def writeEach : List Layout → List Value → Writer
  | l :: ls, v :: vs => (write l v).andThen (writeEach ls vs)
  | _, _ => Writer.skip
end

end Layout

end TypedColumn
