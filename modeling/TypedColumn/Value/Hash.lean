import TypedColumn.Text.Encoding
import TypedColumn.Value

namespace TypedColumn

namespace Value

namespace Kind

def all : List Kind :=
  .null :: NumberKind.all.map .number ++ [.string, .bytes, .uuid, .array, .tuple, .map]

def tag (k : Kind) : Bytes := Bytes.ofNat 8 (all.idxOf k)

end Kind

def lengthBytes (n : Nat) : Bytes := Bytes.ofNat 8 n

mutual
def hash : Value → Bytes
  | .null => Kind.null.tag
  | .number n => (Kind.number n.kind).tag ++ n.toBytes
  | .string text => Kind.string.tag ++ (Text.toUtf8 text ++ [0xff])
  | .bytes bs => Kind.bytes.tag ++ (lengthBytes bs.length ++ bs)
  | .uuid u => Kind.uuid.tag ++ u.toBytes
  | .array vs => Kind.array.tag ++ (lengthBytes vs.length ++ hashEach vs)
  | .tuple vs => Kind.tuple.tag ++ (lengthBytes vs.length ++ hashEach vs)
  | .map ps => Kind.map.tag ++ lengthBytes ps.length
def hashEach : List Value → Bytes
  | [] => []
  | v :: vs => hash v ++ hashEach vs
end

theorem length_eq_of_sameAll {vs ws : List Value} (h : sameAll vs ws) : vs.length = ws.length := by
  induction vs generalizing ws with
  | nil =>
    cases ws with
    | nil => rfl
    | cons w ws => cases h
  | cons v vs ih =>
    cases ws with
    | nil => cases h
    | cons w ws =>
      rw [sameAll, Bool.and_eq_true] at h
      exact congrArg (· + 1) (ih h.2)

theorem hashEach_eq_of_sameAll {vs ws : List Value}
    (ih : ∀ v ∈ vs, ∀ {w : Value}, v.same w → v.hash = w.hash) (h : sameAll vs ws) :
    hashEach vs = hashEach ws := by
  induction vs generalizing ws with
  | nil =>
    cases ws with
    | nil => rfl
    | cons w ws => cases h
  | cons v vs rest =>
    cases ws with
    | nil => cases h
    | cons w ws =>
      rw [sameAll, Bool.and_eq_true] at h
      rw [List.forall_mem_cons] at ih
      rw [hashEach, hashEach, ih.1 h.1, rest ih.2 h.2]

theorem hash_eq_of_same {v w : Value} (h : v.same w) : v.hash = w.hash := by
  induction v generalizing w with
  | null =>
    cases w with
    | null => rfl
    | _ => cases h
  | number n =>
    cases w with
    | number m => rw [of_decide_eq_true h]
    | _ => cases h
  | string text =>
    cases w with
    | string text' => rw [of_decide_eq_true h]
    | _ => cases h
  | bytes bs =>
    cases w with
    | bytes bs' => rw [of_decide_eq_true h]
    | _ => cases h
  | uuid u =>
    cases w with
    | uuid u' => rw [of_decide_eq_true h]
    | _ => cases h
  | array vs ih =>
    cases w with
    | array ws =>
      rw [same] at h
      rw [hash, hash, length_eq_of_sameAll h, hashEach_eq_of_sameAll ih h]
    | _ => cases h
  | tuple vs ih =>
    cases w with
    | tuple ws =>
      rw [same] at h
      rw [hash, hash, length_eq_of_sameAll h, hashEach_eq_of_sameAll ih h]
    | _ => cases h
  | map ps ih =>
    cases w with
    | map qs =>
      rw [same, Bool.and_eq_true, beq_iff_eq] at h
      rw [hash, hash, h.1]
    | _ => cases h

end Value

namespace Pairs

variable (digest : Bytes → UInt64)

/-- Looks a key up among the keys of its own digest only. -/
def findHashed? (ps : Pairs) (k : Value) : Option Value :=
  (List.find? (fun p => digest k.hash == digest p.1.hash && k.same p.1) ps).map (·.2)

def insertHashed (k v : Value) : Pairs → Pairs
  | [] => [(k, v)]
  | (k', v') :: ps =>
    if digest k.hash == digest k'.hash && k.same k' then (k', v) :: ps
    else (k', v') :: insertHashed k v ps

theorem hashed_same (k k' : Value) :
    (digest k.hash == digest k'.hash && k.same k') = k.same k' := by
  cases hsame : k.same k' with
  | false => exact Bool.and_false _
  | true => rw [Value.hash_eq_of_same hsame, beq_self_eq_true, Bool.and_true]

/-- Whatever the digest, digests that differ keep no key from being found. -/
theorem findHashed?_eq (ps : Pairs) (k : Value) : ps.findHashed? digest k = ps.find? k := by
  simp only [findHashed?, hashed_same]
  rfl

theorem insertHashed_eq (k v : Value) (ps : Pairs) : insertHashed digest k v ps = insert k v ps := by
  induction ps with
  | nil => rfl
  | cons p ps ih => rw [insertHashed, insert, hashed_same, ih]

end Pairs

end TypedColumn
