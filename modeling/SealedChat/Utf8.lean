import SealedChat.Bytes

namespace SealedChat.Utf8

abbrev encodeChar (c : Char) : Bytes :=
  String.utf8EncodeChar c

def encode (text : String) : Bytes :=
  text.toList.flatMap encodeChar

def first? (bytes : Bytes) : Option (Char × Bytes) :=
  ((bytes.take 4).toByteArray.utf8DecodeChar? 0).map fun c => (c, bytes.drop c.utf8Size)

theorem first?_encodeChar_append (c : Char) (rest : Bytes) :
    first? (encodeChar c ++ rest) = some (c, rest) := by
  have size := c.utf8Size_le_four
  have front : (encodeChar c ++ rest).take 4 = encodeChar c ++ rest.take (4 - c.utf8Size) := by
    rw [List.take_append, String.length_utf8EncodeChar, List.take_of_length_le]
    rw [String.length_utf8EncodeChar]
    exact size
  rw [first?, front, List.toByteArray_append, ByteArray.utf8DecodeChar?_utf8EncodeChar_append]
  simp

theorem eq_append_of_first? {bytes rest : Bytes} {c : Char} (h : first? bytes = some (c, rest)) :
    bytes = encodeChar c ++ rest := by
  obtain ⟨d, decoded, pair⟩ := Option.map_eq_some_iff.1 h
  obtain ⟨rfl, rfl⟩ := Prod.mk.inj pair
  obtain ⟨tail, eq⟩ := ByteArray.exists_of_utf8DecodeChar?_eq_some decoded
  have front : bytes.take 4 = encodeChar d ++ tail.data.toList := by
    have := congrArg (fun b : ByteArray => b.data.toList) eq
    simpa using this
  have whole : bytes = encodeChar d ++ (tail.data.toList ++ bytes.drop 4) := by
    rw [← List.append_assoc, ← front, List.take_append_drop]
  have behind : bytes.drop d.utf8Size = tail.data.toList ++ bytes.drop 4 := by
    conv => lhs; rw [whole]
    rw [← String.length_utf8EncodeChar d, List.drop_left]
  rw [behind]
  exact whole

theorem first?_eq_some_iff {bytes rest : Bytes} {c : Char} :
    first? bytes = some (c, rest) ↔ bytes = encodeChar c ++ rest :=
  ⟨eq_append_of_first?, fun h => h ▸ first?_encodeChar_append c rest⟩

theorem length_lt_of_first? {bytes rest : Bytes} {c : Char} (h : first? bytes = some (c, rest)) :
    rest.length < bytes.length := by
  rw [eq_append_of_first? h, List.length_append, String.length_utf8EncodeChar]
  have := c.utf8Size_pos
  omega

def scan (bytes : Bytes) : List Char × Bytes :=
  match h : first? bytes with
  | none => ([], bytes)
  | some (c, rest) =>
    have := length_lt_of_first? h
    let (chars, invalid) := scan rest
    (c :: chars, invalid)
termination_by bytes.length

def decode? (bytes : Bytes) : Option String :=
  match scan bytes with
  | (chars, []) => some (String.ofList chars)
  | (_, _ :: _) => none

/-- The number of bytes that stand for one damaged character in front of a byte string: the longest
start of some character's bytes, and at least one. -/
def damagedSize (bytes : Bytes) : Nat :=
  let starts (n : Nat) (missing : Bytes) : Bool :=
    n ≤ bytes.length && (first? (bytes.take n ++ missing)).isSome
  if starts 3 [0x80] then 3 else if starts 2 [0x80, 0x80] then 2 else 1

theorem damagedSize_pos (bytes : Bytes) : 0 < damagedSize bytes := by
  unfold damagedSize
  dsimp only
  repeat' split
  all_goals omega

def repair (bytes : Bytes) : List Char :=
  match h : first? bytes with
  | some (c, rest) =>
    have := length_lt_of_first? h
    c :: repair rest
  | none =>
    if bytes.isEmpty then [] else '\uFFFD' :: repair (bytes.drop (damagedSize bytes))
termination_by bytes.length
decreasing_by
  · assumption
  · cases bytes with
    | nil => contradiction
    | cons b tail =>
      have := damagedSize_pos (b :: tail)
      simp only [List.length_drop, List.length_cons]
      omega

end SealedChat.Utf8
