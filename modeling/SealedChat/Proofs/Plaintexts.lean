import SealedChat.Proofs.Nesting

/-!
What the plaintext of a node tells: which node it is and where it ends, and every text in it,
however long.

The reader stops at the limit of levels, but a node is read back wherever there are levels enough
for it. So bytes that start with the plaintexts of two nodes start with one plaintext of one node
(`Node.toCbor_append_inj`), also of nodes that no receiver would accept.
-/

namespace SealedChat

open Cbor Decoder

namespace Node

theorem readWithin_of_le {k : Nat} {node : Node} (h : node.height ≤ k) :
    readWithin k node = .ok node :=
  if_pos h

theorem ofCbor_append {k : Nat} {node : Node} (sized : node.Sized) (within : node.height ≤ k)
    (rest : Bytes) :
    (nextItem >>= ofCbor (3 * k + 1)) ⟨0, node.toCbor ++ rest⟩ =
      .ok (node, ⟨node.toCbor.length, rest⟩) := by
  have read := reads k sized 0 rest
  rw [readWithin_of_le within, Nat.zero_add] at read
  exact read

theorem toCbor_append_inj {node other : Node} (sized : node.Sized) (sized' : other.Sized)
    {rest rest' : Bytes} (h : node.toCbor ++ rest = other.toCbor ++ rest') :
    node = other ∧ rest = rest' := by
  let k := max node.height other.height
  have first := ofCbor_append sized (Nat.le_max_left _ _ : node.height ≤ k) rest
  have second := ofCbor_append sized' (Nat.le_max_right _ _ : other.height ≤ k) rest'
  rw [h, second] at first
  obtain ⟨same, reader⟩ := Prod.mk.inj (Except.ok.inj first)
  exact ⟨same.symm, (Reader.mk.inj reader).2.symm⟩

end Node

/-- Every node can be written, and what is written says which node it is and where it ends: no other
node is written in the same way, or so that the one stands in front of the other. -/
theorem Codec.cbor_encode_unambiguous {node other : Node} (sized : node.Sized)
    (sized' : other.Sized) :
    ∃ bytes bytes', Codec.cbor.encode node = .ok bytes ∧ Codec.cbor.encode other = .ok bytes' ∧
      (∀ rest rest', bytes ++ rest = bytes' ++ rest' ↔ node = other ∧ rest = rest') ∧
      (bytes = bytes' → node = other) ∧
      (bytes <+: bytes' → bytes = bytes') := by
  have inj {rest rest' : Bytes} (h : node.toCbor ++ rest = other.toCbor ++ rest') :
      node = other ∧ rest = rest' := Node.toCbor_append_inj sized sized' h
  refine ⟨node.toCbor, other.toCbor, rfl, rfl, fun rest rest' => ⟨inj, ?_⟩, ?_, ?_⟩
  · rintro ⟨rfl, rfl⟩
    rfl
  · intro same
    exact (inj (congrArg (· ++ []) same)).1
  · rintro ⟨rest, behind⟩
    have within : node.toCbor ++ rest = other.toCbor ++ [] := by rw [behind, List.append_nil]
    obtain ⟨rfl, -⟩ := inj within
    rfl

theorem Codec.cbor_encode_unambiguous_nested :
    let leaf (text : String) : Node := (Node.ofDescription "leaf").withContent (.text text)
    let node := (leaf "a").nested 300
    let other := (leaf "ab").nested 300
    node.Sized ∧ other.Sized ∧ Codec.cbor.decode node.toCbor = .error (.decode .tooDeep) ∧
      ∀ rest rest', node.toCbor ++ rest ≠ other.toCbor ++ rest' := by
  intro leaf node other
  have sized (text : String) (size : (Utf8.encode text).length < UInt64.size) :
      ((leaf text).nested 300).Sized := by
    have innermost : (leaf text).Sized := ⟨by decide, by decide, nofun, size⟩
    exact Node.sized_nested innermost 300
  have first : node.Sized := sized "a" (by decide)
  have second : other.Sized := sized "ab" (by decide)
  have different : node ≠ other := by decide +kernel
  refine ⟨first, second, ?_, fun rest rest' same => ?_⟩
  · exact Node.decode_toCbor_of_lt first (Node.height_nested _ 300 ▸ by decide)
  · obtain ⟨_, _, ⟨⟩, ⟨⟩, tell, -⟩ := Codec.cbor_encode_unambiguous first second
    exact different ((tell rest rest').1 same).1

/-- A text of any length is read back, also where the border of a piece goes through a character: by
itself, as one that may be missing, and in every place of a node. -/
theorem Codec.cbor_keeps_texts {text description key value : String}
    (size : (Utf8.encode text).length < UInt64.size)
    (descriptionSize : (Utf8.encode description).length < UInt64.size)
    (keySize : (Utf8.encode key).length < UInt64.size)
    (valueSize : (Utf8.encode value).length < UInt64.size) :
    let node := ((Node.ofDescription description).withAttribute key value).withContent (.text text)
    Format.text.decode (Format.text.encode text) = .ok text ∧
      Format.text.option.decode (Format.text.option.encode (some text)) = .ok (some text) ∧
      ∃ bytes, Codec.cbor.encode node = .ok bytes ∧ Codec.cbor.decode bytes = .ok node := by
  intro node
  have sized : node.Sized := by
    refine ⟨descriptionSize, show 1 < UInt64.size by decide, ?_, size⟩
    intro entry mem
    obtain rfl := List.mem_singleton.1 mem
    exact ⟨keySize, valueSize⟩
  have shallow : node.height ≤ Node.heightLimit := show 1 ≤ Node.heightLimit by decide
  refine ⟨Format.decode_eq (Reads.text size), Format.decode_eq (Reads.someText size),
    node.toCbor, rfl, Node.decode_toCbor_of_le sized shallow⟩

theorem Codec.cbor_keeps_texts_over_borders :
    let text := String.ofList (List.replicate 4094 'q' ++ '日' :: List.replicate 4092 'q' ++ ['😀'])
    (Utf8.encode text).length = 8193 ∧
      Format.text.decode (Format.text.encode text) = .ok text ∧
      Codec.cbor.decode ((Node.ofDescription text).withAttribute text text |>.withContent
        (.text text)).toCbor =
        .ok ((Node.ofDescription text).withAttribute text text |>.withContent (.text text)) := by
  intro text
  have length : (Utf8.encode text).length = 8193 := by
    simp only [text, Utf8.encode, String.toList_ofList, List.append_assoc, List.cons_append,
      List.flatMap_append, List.flatMap_cons, List.length_append, List.length_flatMap,
      List.map_replicate, List.sum_replicate_nat, String.length_utf8EncodeChar]
    rw [show 'q'.utf8Size = 1 by decide, Nat.mul_one]
    rfl
  have size : (Utf8.encode text).length < UInt64.size := by
    rw [length]
    decide
  obtain ⟨read, -, bytes, ⟨⟩, node⟩ := Codec.cbor_keeps_texts size size size size
  exact ⟨length, read, node⟩

end SealedChat
