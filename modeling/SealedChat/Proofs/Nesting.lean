import SealedChat.Codec
import SealedChat.Proofs.Reading

/-!
How deep nodes may nest to be read back.

Reading takes three levels for each generation, and the last one needs one more, for its attributes.
So with `3 * k + 1` levels the nodes of at most `k` generations are read back, and all others are
refused (`Node.reads`), whatever stands in them.
-/

namespace SealedChat

open Cbor Decoder

namespace Attributes

theorem insertEntry_of_last {key value : String} {entries : List (String × String)}
    (h : ∀ entry ∈ entries, entry.1 < key) :
    insertEntry key value entries = entries ++ [(key, value)] := by
  induction entries with
  | nil => rfl
  | cons first entries ih =>
    obtain ⟨below, others⟩ := List.forall_mem_cons.1 h
    rw [insertEntry, if_neg (String.lt_asymm below), if_neg, ih others]
    · rfl
    · rintro rfl
      exact String.lt_irrefl _ below

theorem foldl_insert (attributes : Attributes) (entries : List (String × String))
    (h : (attributes.entries ++ entries).Pairwise (fun a b => a.1 < b.1)) :
    entries.foldl (fun attributes entry => attributes.insert entry.1 entry.2) attributes =
      ⟨attributes.entries ++ entries, h⟩ := by
  induction entries generalizing attributes with
  | nil => simp
  | cons entry entries ih =>
    have last : (attributes.insert entry.1 entry.2).entries = attributes.entries ++ [entry] :=
      insertEntry_of_last fun other mem =>
        (List.pairwise_append.1 h).2.2 other mem entry List.mem_cons_self
    have split : attributes.entries ++ entry :: entries =
        (attributes.insert entry.1 entry.2).entries ++ entries := by rw [last]; simp
    rw [List.foldl_cons, ih _ (split ▸ h)]
    simp only [split]

theorem ofList_entries (attributes : Attributes) : ofList attributes.entries = attributes :=
  foldl_insert empty attributes.entries attributes.sorted

end Attributes

namespace Node

mutual

def Sized : Node → Prop
  | ⟨description, attributes, content⟩ =>
    (Utf8.encode description).length < UInt64.size ∧
      attributes.entries.length < UInt64.size ∧
      (∀ entry ∈ attributes.entries, (Utf8.encode entry.1).length < UInt64.size ∧
        (Utf8.encode entry.2).length < UInt64.size) ∧
      SizedContent content
termination_by structural node => node

def SizedContent : Content → Prop
  | .empty => True
  | .text text => (Utf8.encode text).length < UInt64.size
  | .bytes bytes => bytes.length < UInt64.size
  | .children nodes => nodes.length < UInt64.size ∧ SizedNodes nodes
termination_by structural content => content

def SizedNodes : List Node → Prop
  | [] => True
  | node :: nodes => Sized node ∧ SizedNodes nodes
termination_by structural nodes => nodes

end

theorem sizedNodes_iff {nodes : List Node} : SizedNodes nodes ↔ ∀ node ∈ nodes, node.Sized := by
  induction nodes with
  | nil => simp [SizedNodes]
  | cons node nodes ih => rw [SizedNodes, ih, List.forall_mem_cons]

theorem nodesToCbor_eq (nodes : List Node) : nodesToCbor nodes = nodes.flatMap toCbor := by
  induction nodes with
  | nil => rfl
  | cons node nodes ih => rw [nodesToCbor, ih, List.flatMap_cons]

end Node

def Attributes.pairsToCbor (pairs : List (String × String)) : Bytes :=
  head .map pairs.length ++ pairs.flatMap fun pair => writeText pair.1 ++ writeText pair.2

theorem Attributes.reads_pairs {levels : Nat} {pairs : List (String × String)}
    (count : pairs.length < UInt64.size)
    (texts : ∀ pair ∈ pairs, (Utf8.encode pair.1).length < UInt64.size ∧
      (Utf8.encode pair.2).length < UInt64.size) :
    Reads (nextItem >>= Attributes.ofCbor (levels + 1)) (pairsToCbor pairs)
      (.ok (ofList pairs)) := by
  have entry (pair : String × String) (mem : pair ∈ pairs) (read : Attributes) :
      Reads (nextItem >>= fun key => do
          let key ← Decoder.text key
          let value ← Decoder.text (← nextItem)
          return read.insert key value)
        (writeText pair.1 ++ writeText pair.2) (.ok (read.insert pair.1 pair.2)) := by
    obtain ⟨key, value⟩ := texts pair mem
    rw [← bind_assoc]
    exact (Reads.text key).andThen ((Reads.text value).mapNext (read.insert pair.1))
  have whole : pairs.foldlM (m := Except DecodeError)
      (fun read pair => pure (read.insert pair.1 pair.2)) ∅ = .ok (ofList pairs) :=
    List.foldlM_pure
  rw [← whole]
  exact Reads.map count entry ∅

theorem Attributes.reads {levels : Nat} {attributes : Attributes}
    (count : attributes.entries.length < UInt64.size)
    (texts : ∀ entry ∈ attributes.entries, (Utf8.encode entry.1).length < UInt64.size ∧
      (Utf8.encode entry.2).length < UInt64.size) :
    Reads (nextItem >>= Attributes.ofCbor (levels + 1)) attributes.toCbor (.ok attributes) := by
  have read : Reads (nextItem >>= Attributes.ofCbor (levels + 1)) attributes.toCbor
      (.ok (ofList attributes.entries)) := reads_pairs count texts
  rwa [ofList_entries] at read

theorem Attributes.reads_zero {attributes : Attributes}
    (count : attributes.entries.length < UInt64.size) :
    Reads (nextItem >>= Attributes.ofCbor 0) attributes.toCbor (.error .tooDeep) :=
  Reads.item count nofun fun _ => Reads.fail _ _

namespace Node

def readContent (results : Node → Except DecodeError Node) : Content → Except DecodeError Content
  | .children nodes => (nodes.mapM results).map .children
  | content => .ok content

section

def contentOrEmpty (child : Item → Decoder Node) (levels : Nat) (item : Item) :
    Decoder Content := do
  return (← Decoder.option (contentOfCbor child levels) item).getD .empty

variable {child : Item → Decoder Node} {results : Node → Except DecodeError Node} {levels : Nat}

theorem reads_named {name : String} {value : Bytes} {result : Except DecodeError Content}
    (h : Reads (nextItem >>= namedContent child levels) (writeText name ++ value) result) :
    Reads (nextItem >>= contentOrEmpty child (levels + 1)) (writeRecord [(name, value)])
      result := by
  rw [← List.append_nil (writeText name ++ value)] at h
  have present : Reads (nextItem >>= Decoder.option (contentOfCbor child (levels + 1)))
      (writeRecord [(name, value)]) (result.map some) :=
    Reads.present (show 1 < UInt64.size by decide) (show Major.map ≠ .other by decide) fun _ => h
  have read := present.mapNext (·.getD Content.empty)
  cases result <;> exact read

theorem reads_content {content : Content} (sized : SizedContent content)
    (children : ∀ nodes, content = .children nodes → ∀ node ∈ nodes,
      Reads (nextItem >>= child) node.toCbor (results node)) :
    Reads (nextItem >>= contentOrEmpty child (levels + 2)) (contentToCbor content)
      (readContent results content) := by
  cases content with
  | empty => exact Reads.null.mapNext (·.getD Content.empty)
  | text text =>
    refine reads_named (Reads.entry (by decide) ?_)
    rw [if_pos rfl]
    exact (Reads.text sized).mapNext Content.text
  | bytes bytes =>
    refine reads_named (Reads.entry (by decide) ?_)
    rw [if_neg (Utf8.encode_ne (by decide)), if_pos rfl]
    exact (Reads.byteString sized).mapNext Content.bytes
  | children nodes =>
    refine reads_named (Reads.entry (by decide) ?_)
    rw [if_neg (Utf8.encode_ne (by decide)), if_neg (Utf8.encode_ne (by decide)),
      if_pos rfl, nodesToCbor_eq]
    refine Reads.mapNext Content.children ?_
    exact Reads.sequence sized.1 (children nodes rfl)

variable {fields : Fields} {bytes : Bytes}

theorem reads_description {description : String} (empty : fields.description = none)
    (size : (Utf8.encode description).length < UInt64.size) :
    Reads (readField child levels (Utf8.encode "description") fields) (writeText description)
      (.ok { fields with description := some description }) := by
  rw [readField, if_pos rfl, empty]
  exact Reads.field (fun slot => { fields with description := slot }) (Reads.text size)

theorem reads_attributes {result : Except DecodeError Attributes} (empty : fields.attributes = none)
    (h : Reads (nextItem >>= Attributes.ofCbor levels) bytes result) :
    Reads (readField child levels (Utf8.encode "attributes") fields) bytes
      (result.map fun attributes => { fields with attributes := some attributes }) := by
  rw [readField, if_neg (Utf8.encode_ne (by decide)), if_pos rfl, empty]
  exact Reads.field (fun slot => { fields with attributes := slot }) h

theorem reads_contentField {result : Except DecodeError Content} (empty : fields.content = none)
    (h : Reads (nextItem >>= contentOrEmpty child levels) bytes result) :
    Reads (readField child levels (Utf8.encode "content") fields) bytes
      (result.map fun content => { fields with content := some content }) := by
  rw [readField, if_neg (Utf8.encode_ne (by decide)),
    if_neg (Utf8.encode_ne (by decide)), if_pos rfl, empty]
  exact Reads.field (fun slot => { fields with content := slot }) h

def toCborWith (attributes : Bytes) (description : String) (content : Content) : Bytes :=
  writeRecord [("description", writeText description), ("attributes", attributes),
    ("content", contentToCbor content)]

theorem reads_toCborWith {description : String} {attributes : Attributes} {content : Content}
    (size : (Utf8.encode description).length < UInt64.size)
    (attributesRead : Reads (nextItem >>= Attributes.ofCbor (levels + 2)) bytes (.ok attributes))
    (sized : SizedContent content)
    (children : ∀ nodes, content = .children nodes → ∀ node ∈ nodes,
      Reads (nextItem >>= child) node.toCbor (results node)) :
    Reads (nextItem >>= ofCborWith child (levels + 3)) (toCborWith bytes description content)
      ((readContent results content).map (Node.mk description attributes)) := by
  have contentRead := @reads_content child results levels content sized children
  generalize readContent results content = result at contentRead
  have fields : Reads (nextItem >>= Decoder.record (levels + 3) (readField child) {})
      (toCborWith bytes description content)
      (result.map fun content =>
        { description := description, attributes := attributes, content := content }) := by
    refine Reads.record (show 3 < UInt64.size by decide)
      (.field (by decide) (reads_description rfl size)
        (.field (by decide) (reads_attributes rfl attributesRead) ?_))
    cases result with
    | error error => exact .refused (by decide) (reads_contentField rfl contentRead)
    | ok content => exact .field (by decide) (reads_contentField rfl contentRead) (.done _)
  unfold ofCborWith
  rw [← bind_assoc]
  cases result with
  | error error => exact List.append_nil (toCborWith _ _ _) ▸ fields.stop []
  | ok content => exact fields.andEnd (Reads.pure _)

theorem reads_toCbor_one {node : Node} (sized : node.Sized) :
    Reads (nextItem >>= ofCborWith child 1) node.toCbor (.error .tooDeep) := by
  obtain ⟨description, attributes, content⟩ := node
  obtain ⟨size, count, -, -⟩ := sized
  have fields : Reads (nextItem >>= Decoder.record 1 (readField child) {})
      (toCbor ⟨description, attributes, content⟩) (.error .tooDeep) :=
    Reads.record (show 3 < UInt64.size by decide)
      (.field (by decide) (reads_description rfl size)
        (.refused (by decide) (reads_attributes rfl (Attributes.reads_zero count))))
  unfold ofCborWith
  rw [← bind_assoc]
  exact List.append_nil (toCbor _) ▸ fields.stop []

end

def readWithin (k : Nat) (node : Node) : Except DecodeError Node :=
  if node.height ≤ k then .ok node else .error .tooDeep

theorem mapM_readWithin (k : Nat) (nodes : List Node) :
    nodes.mapM (readWithin k) = if heightOfNodes nodes ≤ k then .ok nodes else .error .tooDeep := by
  induction nodes with
  | nil => rfl
  | cons node nodes ih =>
    rw [List.mapM_cons, ih, readWithin, heightOfNodes]
    by_cases first : node.height ≤ k
    · by_cases others : heightOfNodes nodes ≤ k
      · rw [if_pos first, if_pos others, if_pos (Nat.max_le.2 ⟨first, others⟩)]
        rfl
      · rw [if_pos first, if_neg others, if_neg fun both => others (Nat.max_le.1 both).2]
        rfl
    · rw [if_neg first, if_neg fun both => first (Nat.max_le.1 both).1]
      rfl

theorem readContent_readWithin (k : Nat) (content : Content) :
    readContent (readWithin k) content =
      if heightOfContent content ≤ k then .ok content else .error .tooDeep := by
  cases content with
  | children nodes =>
    rw [readContent, mapM_readWithin, heightOfContent]
    split <;> rfl
  | empty => exact (if_pos (Nat.zero_le k)).symm
  | text text => exact (if_pos (Nat.zero_le k)).symm
  | bytes bytes => exact (if_pos (Nat.zero_le k)).symm

theorem height_pos (node : Node) : 0 < node.height := by
  cases node
  exact Nat.succ_pos _

theorem reads_within {k : Nat} {description : String} {attributes : Attributes}
    {content : Content} {bytes : Bytes} (size : (Utf8.encode description).length < UInt64.size)
    (attributesRead : Reads (nextItem >>= Attributes.ofCbor (3 * k + 3)) bytes (.ok attributes))
    (sized : SizedContent content)
    (children : ∀ nodes, content = .children nodes → ∀ node ∈ nodes,
      Reads (nextItem >>= ofCbor (3 * k + 1)) node.toCbor (readWithin k node)) :
    Reads (nextItem >>= ofCbor (3 * (k + 1) + 1)) (toCborWith bytes description content)
      (readWithin (k + 1) ⟨description, attributes, content⟩) := by
  have read : Reads (nextItem >>= ofCbor (3 * k + 1 + 3)) _ _ :=
    reads_toCborWith size attributesRead sized children
  rw [readContent_readWithin] at read
  have result : readWithin (k + 1) ⟨description, attributes, content⟩ =
      (if heightOfContent content ≤ k then Except.ok content else .error .tooDeep).map
        (Node.mk description attributes) := by
    simp only [readWithin, height, Nat.add_le_add_iff_right]
    split <;> rfl
  rw [result]
  exact read

theorem reads (k : Nat) {node : Node} (sized : node.Sized) :
    Reads (nextItem >>= ofCbor (3 * k + 1)) node.toCbor (readWithin k node) := by
  induction k generalizing node with
  | zero =>
    rw [readWithin, if_neg (Nat.not_le.2 node.height_pos)]
    exact reads_toCbor_one sized
  | succ k ih =>
    obtain ⟨description, attributes, content⟩ := node
    obtain ⟨size, count, texts, sizes⟩ := sized
    refine reads_within size (Attributes.reads count texts) sizes ?_
    rintro nodes rfl node mem
    exact ih (sizedNodes_iff.1 sizes.2 node mem)

def nested (node : Node) : Nat → Node
  | 0 => node
  | n + 1 => (ofDescription "").withChildren [nested node n]

theorem height_nested (node : Node) (n : Nat) : (nested node n).height = node.height + n := by
  induction n with
  | zero => rfl
  | succ n ih =>
    change max (nested node n).height 0 + 1 = _
    rw [ih, Nat.max_zero, Nat.add_assoc]

theorem sized_nested {node : Node} (sized : node.Sized) (n : Nat) : (nested node n).Sized := by
  induction n with
  | zero => exact sized
  | succ n ih => exact ⟨by decide, by decide, nofun, show 1 < UInt64.size by decide, ih, trivial⟩

def heightLimit : Nat := Format.levelLimit / 3

example : heightLimit = 85 := rfl

theorem decode_of_reads {node : Node} {bytes : Bytes}
    (read : Reads (nextItem >>= ofCbor (3 * heightLimit + 1)) bytes (readWithin heightLimit node)) :
    Codec.cbor.decode bytes =
      if node.height ≤ heightLimit then .ok node else .error (.decode .tooDeep) := by
  have decoded : Codec.cbor.decode bytes = (readWithin heightLimit node).mapError .decode :=
    congrArg (Except.mapError _) (Format.decode_eq read)
  rw [decoded, readWithin]
  split <;> rfl

theorem decode_toCbor_of_le {node : Node} (sized : node.Sized) (h : node.height ≤ heightLimit) :
    Codec.cbor.decode node.toCbor = .ok node :=
  (decode_of_reads (reads heightLimit sized)).trans (if_pos h)

theorem decode_toCbor_of_lt {node : Node} (sized : node.Sized) (h : heightLimit < node.height) :
    Codec.cbor.decode node.toCbor = .error (.decode .tooDeep) :=
  (decode_of_reads (reads heightLimit sized)).trans (if_neg (Nat.not_le.2 h))

end Node

/-- Every node can be written. It is read back if it has at most `heightLimit` generations, and
refused as nested too deep if it has more. -/
theorem Codec.cbor_decode_encode :
    80 ≤ Node.heightLimit ∧ ∀ node : Node, node.Sized →
      ∃ bytes, Codec.cbor.encode node = .ok bytes ∧
        (node.height ≤ Node.heightLimit → Codec.cbor.decode bytes = .ok node) ∧
        (Node.heightLimit < node.height →
          Codec.cbor.decode bytes = .error (.decode .tooDeep)) := by
  refine ⟨by decide, fun node sized => ⟨node.toCbor, rfl, fun within => ?_, fun beyond => ?_⟩⟩
  · exact Node.decode_toCbor_of_le sized within
  · exact Node.decode_toCbor_of_lt sized beyond

/-- With attributes and an empty list of children in the innermost node. -/
theorem Codec.cbor_decode_encode_nested :
    let node := ((Node.ofDescription "é").withAttribute "key" "value").withChildren []
    ((node.nested 84).Sized ∧ Codec.cbor.decode (node.nested 84).toCbor = .ok (node.nested 84)) ∧
      (node.nested 85).Sized ∧
        Codec.cbor.decode (node.nested 85).toCbor = .error (.decode .tooDeep) := by
  intro node
  have innermost : node.Sized := ⟨by decide, by decide, by decide, by decide, trivial⟩
  have sized (n : Nat) : (node.nested n).Sized := Node.sized_nested innermost n
  have height (n : Nat) : (node.nested n).height = 1 + n := Node.height_nested node n
  refine ⟨⟨sized 84, ?_⟩, sized 85, ?_⟩
  · obtain ⟨bytes, encoded, within, -⟩ := Codec.cbor_decode_encode.2 (node.nested 84) (sized 84)
    cases encoded
    exact within (height 84 ▸ by decide)
  · obtain ⟨bytes, encoded, -, beyond⟩ := Codec.cbor_decode_encode.2 (node.nested 85) (sized 85)
    cases encoded
    exact beyond (height 85 ▸ by decide)

end SealedChat
