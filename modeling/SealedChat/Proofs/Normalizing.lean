import Mathlib.Data.List.Perm.Basic
import SealedChat.Node.Markup
import SealedChat.Proofs.Nesting

namespace SealedChat

open Cbor Decoder

namespace Attributes

def lastValue? (pairs : List (String × String)) (key : String) : Option String :=
  pairs.reverse.lookup key

theorem get?_foldl_insert (attributes : Attributes) (pairs : List (String × String))
    (key : String) :
    (pairs.foldl (fun attributes pair => attributes.insert pair.1 pair.2) attributes).get? key =
      (lastValue? pairs key).or (attributes.get? key) := by
  induction pairs generalizing attributes with
  | nil => rfl
  | cons pair pairs ih =>
    rw [List.foldl_cons, ih, get?_insert, lastValue?, lastValue?, List.reverse_cons,
      List.lookup_append, lookup_cons, List.lookup_nil, Option.or_assoc]
    congr 1
    split <;> rfl

theorem get?_ofList (pairs : List (String × String)) (key : String) :
    (ofList pairs).get? key = lastValue? pairs key := by
  rw [ofList, get?_foldl_insert]
  exact Option.or_none

theorem mem_iff_lookup {entries : List (String × String)} {key value : String}
    (sorted : entries.Pairwise fun a b => a.1 < b.1) :
    (key, value) ∈ entries ↔ entries.lookup key = some value := by
  induction sorted with
  | nil => simp
  | @cons first entries least _ ih =>
    rw [List.mem_cons, ih, lookup_cons]
    by_cases same : key = first.1
    · have others : entries.lookup key ≠ some value := fun found =>
        String.lt_irrefl _ (same ▸ least (key, value) (ih.2 found))
      rw [if_pos same, or_iff_left others, Prod.ext_iff, and_iff_right same, Option.some.injEq,
        eq_comm]
    · rw [if_neg same, or_iff_right]
      rintro rfl
      exact same rfl

theorem mem_entries_iff {attributes : Attributes} {key value : String} :
    (key, value) ∈ attributes.entries ↔ attributes.get? key = some value :=
  mem_iff_lookup attributes.sorted

theorem eq_of_get? {a b : Attributes} (h : ∀ key, a.get? key = b.get? key) : a = b := by
  have nodup (c : Attributes) : c.entries.Nodup := by
    refine c.sorted.imp ?_
    rintro entry _ below rfl
    exact String.lt_irrefl _ below
  have perm : a.entries.Perm b.entries := by
    rw [List.perm_ext_iff_of_nodup (nodup a) (nodup b)]
    rintro ⟨key, value⟩
    rw [mem_entries_iff, mem_entries_iff, h]
  have entries : a.entries = b.entries := by
    refine perm.eq_of_pairwise ?_ a.sorted b.sorted
    exact fun _ _ _ _ below above => absurd above (String.lt_asymm below)
  cases a
  cases b
  cases entries
  rfl

end Attributes

namespace Node

def withAttributes (node : Node) (pairs : List (String × String)) : Node :=
  pairs.foldl (fun node pair => node.withAttribute pair.1 pair.2) node

theorem withAttributes_eq (description : String) (attributes : Attributes) (content : Content)
    (pairs : List (String × String)) :
    withAttributes ⟨description, attributes, content⟩ pairs =
      ⟨description,
        pairs.foldl (fun attributes pair => attributes.insert pair.1 pair.2) attributes,
        content⟩ := by
  induction pairs generalizing attributes with
  | nil => rfl
  | cons pair pairs ih => exact ih (attributes.insert pair.1 pair.2)

theorem withAttributes_withContent (description : String) (content : Content)
    (pairs : List (String × String)) :
    ((ofDescription description).withContent content).withAttributes pairs =
      ⟨description, .ofList pairs, content⟩ :=
  withAttributes_eq description ∅ content pairs

theorem decode_toCborWith {description : String} {attributes : Attributes} {content : Content}
    {bytes : Bytes} (size : (Utf8.encode description).length < UInt64.size)
    (read : ∀ levels, Reads (nextItem >>= Attributes.ofCbor (levels + 1)) bytes (.ok attributes))
    (sized : SizedContent content) :
    let node : Node := ⟨description, attributes, content⟩
    Codec.cbor.decode (toCborWith bytes description content) =
      if node.height ≤ heightLimit then .ok node else .error (.decode .tooDeep) := by
  have whole : Reads (nextItem >>= ofCbor (3 * (heightLimit - 1 + 1) + 1))
      (toCborWith bytes description content)
      (readWithin heightLimit ⟨description, attributes, content⟩) := by
    refine reads_within size (read _) sized ?_
    rintro nodes rfl node mem
    exact reads _ (sizedNodes_iff.1 sized.2 node mem)
  exact decode_of_reads whole

end Node

/-- Setting attributes one after another makes the node that is read back when its map lists the
same pairs in the same way, unless it has too many generations to be read. Its own map lists the
last value of each key, in the order of the bytes of the keys, and pairs with the same last values
can not be told apart by the bytes or the markup. -/
theorem Codec.cbor_normalizes_attributes {description : String} {content : Content}
    {pairs : List (String × String)} (size : (Utf8.encode description).length < UInt64.size)
    (count : pairs.length < UInt64.size)
    (texts : ∀ pair ∈ pairs, (Utf8.encode pair.1).length < UInt64.size ∧
      (Utf8.encode pair.2).length < UInt64.size)
    (sized : Node.SizedContent content) :
    let start := (Node.ofDescription description).withContent content
    let node := start.withAttributes pairs
    let listed (pairs : List (String × String)) :=
      Node.toCborWith (Attributes.pairsToCbor pairs) description content
    Codec.cbor.decode (listed pairs) =
        (if node.height ≤ Node.heightLimit then .ok node else .error (.decode .tooDeep)) ∧
      (∀ key, node.attribute? key = Attributes.lastValue? pairs key) ∧
      (∃ entries, Codec.cbor.encode node = .ok (listed entries) ∧
        entries.Pairwise (fun a b => Utf8.encode a.1 < Utf8.encode b.1) ∧
        ∀ key value, (key, value) ∈ entries ↔ Attributes.lastValue? pairs key = some value) ∧
      ∀ others, (∀ key, Attributes.lastValue? others key = Attributes.lastValue? pairs key) →
        Codec.cbor.encode (start.withAttributes others) = Codec.cbor.encode node ∧
          (start.withAttributes others).markup = node.markup := by
  intro start node listed
  have isNode : node = ⟨description, .ofList pairs, content⟩ :=
    Node.withAttributes_withContent description content pairs
  rw [isNode]
  refine ⟨?_, Attributes.get?_ofList pairs, ?_, ?_⟩
  · exact Node.decode_toCborWith size (fun _ => Attributes.reads_pairs count texts) sized
  · refine ⟨(Attributes.ofList pairs).entries, rfl,
      (Attributes.ofList pairs).sorted.imp Utf8.encode_lt, fun key value => ?_⟩
    rw [Attributes.mem_entries_iff, Attributes.get?_ofList]
  · intro others same
    have attributes : Attributes.ofList others = Attributes.ofList pairs :=
      Attributes.eq_of_get? fun key => by
        rw [Attributes.get?_ofList, Attributes.get?_ofList, same]
    rw [Node.withAttributes_withContent, attributes]
    exact ⟨rfl, rfl⟩

theorem Codec.cbor_normalizes_attributes_of_repeats :
    let pairs := [("😀", "1"), ("a", "2"), ("\uffee", "3"), ("a", ""), ("é", "4"), ("😀", "5")]
    let content : Content := .children [.ofDescription ""]
    let node := ((Node.ofDescription "é").withContent content).withAttributes pairs
    Codec.cbor.decode (Node.toCborWith (Attributes.pairsToCbor pairs) "é" content) = .ok node ∧
      node.attribute? "a" = some "" ∧ node.attribute? "b" = none ∧
      node.attributes.entries = [("a", ""), ("é", "4"), ("\uffee", "3"), ("😀", "5")] := by
  intro pairs content node
  have child : (Node.ofDescription "").Sized := ⟨by decide, by decide, nofun, trivial⟩
  have sized : Node.SizedContent content := ⟨show 1 < UInt64.size by decide, child, trivial⟩
  obtain ⟨read, value, -, -⟩ := @Codec.cbor_normalizes_attributes "é" content pairs (by decide)
    (by decide) (by decide) sized
  exact ⟨read.trans (if_pos (by decide)), (value "a").trans (by decide),
    (value "b").trans (by decide), by decide +kernel⟩

end SealedChat
