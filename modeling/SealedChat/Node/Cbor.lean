import SealedChat.Node
import SealedChat.Cbor.Format

namespace SealedChat

open Cbor

def Attributes.toCbor (attributes : Attributes) : Bytes :=
  head .map attributes.entries.length ++
    attributes.entries.flatMap fun (key, value) => writeText key ++ writeText value

namespace Node

mutual

def toCbor : Node → Bytes
  | ⟨description, attributes, content⟩ =>
    writeRecord [("description", writeText description), ("attributes", attributes.toCbor),
      ("content", contentToCbor content)]
termination_by structural node => node

def contentToCbor : Content → Bytes
  | .empty => writeNull
  | .text text => writeRecord [("Text", writeText text)]
  | .bytes bytes => writeRecord [("Bytes", writeBytes bytes)]
  | .children nodes => writeRecord [("Children", head .array nodes.length ++ nodesToCbor nodes)]
termination_by structural content => content

def nodesToCbor : List Node → Bytes
  | [] => []
  | node :: nodes => toCbor node ++ nodesToCbor nodes
termination_by structural nodes => nodes

end

end Node

def Attributes.ofCbor (levels : Nat) (item : Item) : Decoder Attributes :=
  Decoder.map levels (fun _ key attributes => do
    let key ← Decoder.text key
    let value ← Decoder.text (← Decoder.nextItem)
    return attributes.insert key value) ∅ item

namespace Node

structure Fields where
  description : Option String := none
  attributes : Option Attributes := none
  content : Option Content := none

variable (child : Item → Decoder Node)

def contentNames : List String := ["Text", "Bytes", "Children"]

def namedContent (levels : Nat) (item : Item) : Decoder Content := do
  let name ← Decoder.name item
  if name = Utf8.encode "Text" then
    return .text (← Decoder.text (← Decoder.nextItem))
  else if name = Utf8.encode "Bytes" then
    return .bytes (← Decoder.byteString levels (← Decoder.nextItem))
  else if name = Utf8.encode "Children" then
    let ofByte (b : UInt8) := .error (.wrongType (.unsigned b.toNat) "struct Node")
    return .children (← Decoder.sequence levels (fun _ => child) ofByte (← Decoder.nextItem))
  else
    Decoder.refuse (.unknownVariant (String.ofList (Utf8.repair name)) contentNames)

def contentOfCbor (levels : Nat) (item : Item) : Decoder Content := do
  let item ← Decoder.passTags item
  match item.header with
  | .map (some 1) =>
    Decoder.enter levels fun levels => do namedContent child levels (← Decoder.nextItem)
  | .text _ =>
    Decoder.enter levels fun levels => do namedContent child levels (← item.settled)
  | header => Decoder.refuse (.wrongType header "enum")

def readField (levels : Nat) (name : Bytes) (fields : Fields) : Decoder Fields := do
  if name = Utf8.encode "description" then
    return { fields with
      description := ← Decoder.field "description" Decoder.text fields.description }
  else if name = Utf8.encode "attributes" then
    return { fields with
      attributes := ← Decoder.field "attributes" (Attributes.ofCbor levels) fields.attributes }
  else if name = Utf8.encode "content" then
    let value (item : Item) : Decoder Content := do
      return (← Decoder.option (contentOfCbor child levels) item).getD .empty
    return { fields with content := ← Decoder.field "content" value fields.content }
  else
    Decoder.passValue levels
    return fields

def ofCborWith (levels : Nat) (item : Item) : Decoder Node := do
  let fields ← Decoder.record levels (readField child) {} item
  let description ← Decoder.required "description" fields.description
  let attributes ← Decoder.required "attributes" fields.attributes
  return ⟨description, attributes, fields.content.getD .empty⟩

def ofCbor : (levels : Nat) → Item → Decoder Node
  | levels + 3 => ofCborWith (ofCbor levels) (levels + 3)
  | levels => ofCborWith (fun _ => Decoder.fail .tooDeep) levels

end Node

def Cbor.Format.node : Format Node where
  write := Node.toCbor
  read := Node.ofCbor

end SealedChat
