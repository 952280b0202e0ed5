import SealedChat.Cbor.Format
import SealedChat.History.Fields
import SealedChat.History.Timeline

namespace SealedChat

open Cbor

namespace MessageKey

def toCbor (key : MessageKey) : Bytes :=
  writeRecord [
    ("chat_jid", writeText key.chat),
    ("id", writeText key.id.text),
    ("from_me", writeBool key.fromMe),
    ("sender_jid", writeOption writeText key.sender)]

def readField (levels : Nat) (name : Bytes) (fields : Fields) : Decoder Fields := do
  if name = Utf8.encode "chat_jid" then
    return { fields with chat := ← Decoder.field "chat_jid" Decoder.text fields.chat }
  else if name = Utf8.encode "id" then
    return { fields with id := ← Decoder.field "id" Decoder.text fields.id }
  else if name = Utf8.encode "from_me" then
    return { fields with fromMe := ← Decoder.field "from_me" Decoder.bool fields.fromMe }
  else if name = Utf8.encode "sender_jid" then
    let value := Decoder.option Decoder.text
    return { fields with sender := ← Decoder.field "sender_jid" value fields.sender }
  else
    Decoder.passValue levels
    return fields

def ofCbor (levels : Nat) (item : Item) : Decoder MessageKey := do
  let fields ← Decoder.record levels readField {} item
  let chat ← Decoder.required "chat_jid" fields.chat
  let id ← Decoder.required "id" fields.id
  let fromMe ← Decoder.required "from_me" fields.fromMe
  return { chat, id := ⟨id⟩, fromMe, sender := fields.sender.getD none }

end MessageKey

namespace Message

def toCbor (message : Message) : Bytes :=
  writeRecord [
    ("key", message.key.toCbor),
    ("timestamp", writeNat message.timestamp.toNat),
    ("push_name", writeOption writeText message.pushName),
    ("starred", writeBool message.starred),
    ("payload", writeBytes message.payload)]

def readField (levels : Nat) (name : Bytes) (fields : Fields) : Decoder Fields := do
  if name = Utf8.encode "key" then
    return { fields with key := ← Decoder.field "key" (MessageKey.ofCbor levels) fields.key }
  else if name = Utf8.encode "timestamp" then
    return { fields with
      timestamp := ← Decoder.field "timestamp" Decoder.unsigned fields.timestamp }
  else if name = Utf8.encode "push_name" then
    let value := Decoder.option Decoder.text
    return { fields with pushName := ← Decoder.field "push_name" value fields.pushName }
  else if name = Utf8.encode "starred" then
    return { fields with starred := ← Decoder.field "starred" Decoder.bool fields.starred }
  else if name = Utf8.encode "payload" then
    return { fields with
      payload := ← Decoder.field "payload" (Decoder.byteString levels) fields.payload }
  else
    Decoder.passValue levels
    return fields

def ofCbor (levels : Nat) (item : Item) : Decoder Message := do
  let fields ← Decoder.record levels readField {} item
  let key ← Decoder.required "key" fields.key
  let timestamp ← Decoder.required "timestamp" fields.timestamp
  let starred ← Decoder.required "starred" fields.starred
  let payload ← Decoder.required "payload" fields.payload
  return { key, timestamp, pushName := fields.pushName.getD none, starred, payload }

end Message

namespace Entry

def toCbor (entry : Entry Message) : Bytes :=
  writeRecord [
    ("message", entry.message.toCbor),
    ("message_order_id", writeInt entry.order.toInt)]

def readField (levels : Nat) (name : Bytes) (fields : Fields) : Decoder Fields := do
  if name = Utf8.encode "message" then
    return { fields with
      message := ← Decoder.field "message" (Message.ofCbor levels) fields.message }
  else if name = Utf8.encode "message_order_id" then
    return { fields with order := ← Decoder.field "message_order_id" Decoder.signed fields.order }
  else
    Decoder.passValue levels
    return fields

def ofCbor (levels : Nat) (item : Item) : Decoder (Entry Message) := do
  let fields ← Decoder.record levels readField {} item
  let message ← Decoder.required "message" fields.message
  let order ← Decoder.required "message_order_id" fields.order
  return { message, order }

end Entry

namespace Cbor.Format

def entry : Format (Entry Message) where
  write := Entry.toCbor
  read := Entry.ofCbor

def entries : Format (List (Entry Message)) :=
  list entry fun b => .error (.wrongType (.unsigned b.toNat) "struct HistorySyncMessage")

def timeline {μ ι : Type} [Stamped μ ι] [DecidableEq ι] (entries : Format (List (Entry μ))) :
    Format (Timeline μ) where
  write timeline := entries.write timeline.entries
  read levels item := do
    return .ofEntries (← entries.read levels item)

def history : Format (Timeline Message) :=
  timeline entries

end Cbor.Format

end SealedChat
