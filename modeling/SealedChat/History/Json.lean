import SealedChat.History.Fields
import SealedChat.History.Timeline
import SealedChat.Json.Format

namespace SealedChat

open Json

namespace MessageKey

def toJson (key : MessageKey) : List Char :=
  writeRecord [
    ("chat_jid", writeText key.chat),
    ("id", writeText key.id.text),
    ("from_me", writeBool key.fromMe),
    ("sender_jid", writeOption writeText key.sender)]

def ofJsonCells : Decoder MessageKey := do
  let chat ← Decoder.firstCell Format.text.read
  let id ← Decoder.nextCell Format.text.read
  let fromMe ← Decoder.nextCell Format.bool.read
  let sender ← Decoder.nextCell Format.text.option.read
  return { chat, id := ⟨id⟩, fromMe, sender }

def readJsonField (name : String) (fields : Fields) : Decoder Fields := do
  match name with
  | "chat_jid" => return { fields with chat := ← Decoder.field Format.text.read fields.chat }
  | "id" => return { fields with id := ← Decoder.field Format.text.read fields.id }
  | "from_me" => return { fields with fromMe := ← Decoder.field Format.bool.read fields.fromMe }
  | "sender_jid" =>
    return { fields with sender := ← Decoder.field Format.text.option.read fields.sender }
  | _ =>
    Decoder.passField
    return fields

def ofJson : Decoder MessageKey :=
  Decoder.record ofJsonCells do
    let fields ← Decoder.object readJsonField {}
    let chat ← Decoder.required fields.chat
    let id ← Decoder.required fields.id
    let fromMe ← Decoder.required fields.fromMe
    return { chat, id := ⟨id⟩, fromMe, sender := fields.sender.getD none }

end MessageKey

namespace Message

def toJson (message : Message) : List Char :=
  writeRecord [
    ("key", message.key.toJson),
    ("timestamp", Format.unsigned.write message.timestamp),
    ("push_name", writeOption writeText message.pushName),
    ("starred", writeBool message.starred),
    ("payload", Format.bytes.write message.payload)]

def ofJsonCells : Decoder Message := do
  let key ← Decoder.firstCell MessageKey.ofJson
  let timestamp ← Decoder.nextCell Format.unsigned.read
  let pushName ← Decoder.nextCell Format.text.option.read
  let starred ← Decoder.nextCell Format.bool.read
  let payload ← Decoder.nextCell Format.bytes.read
  return { key, timestamp, pushName, starred, payload }

def readJsonField (name : String) (fields : Fields) : Decoder Fields := do
  match name with
  | "key" => return { fields with key := ← Decoder.field MessageKey.ofJson fields.key }
  | "timestamp" =>
    return { fields with timestamp := ← Decoder.field Format.unsigned.read fields.timestamp }
  | "push_name" =>
    return { fields with pushName := ← Decoder.field Format.text.option.read fields.pushName }
  | "starred" => return { fields with starred := ← Decoder.field Format.bool.read fields.starred }
  | "payload" => return { fields with payload := ← Decoder.field Format.bytes.read fields.payload }
  | _ =>
    Decoder.passField
    return fields

def ofJson : Decoder Message :=
  Decoder.record ofJsonCells do
    let fields ← Decoder.object readJsonField {}
    let key ← Decoder.required fields.key
    let timestamp ← Decoder.required fields.timestamp
    let starred ← Decoder.required fields.starred
    let payload ← Decoder.required fields.payload
    return { key, timestamp, pushName := fields.pushName.getD none, starred, payload }

end Message

namespace Entry

def toJson (entry : Entry Message) : List Char :=
  writeRecord [
    ("message", entry.message.toJson),
    ("message_order_id", Format.signed.write entry.order)]

def ofJsonCells : Decoder (Entry Message) := do
  let message ← Decoder.firstCell Message.ofJson
  let order ← Decoder.nextCell Format.signed.read
  return { message, order }

def readJsonField (name : String) (fields : Fields) : Decoder Fields := do
  match name with
  | "message" => return { fields with message := ← Decoder.field Message.ofJson fields.message }
  | "message_order_id" =>
    return { fields with order := ← Decoder.field Format.signed.read fields.order }
  | _ =>
    Decoder.passField
    return fields

def ofJson : Decoder (Entry Message) :=
  Decoder.record ofJsonCells do
    let fields ← Decoder.object readJsonField {}
    let message ← Decoder.required fields.message
    let order ← Decoder.required fields.order
    return { message, order }

end Entry

namespace Json.Format

def entry : Format (Entry Message) where
  write := Entry.toJson
  read := Entry.ofJson

def timeline {μ ι : Type} [Stamped μ ι] [DecidableEq ι] (entries : Format (List (Entry μ))) :
    Format (Timeline μ) where
  write timeline := entries.write timeline.entries
  read := do return .ofEntries (← entries.read)

def history : Format (Timeline Message) :=
  timeline entry.list

end Json.Format

end SealedChat
