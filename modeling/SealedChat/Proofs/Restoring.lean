import SealedChat.Proofs.Changes
import SealedChat.Proofs.Parsing

namespace SealedChat

open Json

theorem MessageKey.reads_toJson (key : MessageKey) : Reads ofJson key.toJson key := by
  obtain ⟨chat, ⟨id⟩, fromMe, sender⟩ := key
  have fields : FieldsRead readJsonField [
      ("chat_jid", writeText chat),
      ("id", writeText id),
      ("from_me", writeBool fromMe),
      ("sender_jid", writeOption writeText sender)]
      {} ⟨some chat, some id, some fromMe, some sender⟩ :=
    .field (Reads.field (Fields.mk · none none none) (Reads.text chat)) <|
    .field (Reads.field (Fields.mk (some chat) · none none) (Reads.text id)) <|
    .field (Reads.field (Fields.mk (some chat) (some id) · none) (Reads.bool fromMe)) <|
    .last (Reads.field (Fields.mk (some chat) (some id) (some fromMe) ·) (Reads.optionText sender))
  exact fields.record rfl

theorem Message.reads_toJson (message : Message) : Reads ofJson message.toJson message := by
  obtain ⟨key, timestamp, pushName, starred, payload⟩ := message
  have fields : FieldsRead readJsonField [
      ("key", key.toJson),
      ("timestamp", Format.unsigned.write timestamp),
      ("push_name", writeOption writeText pushName),
      ("starred", writeBool starred),
      ("payload", Format.bytes.write payload)]
      {} ⟨some key, some timestamp, some pushName, some starred, some payload⟩ :=
    .field (Reads.field (Fields.mk · none none none none) key.reads_toJson) <|
    .field (Reads.field (Fields.mk (some key) · none none none) (Reads.unsigned timestamp)) <|
    .field (Reads.field (Fields.mk (some key) (some timestamp) · none none)
      (Reads.optionText pushName)) <|
    .field (Reads.field (Fields.mk (some key) (some timestamp) (some pushName) · none)
      (Reads.bool starred)) <|
    .last (Reads.field (Fields.mk (some key) (some timestamp) (some pushName) (some starred) ·)
      (Reads.bytes payload))
  exact fields.record rfl

theorem Entry.reads_toJson (entry : Entry Message) : Reads ofJson entry.toJson entry := by
  obtain ⟨message, order⟩ := entry
  have fields : FieldsRead readJsonField [
      ("message", message.toJson),
      ("message_order_id", Format.signed.write order)]
      {} ⟨some message, some order⟩ :=
    .field (Reads.field (Fields.mk · none) message.reads_toJson) <|
    .last (Reads.field (Fields.mk (some message) ·) (Reads.signed order))
  exact fields.record rfl

theorem Timeline.Ordered.ofJson_toJson {timeline : Timeline Message} (h : timeline.Ordered) :
    Format.history.decode (Format.history.encode timeline) = .ok timeline := by
  have read : Reads Format.entry.list.read (Format.entry.list.write timeline.entries)
      timeline.entries :=
    Reads.list (fun entry _ => ⟨'{', _, rfl, rfl, by decide⟩) fun entry _ => entry.reads_toJson
  calc Format.history.decode (Format.history.encode timeline)
    _ = (Format.entry.list.decode (Format.entry.list.encode timeline.entries)).map .ofEntries :=
      Format.decode_timeline _ _
    _ = .ok (.ofEntries timeline.entries) :=
      congrArg (Except.map Timeline.ofEntries) (Format.decode_eq read)
    _ = .ok timeline := congrArg Except.ok h.ofEntries_entries

namespace Timeline

theorem json_decode_encode {timeline : Timeline Message}
    (h : Reachable Forms.message timeline) :
    Format.history.decode (Format.history.encode timeline) = .ok timeline :=
  h.ordered.ofJson_toJson

theorem json_decode_encode_of_ties :
    let entry (id : String) (timestamp : UInt64) (name : Option String) (payload : Bytes)
        (order : Int64) : Entry Message :=
      let key : MessageKey :=
        { chat := "\"c\\h\n", id := ⟨id⟩, fromMe := name.isNone, sender := name }
      ⟨{ key, timestamp, pushName := name, starred := name.isSome, payload }, order⟩
    let last := entry "last" 18446744073709551615 (some "\x00 é 😀") [0, 255] (-9223372036854775808)
    let a := entry "a" 0 (some "") [] 9223372036854775807
    let b := entry "b" 0 none [34, 92] 0
    let c := entry "c" 0 (some "\t\r\x1f/") [7] (-1)
    let timeline : Timeline Message := [last, a, b, c].foldl (fun t entry => (t.addEntry entry).2) ∅
    Reachable Forms.message timeline ∧ timeline.entries = [b, c, a, last] ∧
      Format.history.decode (Format.history.encode timeline) = .ok timeline := by
  intro entry last a b c timeline
  have reachable : Reachable Forms.message timeline :=
    .change (.change (.change (.change .empty (.addEntry last)) (.addEntry a)) (.addEntry b))
      (.addEntry c)
  exact ⟨reachable, by decide +kernel, json_decode_encode reachable⟩

end Timeline

end SealedChat
