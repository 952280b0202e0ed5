import SealedChat.Proofs.Changes
import SealedChat.Proofs.Reading

namespace SealedChat

open Cbor Decoder

structure MessageKey.Sized (key : MessageKey) : Prop where
  chat : (Utf8.encode key.chat).length < UInt64.size
  id : (Utf8.encode key.id.text).length < UInt64.size
  sender : ∀ sender, key.sender = some sender → (Utf8.encode sender).length < UInt64.size

structure Message.Sized (message : Message) : Prop where
  key : message.key.Sized
  pushName : ∀ name, message.pushName = some name → (Utf8.encode name).length < UInt64.size
  payload : message.payload.length < UInt64.size

structure Timeline.Sized (timeline : Timeline Message) : Prop where
  count : timeline.entries.length < UInt64.size
  messages : ∀ entry ∈ timeline.entries, entry.message.Sized

variable {levels : Nat}

theorem MessageKey.reads_toCbor {key : MessageKey} (sized : key.Sized) :
    Reads (nextItem >>= ofCbor (levels + 1)) key.toCbor (.ok key) := by
  obtain ⟨chat, ⟨id⟩, fromMe, sender⟩ := key
  have fields : FieldsRead (readField levels) [
      ("chat_jid", writeText chat),
      ("id", writeText id),
      ("from_me", writeBool fromMe),
      ("sender_jid", writeOption writeText sender)]
      {} (.ok ⟨some chat, some id, some fromMe, some sender⟩) :=
    .named (Reads.field (Fields.mk · none none none) (Reads.text sized.chat))
      (by decide) (by simp) <|
    .named (Reads.field (Fields.mk (some chat) · none none) (Reads.text sized.id))
      (by decide) (by simp) <|
    .named (Reads.field (Fields.mk (some chat) (some id) · none) (Reads.bool fromMe))
      (by decide) (by simp) <|
    .named (Reads.field (Fields.mk (some chat) (some id) (some fromMe) ·)
        (Reads.optionText sized.sender))
      (by decide) nofun <|
    .done _
  exact .ofFields fields (show 4 < UInt64.size by decide) rfl

theorem Message.reads_toCbor {message : Message} (sized : message.Sized) :
    Reads (nextItem >>= ofCbor (levels + 2)) message.toCbor (.ok message) := by
  obtain ⟨key, timestamp, pushName, starred, payload⟩ := message
  have fields : FieldsRead (readField (levels + 1)) [
      ("key", key.toCbor),
      ("timestamp", writeNat timestamp.toNat),
      ("push_name", writeOption writeText pushName),
      ("starred", writeBool starred),
      ("payload", writeBytes payload)]
      {} (.ok ⟨some key, some timestamp, some pushName, some starred, some payload⟩) :=
    .named (Reads.field (Fields.mk · none none none none) (MessageKey.reads_toCbor sized.key))
      (by decide) (by simp) <|
    .named (Reads.field (Fields.mk (some key) · none none none) (Reads.unsigned timestamp))
      (by decide) (by simp) <|
    .named (Reads.field (Fields.mk (some key) (some timestamp) · none none)
        (Reads.optionText sized.pushName))
      (by decide) (by simp) <|
    .named (Reads.field (Fields.mk (some key) (some timestamp) (some pushName) · none)
        (Reads.bool starred))
      (by decide) (by simp) <|
    .named (Reads.field (Fields.mk (some key) (some timestamp) (some pushName) (some starred) ·)
        (Reads.byteString sized.payload))
      (by decide) nofun <|
    .done _
  exact .ofFields fields (show 5 < UInt64.size by decide) rfl

theorem Entry.reads_toCbor {entry : Entry Message} (sized : entry.message.Sized) :
    Reads (nextItem >>= ofCbor (levels + 3)) entry.toCbor (.ok entry) := by
  obtain ⟨message, order⟩ := entry
  have fields : FieldsRead (readField (levels + 2)) [
      ("message", message.toCbor),
      ("message_order_id", writeInt order.toInt)]
      {} (.ok ⟨some message, some order⟩) :=
    .named (Reads.field (Fields.mk · none) (Message.reads_toCbor sized)) (by decide) (by simp) <|
    .named (Reads.field (Fields.mk (some message) ·) (Reads.signed order)) (by decide) nofun <|
    .done _
  exact .ofFields fields (show 2 < UInt64.size by decide) rfl

namespace Timeline

variable {timeline : Timeline Message}

theorem Sized.reads_entries (sized : timeline.Sized) :
    Reads (nextItem >>= Format.entries.read (levels + 4)) (Format.entries.write timeline.entries)
      (.ok timeline.entries) := by
  have elements : ∀ entry ∈ timeline.entries,
      Reads (nextItem >>= Entry.ofCbor (levels + 3)) entry.toCbor (pure entry) :=
    fun entry member => Entry.reads_toCbor (sized.messages entry member)
  have whole : timeline.entries.mapM (m := Except DecodeError) (fun entry => pure (id entry)) =
      .ok timeline.entries := by
    rw [List.mapM_pure, List.map_id]
    rfl
  rw [← whole]
  exact Reads.sequence sized.count elements

theorem Ordered.ofCbor_toCbor (h : timeline.Ordered) (sized : timeline.Sized) :
    Format.history.decode (Format.history.encode timeline) = .ok timeline := by
  calc Format.history.decode (Format.history.encode timeline)
    _ = (Format.entries.decode (Format.entries.encode timeline.entries)).map .ofEntries :=
      Format.decode_timeline _ _
    _ = .ok (.ofEntries timeline.entries) :=
      congrArg (Except.map Timeline.ofEntries) (Format.decode_eq sized.reads_entries)
    _ = .ok timeline := congrArg Except.ok h.ofEntries_entries

theorem cbor_keeps_history (h : Reachable Forms.message timeline) (sized : timeline.Sized) :
    Format.history.decode (Format.history.encode timeline) = .ok timeline :=
  h.ordered.ofCbor_toCbor sized

theorem cbor_keeps_history_of_ties :
    let entry (id : String) (name : Option String) (payload : Bytes) (order : Int64) :
        Entry Message :=
      let key : MessageKey := { chat := "chat", id := ⟨id⟩, fromMe := name.isNone, sender := name }
      let message : Message :=
        { key, timestamp := 18446744073709551615, pushName := name, starred := true, payload }
      ⟨message, order⟩
    let a := entry "é" (some "😀") (List.replicate 300 0xFF) (-9223372036854775808)
    let b := entry "" none [] 9223372036854775807
    let c := entry "c" (some "") [7] (-1)
    let timeline : Timeline Message := [a, b, c].foldl (fun t entry => (t.addEntry entry).2) ∅
    Reachable Forms.message timeline ∧ timeline.entries = [b, c, a] ∧ timeline.Sized ∧
      Format.history.decode (Format.history.encode timeline) = .ok timeline := by
  intro entry a b c timeline
  have reachable : Reachable Forms.message timeline :=
    .change (.change (.change .empty (.addEntry a)) (.addEntry b)) (.addEntry c)
  have entries : timeline.entries = [b, c, a] := by decide +kernel
  have isChat : (Utf8.encode "chat").length < UInt64.size := by decide
  have long : (List.replicate 300 (0xFF : UInt8)).length < UInt64.size := by
    rw [List.length_replicate]
    decide
  have sized {id : String} {name : Option String} {payload : Bytes} {order : Int64}
      (isId : (Utf8.encode id).length < UInt64.size)
      (isName : ∀ text, name = some text → (Utf8.encode text).length < UInt64.size)
      (isPayload : payload.length < UInt64.size) : (entry id name payload order).message.Sized :=
    ⟨⟨isChat, isId, isName⟩, isName, isPayload⟩
  have all : timeline.Sized := by
    refine ⟨by rw [entries]; decide, ?_⟩
    simp only [entries, List.forall_mem_cons, List.not_mem_nil, false_implies, implies_true,
      and_true]
    refine ⟨sized (by decide) nofun (by decide), sized (by decide) ?_ (by decide),
      sized (by decide) ?_ long⟩
    · rintro text ⟨⟩
      decide
    · rintro text ⟨⟩
      decide
  exact ⟨reachable, entries, all, cbor_keeps_history reachable all⟩

end Timeline

end SealedChat
