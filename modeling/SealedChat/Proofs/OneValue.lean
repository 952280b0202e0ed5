import SealedChat.Codec
import SealedChat.History.Cbor
import SealedChat.Proofs.Sequential
import SealedChat.Session.Config

namespace SealedChat.Cbor

variable {α : Type}

/-- Bytes that are a value are so only as a whole: no part in front of them is accepted, and nothing
more behind them. -/
structure Format.OneValue (format : Format α) : Prop where
  cut : ∀ {bytes front value}, format.decode bytes = .ok value → front <+: bytes →
    front ≠ bytes → format.decode front = .error .truncated
  extended : ∀ {bytes tail value}, format.decode bytes = .ok value → tail ≠ [] →
    format.decode (bytes ++ tail) = .error (.trailing tail.length)

namespace Sequential

theorem element (index : Nat) (count : Option Nat) :
    Sequential (Format.elementItem index count) := by
  unfold Format.elementItem
  dsimp only
  split
  · exact .refuse _
  · exact nextItem
  · refine .bind nextItem fun item => ?_
    split
    · exact .refuse _
    · exact settled item

theorem triple (levels : Nat) (item : Item) : Sequential (Format.triple.read levels item) := by
  refine .bind (passTags item _) fun item => ?_
  split
  · refine enter (fun levels => ?_) levels
    refine .bind (element 0 _) fun item => .bind (text item) fun a => ?_
    refine .bind (element 1 _) fun item => .bind (unsigned item) fun b => ?_
    refine .bind (element 2 _) fun item => .bind ?_ fun c => .pure _
    exact sequence (fun _ => octet) levels item
  · refine .bind (bytesContent _) fun bytes => ?_
    split
    · exact .refuse _
    · exact .refuse _
  · exact .refuse _

theorem configField (levels : Nat) (name : Bytes) (fields : FrameConfig.Fields) :
    Sequential (FrameConfig.readField levels name fields) :=
  choice (slot unsigned _ _) <| choice (slot (option (byteString levels)) _ _) <| unknown levels _

theorem config (levels : Nat) (item : Item) : Sequential (Format.config.read levels item) :=
  .bind (record configField levels _ item) fun _ => .pure _

theorem attributes (levels : Nat) (item : Item) : Sequential (Attributes.ofCbor levels item) := by
  refine map (fun _ key attributes => ?_) levels ∅ item
  exact .bind (text key) fun _ => .bind nextItem fun item => .bind (text item) fun _ => .pure _

section

variable {child : Item → Decoder Node} (h : ∀ item, Sequential (child item))

include h

theorem namedContent (levels : Nat) (item : Item) :
    Sequential (Node.namedContent child levels item) := by
  refine .bind (name item) fun name => ?_
  refine choice ?_ <| choice ?_ <| choice ?_ <| .refuse _
  · exact .bind nextItem fun item => .bind (text item) fun _ => .pure _
  · exact .bind nextItem fun item => .bind (byteString levels item) fun _ => .pure _
  · exact .bind nextItem fun item => .bind (sequence (fun _ => h) levels item) fun _ => .pure _

theorem nodeContent (levels : Nat) (item : Item) :
    Sequential (Node.contentOfCbor child levels item) := by
  refine .bind (passTags item _) fun item => ?_
  split
  · exact enter (fun levels => .bind nextItem fun item => namedContent h levels item) levels
  · exact enter (fun levels => .bind (settled item) fun item => namedContent h levels item) levels
  · exact .refuse _

theorem nodeField (levels : Nat) (name : Bytes) (fields : Node.Fields) :
    Sequential (Node.readField child levels name fields) := by
  refine choice (slot text _ _) <| choice (slot (attributes levels) _ _) <|
    choice (slot (fun item => ?_) _ _) <| unknown levels _
  exact .bind (option (nodeContent h levels) item) fun _ => .pure _

theorem nodeWith (levels : Nat) (item : Item) : Sequential (Node.ofCborWith child levels item) := by
  refine .bind (record (nodeField h) levels _ item) fun fields => ?_
  exact .bind (required _) fun _ => .bind (required _) fun _ => .pure _

end

theorem node (levels : Nat) (item : Item) : Sequential (Node.ofCbor levels item) := by
  fun_induction Node.ofCbor levels generalizing item with
  | case1 levels ih => exact nodeWith ih _ item
  | case2 levels => exact nodeWith (fun _ => .fail _) levels item

theorem messageKey (levels : Nat) (item : Item) : Sequential (MessageKey.ofCbor levels item) := by
  have fields levels name fields : Sequential (MessageKey.readField levels name fields) :=
    choice (slot text _ _) <| choice (slot text _ _) <| choice (slot bool _ _) <|
      choice (slot (option text) _ _) <| unknown levels _
  refine .bind (record fields levels _ item) fun fields => ?_
  exact .bind (required _) fun _ => .bind (required _) fun _ => .bind (required _) fun _ => .pure _

theorem message (levels : Nat) (item : Item) : Sequential (Message.ofCbor levels item) := by
  have fields levels name fields : Sequential (Message.readField levels name fields) :=
    choice (slot (messageKey levels) _ _) <| choice (slot unsigned _ _) <|
      choice (slot (option text) _ _) <| choice (slot bool _ _) <|
      choice (slot (byteString levels) _ _) <| unknown levels _
  refine .bind (record fields levels _ item) fun fields => ?_
  exact .bind (required _) fun _ => .bind (required _) fun _ => .bind (required _) fun _ =>
    .bind (required _) fun _ => .pure _

theorem entry (levels : Nat) (item : Item) : Sequential (Entry.ofCbor levels item) := by
  have fields levels name fields : Sequential (Entry.readField levels name fields) :=
    choice (slot (message levels) _ _) <| choice (slot signed _ _) <| unknown levels _
  refine .bind (record fields levels _ item) fun fields => ?_
  exact .bind (required _) fun _ => .bind (required _) fun _ => .pure _

theorem history (levels : Nat) (item : Item) : Sequential (Format.history.read levels item) :=
  .bind (sequence entry levels item) fun _ => .pure _

end Sequential

namespace Format

variable {format : Format α} {bytes : Bytes} {value : α}

theorem exists_of_decode_ok (h : format.decode bytes = .ok value) :
    ∃ offset, format.readOne ⟨0, bytes⟩ = .ok (value, ⟨offset, []⟩) := by
  rw [decode] at h
  cases read : format.readOne ⟨0, bytes⟩ with
  | error error =>
    rw [read] at h
    cases h
  | ok result =>
    obtain ⟨value', offset, rest⟩ := result
    rw [read] at h
    cases rest with
    | nil => cases h; exact ⟨offset, rfl⟩
    | cons b rest => cases h

theorem oneValue (h : ∀ item, Sequential (format.read levelLimit item)) : format.OneValue := by
  have reads : Sequential format.readOne := .bind .nextItem h
  have consumes {bytes value} (accepted : format.decode bytes = .ok value) :
      Consumes format.readOne 0 bytes value := by
    obtain ⟨offset, read⟩ := exists_of_decode_ok accepted
    obtain ⟨front, split, consumes⟩ := reads _ _ _ read
    obtain rfl : bytes = front := split.trans (List.append_nil front)
    exact consumes
  refine ⟨fun accepted isCut short => ?_, fun {bytes tail value} accepted more => ?_⟩
  · rw [decode, (consumes accepted).cut _ isCut short]
    rfl
  · rw [decode, (consumes accepted).whole tail]
    exact if_neg fun none => more (List.isEmpty_iff.1 none)

theorem all_oneValue :
    bool.OneValue ∧ octet.OneValue ∧ unsigned.OneValue ∧ signed.OneValue ∧ text.OneValue ∧
      text.option.OneValue ∧ Format.bytes.OneValue ∧ unsignedList.OneValue ∧ triple.OneValue ∧
      config.OneValue ∧ node.OneValue ∧ history.OneValue :=
  ⟨oneValue .bool, oneValue .octet, oneValue .unsigned, oneValue .signed, oneValue .text,
    oneValue (.option .text), oneValue (.byteString _), oneValue (.sequence (fun _ => .unsigned) _),
    oneValue (.triple _), oneValue (.config _), oneValue (.node _), oneValue (.history _)⟩

theorem all_oneValue_config :
    let bytes : Bytes := [0xC1, 0xBF] ++ writeText "intro_header" ++
      [0x5F, 0x41, 1, 0x42, 2, 3, 0xFF] ++ writeText "padding" ++ [0x82, 0xF6, 0xC2, 0x40] ++
      writeText "max_frame_size" ++ [0x1B, 0, 0, 0, 0, 0, 0, 0, 5, 0xFF]
    config.decode bytes = .ok { maxFrameSize := 5, introHeader := some [1, 2, 3] } ∧
      (∀ front, front <+: bytes → front ≠ bytes → config.decode front = .error .truncated) ∧
      ∀ tail, tail ≠ [] → config.decode (bytes ++ tail) = .error (.trailing tail.length) := by
  intro bytes
  have accepted :
      config.decode bytes = .ok { maxFrameSize := 5, introHeader := some [1, 2, 3] } := by
    decide +kernel
  obtain ⟨-, -, -, -, -, -, -, -, -, one, -, -⟩ := all_oneValue
  exact ⟨accepted, fun _ => one.cut accepted, fun _ => one.extended accepted⟩

end Format

end SealedChat.Cbor
