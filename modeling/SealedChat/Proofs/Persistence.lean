import SealedChat.History.Cbor
import SealedChat.History.Json

namespace SealedChat

variable {μ ι : Type} [Stamped μ ι] [DecidableEq ι]

theorem Cbor.Format.readOne_timeline (entries : Cbor.Format (List (Entry μ))) :
    (timeline entries).readOne = entries.readOne >>= fun read => pure (.ofEntries read) :=
  (bind_assoc _ _ _).symm

theorem Cbor.Format.decode_timeline (entries : Cbor.Format (List (Entry μ))) (bytes : Bytes) :
    (timeline entries).decode bytes = (entries.decode bytes).map .ofEntries := by
  rw [decode, decode, readOne_timeline]
  change (entries.readOne ⟨0, bytes⟩ >>= _) >>= _ = _
  cases entries.readOne ⟨0, bytes⟩ with
  | error e => rfl
  | ok read =>
    change ite _ _ _ = (ite _ _ _ : Except _ _).map _
    split <;> rfl

theorem Json.Format.readOne_timeline (entries : Json.Format (List (Entry μ))) :
    (timeline entries).readOne = entries.readOne >>= fun read => pure (.ofEntries read) := by
  simp only [readOne, timeline, bind_assoc, pure_bind]

theorem Json.Format.decode_timeline (entries : Json.Format (List (Entry μ))) (text : String) :
    (timeline entries).decode text = (entries.decode text).map .ofEntries := by
  rw [decode, decode, readOne_timeline]
  change (entries.readOne text.toList >>= _) >>= _ = _
  cases entries.readOne text.toList with
  | error e => rfl
  | ok read =>
    change ite _ _ _ = (ite _ _ _ : Except _ _).map _
    split <;> rfl

end SealedChat
