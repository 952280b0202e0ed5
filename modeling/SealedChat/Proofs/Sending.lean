import SealedChat.Proofs.Framing
import SealedChat.Proofs.Numbering
import SealedChat.Proofs.Sealing
import SealedChat.Session.Sender

namespace SealedChat

def sealedFrame (key : Aead.Key) (place : Nat) (plaintext : Bytes) : Bytes :=
  Bytes.ofNat Frame.headerSize (plaintext.length + Aead.tagSize) ++
    Aead.encrypt key (.ofCounter (UInt64.ofNat place)) none plaintext

def sealedStream (key : Aead.Key) : (place : Nat) → List Bytes → Bytes
  | _, [] => []
  | place, plaintext :: plaintexts =>
    sealedFrame key place plaintext ++ sealedStream key (place + 1) plaintexts

theorem sealedStream_append (key : Aead.Key) (place : Nat) (first second : List Bytes) :
    sealedStream key place (first ++ second) =
      sealedStream key place first ++ sealedStream key (place + first.length) second := by
  induction first generalizing place with
  | nil => rfl
  | cons plaintext first ih =>
    rw [List.cons_append, sealedStream, sealedStream, ih, List.append_assoc, List.length_cons,
      Nat.add_assoc, Nat.add_comm 1]

def Fits (plaintext : Bytes) : Prop :=
  plaintext.length + Aead.tagSize ≤ Frame.maxSize

theorem write_encrypt {maxFrameSize : Nat} {plaintext : Bytes}
    (h : plaintext.length + Aead.tagSize ≤ min maxFrameSize Frame.maxSize) (key : Aead.Key)
    (place : Nat) :
    Frame.write maxFrameSize (Aead.encrypt key (.ofCounter (UInt64.ofNat place)) none plaintext) =
      .ok (sealedFrame key place plaintext) := by
  rw [Frame.write_eq_ok_iff, Aead.length_encrypt]
  exact ⟨h, rfl⟩

theorem extract_sealedFrame {key : Aead.Key} {place : Nat} {plaintext : Bytes}
    (fit : Fits plaintext) (rest : Bytes) :
    Frame.extract (sealedFrame key place plaintext ++ rest) =
      Aead.encrypt key (.ofCounter (UInt64.ofNat place)) none plaintext :: Frame.extract rest := by
  apply Frame.extract_append
  apply write_encrypt
  rw [Nat.min_self]
  exact fit

namespace Sender

variable {sender : Sender} {keys : SessionKeys} {plaintext : Bytes} {place : Nat}

theorem send_of_tooLong
    (long : min sender.limit Frame.maxSize < plaintext.length + Aead.tagSize) :
    sender.send keys plaintext =
      (.error (.frame (.tooLarge (plaintext.length + Aead.tagSize)
        (min sender.limit Frame.maxSize))), sender, keys) := by
  rw [send, Frame.checkSize]
  dsimp only
  rw [if_neg (Nat.not_le.2 long)]

theorem send_of_exhausted
    (short : plaintext.length + Aead.tagSize ≤ min sender.limit Frame.maxSize)
    (stands : keys.writeCounter = .ofNat place) (exhausted : UInt64.size ≤ place) :
    sender.send keys plaintext = (.error (.session .counterExhausted), sender, keys) := by
  rw [send, Frame.checkSize_eq_ok_iff.2 short, SessionKeys.takeWrite_of_le stands exhausted]

theorem send_of_short
    (short : plaintext.length + Aead.tagSize ≤ min sender.limit Frame.maxSize)
    (stands : keys.writeCounter = .ofNat place) (h : place < UInt64.size) :
    sender.send keys plaintext =
      (.ok (sender.intro ++ sealedFrame keys.writeKey place plaintext),
        { sender with introSent := true }, { keys with writeCounter := .ofNat (place + 1) }) := by
  rw [send, Frame.checkSize_eq_ok_iff.2 short, SessionKeys.takeWrite_of_lt stands h]
  dsimp only
  rw [write_encrypt short]

theorem send_cases (sender : Sender) (stands : keys.writeCounter = .ofNat place)
    (plaintext : Bytes) :
    (∃ e, sender.send keys plaintext = (.error e, sender, keys)) ∨
      plaintext.length + Aead.tagSize ≤ min sender.limit Frame.maxSize ∧ place < UInt64.size ∧
        sender.send keys plaintext =
          (.ok (sender.intro ++ sealedFrame keys.writeKey place plaintext),
            { sender with introSent := true },
            { keys with writeCounter := .ofNat (place + 1) }) := by
  rcases Nat.lt_or_ge (min sender.limit Frame.maxSize) (plaintext.length + Aead.tagSize) with
    long | short
  · exact .inl ⟨_, send_of_tooLong long⟩
  · rcases Nat.lt_or_ge place UInt64.size with h | exhausted
    · exact .inr ⟨short, h, send_of_short short stands h⟩
    · exact .inl ⟨_, send_of_exhausted short stands exhausted⟩

end Sender

structure Sends (keys : SessionKeys) (place : Nat) (plaintexts : List Bytes) (output : Bytes)
    (after : SessionKeys) : Prop where
  output_eq : output = sealedStream keys.writeKey place plaintexts
  after_eq : after = { keys with writeCounter := .ofNat (place + plaintexts.length) }
  fits : ∀ plaintext ∈ plaintexts, Fits plaintext
  bounded : place + plaintexts.length ≤ UInt64.size

namespace Sends

variable {keys after last : SessionKeys} {place : Nat} {output more : Bytes}

theorem nil (stands : keys.writeCounter = .ofNat place) (bounded : place ≤ UInt64.size) :
    Sends keys place [] [] keys := by
  refine ⟨rfl, ?_, nofun, bounded⟩
  rw [List.length_nil, Nat.add_zero, ← stands]

theorem cons {plaintext : Bytes} {plaintexts : List Bytes}
    (first : Sends keys place [plaintext] output after)
    (others : Sends after (place + 1) plaintexts more last) :
    Sends keys place (plaintext :: plaintexts) (output ++ more) last := by
  obtain ⟨rfl, rfl, fit, -⟩ := first
  obtain ⟨rfl, rfl, fits, bounded⟩ := others
  have length : place + 1 + plaintexts.length = place + (plaintexts.length + 1) := by omega
  rw [length] at bounded
  refine ⟨?_, ?_, ?_, bounded⟩
  · exact (sealedStream_append keys.writeKey place [plaintext] plaintexts).symm
  · rw [length]
    rfl
  · intro p member
    rcases List.mem_cons.1 member with rfl | member
    · exact fit p (List.mem_singleton_self p)
    · exact fits p member

end Sends

namespace Sender

variable {sender after : Sender} {keys keysAfter : SessionKeys} {plaintext output : Bytes}
  {place : Nat}

theorem send_error {e : SendError} (h : sender.send keys plaintext = (.error e, after, keysAfter)) :
    after = sender ∧ keysAfter = keys := by
  obtain ⟨place, -, stands⟩ := keys.writeCounter.exists_eq_ofNat
  rcases send_cases sender stands plaintext with ⟨e', refused⟩ | ⟨-, -, accepted⟩
  · cases h.symm.trans refused
    exact ⟨rfl, rfl⟩
  · cases h.symm.trans accepted

theorem send_ok (noIntro : sender.config.introHeader = none)
    (stands : keys.writeCounter = .ofNat place)
    (h : sender.send keys plaintext = (.ok output, after, keysAfter)) :
    after.config = sender.config ∧ Sends keys place [plaintext] output keysAfter := by
  rcases send_cases sender stands plaintext with ⟨e, refused⟩ | ⟨short, bound, accepted⟩
  · cases h.symm.trans refused
  · cases h.symm.trans accepted
    refine ⟨rfl, ?_, rfl, ?_, bound⟩
    · have nothing : sender.intro = [] := by
        rw [intro, noIntro]
        split <;> rfl
      rw [nothing, sealedStream, sealedStream, List.append_nil]
      rfl
    · intro p member
      cases List.mem_singleton.1 member
      exact Nat.le_trans short (Nat.min_le_right _ _)

theorem sendAll_ok {plaintexts : List Bytes} (noIntro : sender.config.introHeader = none)
    (stands : keys.writeCounter = .ofNat place) (bounded : place ≤ UInt64.size)
    (h : sender.sendAll keys plaintexts = (.ok output, after, keysAfter)) :
    Sends keys place plaintexts output keysAfter := by
  induction plaintexts generalizing sender keys place output with
  | nil =>
    cases h
    exact .nil stands bounded
  | cons plaintext plaintexts ih =>
    rw [sendAll] at h
    split at h
    · cases h
    · next output' sender' keys' sent =>
      obtain ⟨sameConfig, first⟩ := send_ok noIntro stands sent
      have next : keys'.writeCounter = .ofNat (place + 1) := by
        rw [first.after_eq]
        rfl
      rcases others : sender'.sendAll keys' plaintexts with ⟨_ | more, sender'', keys''⟩
      · rw [others] at h
        cases h
      · rw [others] at h
        cases h
        exact first.cons (ih (sameConfig ▸ noIntro) next first.bounded others)

section Node

variable {ν ε : Type} {codec : Codec ν ε} {node : ν}

theorem sendNode_error {e : SendNodeError ε}
    (h : sender.sendNode keys codec node = (.error e, after, keysAfter)) :
    after = sender ∧ keysAfter = keys := by
  rw [sendNode] at h
  split at h
  · cases h
    exact ⟨rfl, rfl⟩
  · next plaintext _ =>
    rcases sent : sender.send keys plaintext with ⟨_ | output, sender', keys'⟩
    · rw [sent] at h
      cases h
      exact send_error sent
    · rw [sent] at h
      cases h

theorem sendNode_of_short (encoded : codec.encode node = .ok plaintext)
    (short : plaintext.length + Aead.tagSize ≤ min sender.limit Frame.maxSize)
    (stands : keys.writeCounter = .ofNat place) (h : place < UInt64.size) :
    sender.sendNode keys codec node =
      (.ok (sender.intro ++ sealedFrame keys.writeKey place plaintext),
        { sender with introSent := true }, { keys with writeCounter := .ofNat (place + 1) }) := by
  rw [sendNode, encoded]
  dsimp only
  rw [send_of_short short stands h]
  rfl

theorem sendNode_ok (noIntro : sender.config.introHeader = none)
    (stands : keys.writeCounter = .ofNat place)
    (h : sender.sendNode keys codec node = (.ok output, after, keysAfter)) :
    after.config = sender.config ∧
      ∃ plaintext, codec.encode node = .ok plaintext ∧
        Sends keys place [plaintext] output keysAfter := by
  rw [sendNode] at h
  split at h
  · cases h
  · next plaintext encoded =>
    rcases sent : sender.send keys plaintext with ⟨_ | output', sender', keys'⟩
    · rw [sent] at h
      cases h
    · rw [sent] at h
      cases h
      obtain ⟨sameConfig, sends⟩ := send_ok noIntro stands sent
      exact ⟨sameConfig, plaintext, encoded, sends⟩

end Node

end Sender

theorem SessionKeys.seal_ok {keys after : SessionKeys} {place : Nat} {plaintexts : List Bytes}
    {output : Bytes} (stands : keys.writeCounter = .ofNat place) (bounded : place ≤ UInt64.size)
    (h : keys.seal plaintexts = (.ok output, after)) :
    Sends keys place plaintexts output after := by
  rw [SessionKeys.seal] at h
  rcases sent : Sender.sendAll {} keys plaintexts with ⟨result, sender, keys'⟩
  rw [sent] at h
  cases h
  exact Sender.sendAll_ok rfl stands bounded sent

end SealedChat
