import SealedChat.Proofs.Sending

namespace SealedChat.Sender

theorem checkSize_encrypt (limit : Nat) (key : Aead.Key) (nonce : Aead.Nonce) (plaintext : Bytes) :
    Frame.checkSize (Aead.encrypt key nonce none plaintext).length limit =
      Frame.checkSize (plaintext.length + Aead.tagSize) limit := by
  rw [Aead.length_encrypt]

theorem lt_maxPlaintextSize {limit : Nat} {plaintext : Bytes}
    (checked : Frame.checkSize (plaintext.length + Aead.tagSize) limit = .ok ()) :
    plaintext.length < Aead.maxPlaintextSize := by
  have short := Nat.le_trans (Frame.checkSize_eq_ok_iff.1 checked) (Nat.min_le_right _ _)
  have within : Frame.maxSize < Aead.maxPlaintextSize := by decide
  exact Nat.lt_of_le_of_lt (Nat.le_trans (Nat.le_add_right _ _) short) within

theorem sendNode_of_encoded {ν ε : Type} {codec : Codec ν ε} {node : ν} {plaintext : Bytes}
    (encoded : codec.encode node = .ok plaintext) (sender : Sender) (keys : SessionKeys) :
    sender.sendNode keys codec node =
      ((sender.send keys plaintext).1.mapError .send, (sender.send keys plaintext).2) := by
  rw [sendNode, encoded]

theorem sendNode_of_refused {ν ε : Type} {codec : Codec ν ε} {node : ν} {e : ε}
    (refused : codec.encode node = .error e) (sender : Sender) (keys : SessionKeys) :
    sender.sendNode keys codec node = (.error (.codec e), sender, keys) := by
  rw [sendNode, refused]

/-- A plaintext that is too long is refused for its size, whether a number is left or not. Any other
one is sent if a number is left: it takes that number and no other, and its frame says how long it
is. All refusals, also those of nodes, leave the sender and the keys as they are. -/
theorem send_decided (sender : Sender) (keys : SessionKeys) (plaintext : Bytes) :
    let size := plaintext.length + 16
    let limit := min sender.config.maxFrameSize.toNat 0xFFFFFF
    (limit < size →
      sender.send keys plaintext = (.error (.frame (.tooLarge size limit)), sender, keys)) ∧
    (size ≤ limit → keys.writeCounter = ⟨none⟩ →
      sender.send keys plaintext = (.error (.session .counterExhausted), sender, keys)) ∧
    (size ≤ limit → ∀ n, keys.writeCounter = ⟨some n⟩ →
      let body := Aead.encrypt keys.writeKey (.ofCounter n) none plaintext
      ∃ header, header.length = 3 ∧ Bytes.toNat header = body.length ∧ body.length = size ∧
        sender.send keys plaintext =
          (.ok (sender.intro ++ (header ++ body)), { sender with introSent := true },
            { keys with writeCounter := .ofNat (n.toNat + 1) })) ∧
    (size ≤ limit → ∀ key nonce,
      Frame.checkSize (Aead.encrypt key nonce none plaintext).length sender.limit = .ok ()) ∧
    (∀ e after keysAfter, sender.send keys plaintext = (.error e, after, keysAfter) →
      after = sender ∧ keysAfter = keys) ∧
    ∀ {ν ε : Type} (codec : Codec ν ε) (node : ν),
      (∀ e, codec.encode node = .error e →
        sender.sendNode keys codec node = (.error (.codec e), sender, keys)) ∧
      (codec.encode node = .ok plaintext →
        sender.sendNode keys codec node =
          ((sender.send keys plaintext).1.mapError .send, (sender.send keys plaintext).2)) ∧
      ∀ e after keysAfter, sender.sendNode keys codec node = (.error e, after, keysAfter) →
        after = sender ∧ keysAfter = keys := by
  intro size limit
  refine ⟨send_of_tooLong, ?_, ?_, ?_, fun _ _ _ => send_error, ?_⟩
  · intro short exhausted
    have stands : keys.writeCounter = .ofNat UInt64.size := exhausted
    exact send_of_exhausted short stands (Nat.le_refl _)
  · intro short n next
    have stands : keys.writeCounter = .ofNat n.toNat := by
      rw [next, ← Counter.startAt_eq_ofNat]
      rfl
    have fits : size ≤ Frame.maxSize := Nat.le_trans short (Nat.min_le_right _ _)
    refine ⟨Bytes.ofNat Frame.headerSize size, Bytes.length_ofNat _ _, ?_,
      Aead.length_encrypt, ?_⟩
    · rw [Aead.length_encrypt]
      exact Bytes.toNat_ofNat (Nat.lt_succ_of_le fits)
    · rw [send_of_short short stands n.toNat_lt_size, sealedFrame, UInt64.ofNat_toNat]
      rfl
  · intro short key nonce
    rw [checkSize_encrypt]
    exact Frame.checkSize_eq_ok_iff.2 short
  · intro ν ε codec node
    exact ⟨fun e refused => sendNode_of_refused refused sender keys,
      fun encoded => sendNode_of_encoded encoded sender keys, fun _ _ _ => sendNode_error⟩

theorem send_decided_at_limit :
    let sender : Sender := { config := { maxFrameSize := 20, introHeader := some [0xAA, 0xBB] } }
    let exhausted : SessionKeys := { SessionKeys.sampleClient with writeCounter := ⟨none⟩ }
    let last : SessionKeys :=
      { SessionKeys.sampleClient with writeCounter := ⟨some 0xFFFFFFFFFFFFFFFF⟩ }
    sender.send exhausted [1, 2, 3, 4, 5] = (.error (.frame (.tooLarge 21 20)), sender, exhausted) ∧
      sender.send exhausted [1, 2, 3, 4] =
        (.error (.session .counterExhausted), sender, exhausted) ∧
      ∃ header body, Bytes.toNat header = 20 ∧ body.length = 20 ∧
        sender.send last [1, 2, 3, 4] =
          (.ok ([0xAA, 0xBB] ++ (header ++ body)), { sender with introSent := true },
            exhausted) := by
  intro sender exhausted last
  obtain ⟨tooLarge, -⟩ := send_decided sender exhausted [1, 2, 3, 4, 5]
  obtain ⟨-, noNumber, -⟩ := send_decided sender exhausted [1, 2, 3, 4]
  obtain ⟨-, -, sent, -⟩ := send_decided sender last [1, 2, 3, 4]
  obtain ⟨header, -, number, size, accepted⟩ := sent (by decide) 0xFFFFFFFFFFFFFFFF rfl
  exact ⟨tooLarge (by decide), noNumber (by decide) rfl, header, _, number.trans size, size,
    accepted⟩

end SealedChat.Sender
