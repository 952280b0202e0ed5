import SealedChat.Proofs.Numbering
import SealedChat.Proofs.Sealing
import SealedChat.Session.Receiver

namespace SealedChat.SessionKeys

variable {ν ε : Type} {codec : Codec ν ε}

def openAt (codec : Codec ν ε) (key : Aead.Key) (place : Nat) (body : Bytes) :
    Except (ReceiveError ε) ν :=
  if place < UInt64.size then openFrame codec key (UInt64.ofNat place) body
  else .error (.session .counterExhausted)

theorem receive_eq {keys : SessionKeys} {place : Nat} (stands : keys.readCounter = .ofNat place)
    (body : Bytes) :
    keys.receive codec body =
      (openAt codec keys.readKey place body, { keys with readCounter := .ofNat (place + 1) }) := by
  unfold receive openAt
  by_cases h : place < UInt64.size
  · rw [takeRead_of_lt stands h, if_pos h]
  · have exhausted : UInt64.size ≤ place := Nat.le_of_not_lt h
    have stays : Counter.ofNat place = .ofNat (place + 1) := by
      rw [Counter.ofNat_of_le exhausted, Counter.ofNat_of_le (Nat.le_succ_of_le exhausted)]
    rw [takeRead_of_le stands exhausted, if_neg h, ← stays, ← stands]

theorem receiveAll_eq {keys : SessionKeys} {place : Nat} (stands : keys.readCounter = .ofNat place)
    (bodies : List Bytes) :
    keys.receiveAll codec bodies =
      (bodies.mapIdx fun i body => openAt codec keys.readKey (place + i) body,
        { keys with readCounter := .ofNat (place + bodies.length) }) := by
  induction bodies generalizing keys place with
  | nil =>
    rw [receiveAll, List.mapIdx_nil, List.length_nil, Nat.add_zero, ← stands]
  | cons body bodies ih =>
    let next : SessionKeys := { keys with readCounter := .ofNat (place + 1) }
    have rest := ih (show next.readCounter = .ofNat (place + 1) from rfl)
    rw [receiveAll, receive_eq stands]
    dsimp only
    rw [rest, List.mapIdx_cons, List.length_cons]
    simp only [next, Nat.add_zero, Nat.add_assoc, Nat.add_comm 1]

theorem receiveRead_eq {keys : SessionKeys} {place : Nat} (stands : keys.readCounter = .ofNat place)
    (raw : Bytes) :
    keys.receiveRead codec { raw } =
      ((Frame.extract raw).mapIdx fun i body => openAt codec keys.readKey (place + i) body,
        { keys with readCounter := .ofNat (place + (Frame.extract raw).length) }) :=
  receiveAll_eq stands _

section OpenFrame

variable {key : Aead.Key} {counter : UInt64} {body : Bytes}

theorem openFrame_of_error {e : Aead.Error}
    (refused : Aead.decrypt key (.ofCounter counter) none body = .error e) :
    openFrame codec key counter body = .error (.aead e) := by
  rw [openFrame, refused]
  rfl

theorem openFrame_of_ok {plaintext : Bytes}
    (opened : Aead.decrypt key (.ofCounter counter) none body = .ok plaintext) :
    openFrame codec key counter body = (codec.decode plaintext).mapError .codec := by
  rw [openFrame, opened]
  rfl

theorem openFrame_ne_session (e : SessionError) :
    openFrame codec key counter body ≠ .error (.session e) := by
  cases opened : Aead.decrypt key (.ofCounter counter) none body with
  | error e =>
    rw [openFrame_of_error opened]
    nofun
  | ok plaintext =>
    rw [openFrame_of_ok opened]
    cases codec.decode plaintext <;> nofun

theorem openFrame_eq_aead_iff {e : Aead.Error} :
    openFrame codec key counter body = .error (.aead e) ↔
      Aead.decrypt key (.ofCounter counter) none body = .error e := by
  cases opened : Aead.decrypt key (.ofCounter counter) none body with
  | error e => rw [openFrame_of_error opened, Except.error.injEq, ReceiveError.aead.injEq,
      Except.error.injEq]
  | ok plaintext =>
    rw [openFrame_of_ok opened]
    apply iff_of_false _ nofun
    cases codec.decode plaintext <;> nofun

theorem openFrame_eq_ok_iff {node : ν} :
    openFrame codec key counter body = .ok node ↔
      ∃ plaintext, body = Aead.encrypt key (.ofCounter counter) none plaintext ∧
        codec.decode plaintext = .ok node := by
  simp only [← Aead.decrypt_eq_ok_iff]
  cases opened : Aead.decrypt key (.ofCounter counter) none body with
  | error e =>
    rw [openFrame_of_error opened]
    exact iff_of_false nofun nofun
  | ok plaintext =>
    rw [openFrame_of_ok opened]
    simp only [Except.ok.injEq, exists_eq_left']
    cases codec.decode plaintext with
    | error e => exact iff_of_false nofun nofun
    | ok other =>
      change Except.ok other = _ ↔ _
      rw [Except.ok.injEq, Except.ok.injEq]

theorem openFrame_eq_codec_iff {e : ε} :
    openFrame codec key counter body = .error (.codec e) ↔
      ∃ plaintext, body = Aead.encrypt key (.ofCounter counter) none plaintext ∧
        codec.decode plaintext = .error e := by
  simp only [← Aead.decrypt_eq_ok_iff]
  cases opened : Aead.decrypt key (.ofCounter counter) none body with
  | error e =>
    rw [openFrame_of_error opened]
    exact iff_of_false nofun nofun
  | ok plaintext =>
    rw [openFrame_of_ok opened]
    simp only [Except.ok.injEq, exists_eq_left']
    cases codec.decode plaintext with
    | error other =>
      change Except.error (ReceiveError.codec other) = _ ↔ _
      rw [Except.error.injEq, ReceiveError.codec.injEq, Except.error.injEq]
    | ok other => exact iff_of_false nofun nofun

end OpenFrame

theorem openAt_encrypt {key : Aead.Key} {place : Nat} {plaintext : Bytes}
    (h : place < UInt64.size) :
    openAt codec key place (Aead.encrypt key (.ofCounter (UInt64.ofNat place)) none plaintext) =
      (codec.decode plaintext).mapError .codec := by
  rw [openAt, if_pos h, openFrame_of_ok Aead.decrypt_encrypt]

/-- What comes of a body at a place: the only plaintexts that count are those whose ciphertext under
the number of the place is the body. -/
structure IsOutcome (codec : Codec ν ε) (key : Aead.Key) (place : Nat) (body : Bytes)
    (result : Except (ReceiveError ε) ν) : Prop where
  exhausted : result = .error (.session .counterExhausted) ↔ UInt64.size ≤ place
  missingTag (size : Nat) : result = .error (.aead (.missingTag size)) ↔
    place < UInt64.size ∧ body.length < 16 ∧ size = body.length
  node (node : ν) : result = .ok node ↔
    place < UInt64.size ∧ ∃ plaintext,
      body = Aead.encrypt key (.ofCounter (UInt64.ofNat place)) none plaintext ∧
        codec.decode plaintext = .ok node
  codec (e : ε) : result = .error (.codec e) ↔
    place < UInt64.size ∧ ∃ plaintext,
      body = Aead.encrypt key (.ofCounter (UInt64.ofNat place)) none plaintext ∧
        codec.decode plaintext = .error e
  decrypt : result = .error (.aead .decrypt) ↔
    place < UInt64.size ∧ 16 ≤ body.length ∧ ∀ plaintext,
      body ≠ Aead.encrypt key (.ofCounter (UInt64.ofNat place)) none plaintext

theorem openAt_isOutcome (key : Aead.Key) (place : Nat) (body : Bytes) :
    IsOutcome codec key place body (openAt codec key place body) := by
  unfold openAt
  by_cases h : place < UInt64.size
  · rw [if_pos h]
    constructor
    · exact iff_of_false (openFrame_ne_session _) (Nat.not_le.2 h)
    · intro size
      rw [openFrame_eq_aead_iff, Aead.decrypt_eq_missingTag_iff]
      exact (and_iff_right h).symm
    · intro node
      rw [openFrame_eq_ok_iff, and_iff_right h]
    · intro e
      rw [openFrame_eq_codec_iff, and_iff_right h]
    · rw [openFrame_eq_aead_iff, Aead.decrypt_eq_decrypt_iff]
      exact (and_iff_right h).symm
  · rw [if_neg h]
    constructor
    · exact iff_of_true rfl (Nat.le_of_not_lt h)
    · exact fun _ => iff_of_false nofun fun outcome => h outcome.1
    · exact fun _ => iff_of_false nofun fun outcome => h outcome.1
    · exact fun _ => iff_of_false nofun fun outcome => h outcome.1
    · exact iff_of_false nofun fun outcome => h outcome.1

theorem receiveAll_outcomes {keys : SessionKeys} {s : UInt64}
    (start : keys.readCounter = .startAt s) (codec : Codec ν ε) (bodies : List Bytes) :
    (keys.receiveAll codec bodies).1.length = bodies.length ∧
      (∀ i body, bodies[i]? = some body →
        ∃ result, (keys.receiveAll codec bodies).1[i]? = some result ∧
          IsOutcome codec keys.readKey (s.toNat + i) body result) ∧
      (keys.receiveAll codec bodies).2 =
        { keys with readCounter := .ofNat (s.toNat + bodies.length) } := by
  rw [receiveAll_eq (start.trans (Counter.startAt_eq_ofNat s))]
  refine ⟨List.length_mapIdx, ?_, rfl⟩
  intro i body found
  refine ⟨openAt codec keys.readKey (s.toNat + i) body, ?_, openAt_isOutcome _ _ _⟩
  rw [List.getElem?_mapIdx, found]
  rfl

theorem receiveAll_last_number :
    let keys := { sampleClient with readCounter := .startAt 0xFFFFFFFFFFFFFFFF }
    let body := Aead.encrypt sampleReadKey (.ofCounter 0xFFFFFFFFFFFFFFFF) none [1, 2, 3]
    keys.readCounter = .startAt 0xFFFFFFFFFFFFFFFF ∧
      (keys.receiveAll (Codec.raw Empty) [body, body]).1 =
        [.ok [1, 2, 3], .error (.session .counterExhausted)] ∧
      (keys.receiveAll (Codec.raw Empty) [body, body]).2 = { keys with readCounter := ⟨none⟩ } := by
  intro keys body
  have start : keys.readCounter = .startAt 0xFFFFFFFFFFFFFFFF := rfl
  obtain ⟨size, outcomes, after⟩ := receiveAll_outcomes start (Codec.raw Empty) [body, body]
  obtain ⟨first, isFirst, accepted⟩ := outcomes 0 body rfl
  obtain ⟨second, isSecond, refused⟩ := outcomes 1 body rfl
  refine ⟨start, ?_, after⟩
  have opened : first = .ok [1, 2, 3] := (accepted.node _).2 ⟨by decide, _, rfl, rfl⟩
  have exhausted : second = .error (.session .counterExhausted) := refused.exhausted.2 (by decide)
  rw [opened] at isFirst
  rw [exhausted] at isSecond
  generalize (keys.receiveAll (Codec.raw Empty) [body, body]).1 = results at size isFirst isSecond ⊢
  match results, size with
  | [_, _], _ =>
    cases isFirst
    cases isSecond
    rfl

end SealedChat.SessionKeys
