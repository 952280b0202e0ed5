import Mathlib.Logic.ExistsUnique
import SealedChat.Aead

namespace SealedChat

namespace Gcm

variable {cipher : Block → Block}

theorem decrypt?_eq_some_iff {nonce aad sealed plaintext : Bytes} :
    decrypt? cipher nonce aad sealed = some plaintext ↔
      sealed = encrypt cipher nonce aad plaintext := by
  unfold decrypt? encrypt
  dsimp only
  constructor
  · intro h
    split at h
    · next tagged =>
      cases h
      rw [counterMode_counterMode, ← tagged, List.take_append_drop]
    · cases h
  · rintro rfl
    have size : (counterMode cipher nonce plaintext ++
        tag cipher nonce aad (counterMode cipher nonce plaintext)).length - tagSize =
          (counterMode cipher nonce plaintext).length := by
      rw [List.length_append, length_tag, Nat.add_sub_cancel]
    rw [size, List.take_left, List.drop_left, if_pos rfl, counterMode_counterMode]

theorem encrypt_counterMode (nonce aad ciphertext : Bytes) :
    encrypt cipher nonce aad (counterMode cipher nonce ciphertext) =
      ciphertext ++ tag cipher nonce aad ciphertext := by
  simp only [encrypt, counterMode_counterMode]

theorem encrypt_inj_of_take {nonce aad plaintext other : Bytes} {n : Nat}
    (size : plaintext.length = n) (size' : other.length = n)
    (h : (encrypt cipher nonce aad plaintext).take n = (encrypt cipher nonce aad other).take n) :
    plaintext = other := by
  have front (text : Bytes) (length : text.length = n) :
      (encrypt cipher nonce aad text).take n = counterMode cipher nonce text := by
    simp [encrypt, ← length]
  rw [front plaintext size, front other size'] at h
  have back := congrArg (counterMode cipher nonce) h
  rwa [counterMode_counterMode, counterMode_counterMode] at back

end Gcm

namespace Aead

variable {key : Key} {nonce : Nonce} {aad : Option Bytes} {ciphertext plaintext : Bytes}

@[simp] theorem length_encrypt :
    (encrypt key nonce aad plaintext).length = plaintext.length + tagSize := by
  simp only [encrypt, Gcm.encrypt, List.length_append, Gcm.length_counterMode, Gcm.length_tag]
  rfl

theorem decrypt_eq_ok_iff :
    decrypt key nonce aad ciphertext = .ok plaintext ↔
      ciphertext = encrypt key nonce aad plaintext := by
  unfold decrypt
  split
  · next short =>
    apply iff_of_false nofun
    rintro rfl
    rw [length_encrypt] at short
    omega
  · next long =>
    rw [encrypt, ← Gcm.decrypt?_eq_some_iff]
    dsimp only
    split
    · next found => rw [found, Except.ok.injEq, Option.some.injEq]
    · next none => exact iff_of_false nofun (fun found => nomatch none.symm.trans found)

theorem decrypt_encrypt :
    decrypt key nonce aad (encrypt key nonce aad plaintext) = .ok plaintext :=
  decrypt_eq_ok_iff.2 rfl

theorem encrypt_eq_of_take {other : Bytes} {n : Nat}
    (size : (encrypt key nonce aad plaintext).length = n + tagSize)
    (size' : (encrypt key nonce aad other).length = n + tagSize)
    (h : (encrypt key nonce aad plaintext).take n = (encrypt key nonce aad other).take n) :
    encrypt key nonce aad plaintext = encrypt key nonce aad other := by
  rw [length_encrypt, Nat.add_right_cancel_iff] at size size'
  rw [Gcm.encrypt_inj_of_take size size' h]

theorem decrypt_eq_missingTag_iff {size : Nat} :
    decrypt key nonce aad ciphertext = .error (.missingTag size) ↔
      ciphertext.length < tagSize ∧ size = ciphertext.length := by
  unfold decrypt
  split
  · next short =>
    rw [Except.error.injEq, Error.missingTag.injEq]
    exact ⟨fun h => ⟨short, h.symm⟩, fun h => h.2.symm⟩
  · next long =>
    apply iff_of_false
    · dsimp only
      split <;> nofun
    · exact fun h => long h.1

theorem decrypt_eq_decrypt_iff :
    decrypt key nonce aad ciphertext = .error .decrypt ↔
      tagSize ≤ ciphertext.length ∧ ∀ plaintext, ciphertext ≠ encrypt key nonce aad plaintext := by
  cases opened : decrypt key nonce aad ciphertext with
  | ok plaintext => exact iff_of_false nofun fun h => h.2 plaintext (decrypt_eq_ok_iff.1 opened)
  | error e =>
    have none : ∀ plaintext, ciphertext ≠ encrypt key nonce aad plaintext := by
      intro plaintext same
      cases opened.symm.trans (decrypt_eq_ok_iff.2 same)
    cases e with
    | missingTag size =>
      apply iff_of_false nofun
      intro h
      exact absurd (decrypt_eq_missingTag_iff.1 opened).1 (Nat.not_lt.2 h.1)
    | decrypt =>
      apply iff_of_true rfl
      refine ⟨Nat.le_of_not_lt fun short => ?_, none⟩
      cases opened.symm.trans (decrypt_eq_missingTag_iff.2 ⟨short, rfl⟩)

theorem exists_encrypt_eq_append (key : Key) (nonce : Nonce) (aad : Option Bytes) (body : Bytes) :
    ∃ plaintext tag, tag.length = tagSize ∧ encrypt key nonce aad plaintext = body ++ tag :=
  ⟨_, _, Gcm.length_tag _ _ _ _, Gcm.encrypt_counterMode _ _ _⟩

theorem existsUnique_tag (key : Key) (nonce : Nonce) (aad : Option Bytes) (body : Bytes) :
    ∃! tag : Bytes, tag.length = tagSize ∧
      ∃ plaintext, decrypt key nonce aad (body ++ tag) = .ok plaintext := by
  obtain ⟨plaintext, tag, size, isSealed⟩ := exists_encrypt_eq_append key nonce aad body
  refine ⟨tag, ⟨size, plaintext, decrypt_eq_ok_iff.2 isSealed.symm⟩, ?_⟩
  rintro other ⟨size', plaintext', opened⟩
  have isSealed' := (decrypt_eq_ok_iff.1 opened).symm
  have same : encrypt key nonce aad plaintext' = encrypt key nonce aad plaintext := by
    apply encrypt_eq_of_take (n := body.length)
    · rw [isSealed', List.length_append, size']
    · rw [isSealed, List.length_append, size]
    · rw [isSealed', isSealed, List.take_left, List.take_left]
  rw [isSealed', isSealed] at same
  exact List.append_cancel_left same

theorem decrypt_inverts_encrypt (key : Key) (nonce : Nonce) (aad : Option Bytes) :
    (∀ plaintext ciphertext, decrypt key nonce aad ciphertext = .ok plaintext ↔
      encrypt key nonce aad plaintext = ciphertext) ∧
    (∀ plaintext, (encrypt key nonce aad plaintext).length = plaintext.length + 16) ∧
    (∀ ciphertext size, decrypt key nonce aad ciphertext = .error (.missingTag size) ↔
      ciphertext.length < 16 ∧ size = ciphertext.length) ∧
    (∀ ciphertext, decrypt key nonce aad ciphertext = .error .decrypt ↔
      16 ≤ ciphertext.length ∧ ∀ plaintext, encrypt key nonce aad plaintext ≠ ciphertext) ∧
    (∀ body, ∃! tag : Bytes, tag.length = 16 ∧
      ∃ plaintext, decrypt key nonce aad (body ++ tag) = .ok plaintext) ∧
    encrypt key nonce none = encrypt key nonce (some []) ∧
    decrypt key nonce none = decrypt key nonce (some []) := by
  refine ⟨?_, ?_, ?_, ?_, ?_, rfl, rfl⟩
  · intro plaintext ciphertext
    rw [decrypt_eq_ok_iff, eq_comm]
  · intro plaintext
    exact length_encrypt
  · intro ciphertext size
    exact decrypt_eq_missingTag_iff
  · intro ciphertext
    rw [decrypt_eq_decrypt_iff]
    simp only [ne_comm]
    rfl
  · intro body
    exact existsUnique_tag key nonce aad body

end Aead

end SealedChat
