import SealedChat.Aead.Aes
import SealedChat.Aead.Gcm

/-!
Authenticated encryption of frames: AES-256 in Galois counter mode, the tag at the end.

Frames do not carry their nonce; both ends of a session take it from a counter. Different counters
have different nonces (`Nonce.ofCounter_injective`).
-/

namespace SealedChat

namespace Aead

def keySize : Nat := 32

def nonceSize : Nat := Gcm.nonceSize

def tagSize : Nat := Gcm.tagSize

-- Longer plaintexts have no ciphertext: the cipher numbers their blocks with thirty-two bits.
def maxPlaintextSize : Nat := 1 <<< 36

structure Key where
  bytes : Vector UInt8 keySize
  deriving DecidableEq

namespace Key

def ofBytes? (bytes : Bytes) : Option Key :=
  if h : bytes.length = keySize then some ⟨⟨bytes.toArray, h⟩⟩ else none

def toBytes (key : Key) : Bytes :=
  key.bytes.toList

def masked (_ : Key) : String :=
  "Secret(\"***\")"

end Key

structure Nonce where
  bytes : Vector UInt8 nonceSize
  deriving DecidableEq

namespace Nonce

def ofBytes? (bytes : Bytes) : Option Nonce :=
  if h : bytes.length = nonceSize then some ⟨⟨bytes.toArray, h⟩⟩ else none

def toBytes (nonce : Nonce) : Bytes :=
  nonce.bytes.toList

def ofCounter (counter : UInt64) : Nonce :=
  ⟨⟨(Bytes.ofNat 4 0 ++ Bytes.ofNat 8 counter.toNat).toArray, by simp [nonceSize, Gcm.nonceSize]⟩⟩

theorem toBytes_ofCounter (counter : UInt64) :
    (ofCounter counter).toBytes = Bytes.ofNat 4 0 ++ Bytes.ofNat 8 counter.toNat := rfl

theorem ofCounter_injective {a b : UInt64} (h : ofCounter a = ofCounter b) : a = b := by
  have bytes := congrArg toBytes h
  rw [toBytes_ofCounter, toBytes_ofCounter, List.append_cancel_left_eq] at bytes
  have numbers := congrArg Bytes.toNat bytes
  rw [Bytes.toNat_ofNat a.toNat_lt_size, Bytes.toNat_ofNat b.toNat_lt_size] at numbers
  exact UInt64.toNat.inj numbers

end Nonce

inductive Error where
  | missingTag (size : Nat)
  | decrypt
  deriving DecidableEq, Repr

def Error.message : Error → String
  | .missingTag size => s!"ciphertext of {size} bytes is too short to hold an authentication tag"
  | .decrypt => "could not decrypt with aead, authentication failed"

def encrypt (key : Key) (nonce : Nonce) (aad : Option Bytes) (plaintext : Bytes) : Bytes :=
  let roundKeys := Aes.schedule key.toBytes
  Gcm.encrypt (Aes.encrypt roundKeys) nonce.toBytes (aad.getD []) plaintext

def decrypt (key : Key) (nonce : Nonce) (aad : Option Bytes) (ciphertext : Bytes) :
    Except Error Bytes :=
  if ciphertext.length < tagSize then
    .error (.missingTag ciphertext.length)
  else
    let roundKeys := Aes.schedule key.toBytes
    match Gcm.decrypt? (Aes.encrypt roundKeys) nonce.toBytes (aad.getD []) ciphertext with
    | some plaintext => .ok plaintext
    | none => .error .decrypt

end Aead

end SealedChat
