import SealedChat.Codec
import SealedChat.Session.Config
import SealedChat.Session.Keys

/-!
Sending: plaintexts become frames, each under the next number of the session.

A plaintext that is too long is refused before a number is taken for it, so that the other end does
not miss one.
-/

namespace SealedChat

-- Sealing has no error of its own: what passes for its size is short enough for the cipher
-- (`Sender.lt_maxPlaintextSize`).
inductive SendError where
  | session (error : SessionError)
  | frame (error : FrameError)
  deriving DecidableEq, Repr

def SendError.message : SendError → String
  | .session error => error.message
  | .frame error => error.message

inductive SendNodeError (ε : Type) where
  | send (error : SendError)
  | codec (error : ε)
  deriving DecidableEq, Repr

def SendNodeError.message {ε : Type} (codecMessage : ε → String) : SendNodeError ε → String
  | .send error => error.message
  | .codec error => "could not encode node: " ++ codecMessage error

structure Sender where
  config : FrameConfig := {}
  introSent : Bool := false
  deriving DecidableEq, Repr

namespace Sender

def limit (sender : Sender) : Nat :=
  sender.config.maxFrameSize.toNat

def intro (sender : Sender) : Bytes :=
  if sender.introSent then [] else sender.config.introHeader.getD []

def send (sender : Sender) (keys : SessionKeys) (plaintext : Bytes) :
    Except SendError Bytes × Sender × SessionKeys :=
  match Frame.checkSize (plaintext.length + Aead.tagSize) sender.limit with
  | .error e => (.error (.frame e), sender, keys)
  | .ok () =>
    match keys.takeWrite with
    | (.error e, keys) => (.error (.session e), sender, keys)
    | (.ok counter, keys) =>
      let ciphertext := Aead.encrypt keys.writeKey (.ofCounter counter) none plaintext
      match Frame.write sender.limit ciphertext with
      | .error e => (.error (.frame e), sender, keys)
      | .ok frame => (.ok (sender.intro ++ frame), { sender with introSent := true }, keys)

def sendNode {ν ε : Type} (sender : Sender) (keys : SessionKeys) (codec : Codec ν ε) (node : ν) :
    Except (SendNodeError ε) Bytes × Sender × SessionKeys :=
  match codec.encode node with
  | .error e => (.error (.codec e), sender, keys)
  | .ok plaintext =>
    let (sent, sender, keys) := sender.send keys plaintext
    (sent.mapError .send, sender, keys)

def sendAll (sender : Sender) (keys : SessionKeys) :
    List Bytes → Except SendError Bytes × Sender × SessionKeys
  | [] => (.ok [], sender, keys)
  | plaintext :: plaintexts =>
    match sender.send keys plaintext with
    | (.error e, sender, keys) => (.error e, sender, keys)
    | (.ok bytes, sender, keys) =>
      let (sent, sender, keys) := sender.sendAll keys plaintexts
      (sent.map (bytes ++ ·), sender, keys)

end Sender

def SessionKeys.seal (keys : SessionKeys) (plaintexts : List Bytes) :
    Except SendError Bytes × SessionKeys :=
  let (sent, _, keys) := Sender.sendAll {} keys plaintexts
  (sent, keys)

end SealedChat
