import SealedChat.Codec
import SealedChat.Frame
import SealedChat.Session.Keys

/-!
Receiving: the frames of a read become nodes, each under the next number of the session.

A frame takes its number whether it is accepted or not, so that one damaged frame leaves the others
readable.
-/

namespace SealedChat

inductive ReceiveError (ε : Type) where
  | session (error : SessionError)
  | aead (error : Aead.Error)
  | codec (error : ε)
  deriving DecidableEq, Repr

def ReceiveError.message {ε : Type} (codecMessage : ε → String) : ReceiveError ε → String
  | .session error => error.message
  | .aead error => error.message
  | .codec error => "could not decode decrypted frame: " ++ codecMessage error

namespace SessionKeys

variable {ν ε : Type} (codec : Codec ν ε)

def openFrame (key : Aead.Key) (counter : UInt64) (body : Bytes) : Except (ReceiveError ε) ν := do
  let plaintext ← (Aead.decrypt key (.ofCounter counter) none body).mapError .aead
  (codec.decode plaintext).mapError .codec

def receive (keys : SessionKeys) (body : Bytes) : Except (ReceiveError ε) ν × SessionKeys :=
  match keys.takeRead with
  | (.error e, keys) => (.error (.session e), keys)
  | (.ok counter, keys) => (openFrame codec keys.readKey counter body, keys)

def receiveAll (keys : SessionKeys) :
    List Bytes → List (Except (ReceiveError ε) ν) × SessionKeys
  | [] => ([], keys)
  | body :: bodies =>
    let (result, keys) := keys.receive codec body
    let (results, keys) := keys.receiveAll bodies
    (result :: results, keys)

def receiveRead (keys : SessionKeys) (read : TransportRead) :
    List (Except (ReceiveError ε) ν) × SessionKeys :=
  keys.receiveAll codec read.frames

end SessionKeys

end SealedChat
