import SealedChat.Aead

namespace SealedChat

inductive SessionError where
  | counterExhausted
  deriving DecidableEq, Repr

def SessionError.message : SessionError → String
  | .counterExhausted => "frame counter of this session is exhausted"

structure Counter where
  next : Option UInt64
  deriving DecidableEq, Repr

namespace Counter

def startAt (n : UInt64) : Counter := ⟨some n⟩

def fresh : Counter := startAt 0

def successor? (n : UInt64) : Option UInt64 :=
  if n.toNat + 1 < UInt64.size then some (n + 1) else none

def take (counter : Counter) : Except SessionError (UInt64 × Counter) :=
  match counter.next with
  | some n => .ok (n, ⟨successor? n⟩)
  | none => .error .counterExhausted

def text (counter : Counter) : String :=
  match counter.next with
  | some n => s!"Counter(Some({n}))"
  | none => "Counter(None)"

end Counter

structure SessionKeys where
  readKey : Aead.Key
  writeKey : Aead.Key
  readCounter : Counter := .fresh
  writeCounter : Counter := .fresh
  deriving DecidableEq

namespace SessionKeys

def takeRead (keys : SessionKeys) : Except SessionError UInt64 × SessionKeys :=
  match keys.readCounter.take with
  | .ok (n, counter) => (.ok n, { keys with readCounter := counter })
  | .error e => (.error e, keys)

def takeWrite (keys : SessionKeys) : Except SessionError UInt64 × SessionKeys :=
  match keys.writeCounter.take with
  | .ok (n, counter) => (.ok n, { keys with writeCounter := counter })
  | .error e => (.error e, keys)

def text (keys : SessionKeys) : String :=
  let fields := ", ".intercalate [
    "read_key: " ++ keys.readKey.masked,
    "write_key: " ++ keys.writeKey.masked,
    "read_counter: " ++ keys.readCounter.text,
    "write_counter: " ++ keys.writeCounter.text]
  "SessionKeys \x7b " ++ fields ++ " \x7d"

def opposite (keys : SessionKeys) : SessionKeys where
  readKey := keys.writeKey
  writeKey := keys.readKey
  readCounter := keys.writeCounter
  writeCounter := keys.readCounter

def uniformKey (b : UInt8) : Aead.Key :=
  ⟨.replicate Aead.keySize b⟩

def sampleReadKey : Aead.Key := uniformKey 0x11

def sampleWriteKey : Aead.Key := uniformKey 0x22

def sampleClient : SessionKeys where
  readKey := sampleReadKey
  writeKey := sampleWriteKey

def sampleServer : SessionKeys :=
  sampleClient.opposite

end SessionKeys

end SealedChat
