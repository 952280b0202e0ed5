import SealedChat.Node.Cbor

namespace SealedChat

structure Codec (ν ε : Type) where
  encode : ν → Except ε Bytes
  decode : Bytes → Except ε ν

namespace Codec

inductive CborError where
  | encode (error : Cbor.EncodeError)
  | decode (error : Cbor.DecodeError)
  deriving DecidableEq, Repr

def CborError.message : CborError → String
  | .encode error => error.message
  | .decode error => error.message

def cbor : Codec Node CborError where
  encode node := (Cbor.writeOrRefuse (.ok (Cbor.Format.node.encode node))).mapError .encode
  decode bytes := (Cbor.Format.node.decode bytes).mapError .decode

def raw (ε : Type) : Codec Bytes ε where
  encode := .ok
  decode := .ok

end Codec

end SealedChat
