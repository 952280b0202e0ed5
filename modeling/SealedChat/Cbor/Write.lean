import SealedChat.Cbor.Header
import SealedChat.Cbor.Error
import SealedChat.Utf8

namespace SealedChat.Cbor

def writeBool (b : Bool) : Bytes :=
  head .other (if b then Simple.true else Simple.false)

def writeNull : Bytes :=
  head .other Simple.null

def writeNat (n : Nat) : Bytes :=
  head .unsigned n

def writeInt : Int → Bytes
  | .ofNat n => head .unsigned n
  | .negSucc n => head .negative n

def writeBytes (bytes : Bytes) : Bytes :=
  head .bytes bytes.length ++ bytes

def writeText (text : String) : Bytes :=
  let bytes := Utf8.encode text
  head .text bytes.length ++ bytes

def writeOption {α : Type} (write : α → Bytes) : Option α → Bytes
  | none => writeNull
  | some value => write value

def writeList {α : Type} (write : α → Bytes) (values : List α) : Bytes :=
  head .array values.length ++ values.flatMap write

def writeRecord (fields : List (String × Bytes)) : Bytes :=
  head .map fields.length ++ fields.flatMap fun (name, value) => writeText name ++ value

def writeOrRefuse : Except String Bytes → Except EncodeError Bytes :=
  Except.mapError EncodeError.mk

end SealedChat.Cbor
