import SealedChat.Cbor.Container
import SealedChat.Cbor.Write

namespace SealedChat.Cbor

structure Format (α : Type) where
  write : α → Bytes
  read : (levels : Nat) → Item → Decoder α

namespace Format

def levelLimit : Nat := 256

variable {α : Type}

def encode (format : Format α) (value : α) : Bytes :=
  format.write value

def readOne (format : Format α) : Decoder α := do
  format.read levelLimit (← Decoder.nextItem)

def decode (format : Format α) (bytes : Bytes) : Except DecodeError α := do
  let (value, reader) ← format.readOne ⟨0, bytes⟩
  if reader.rest.isEmpty then
    return value
  else
    throw (.trailing reader.rest.length)

def bool : Format Bool where
  write := writeBool
  read _ := Decoder.bool

def octet : Format UInt8 where
  write n := writeNat n.toNat
  read _ := Decoder.octet

def unsigned : Format UInt64 where
  write n := writeNat n.toNat
  read _ := Decoder.unsigned

def signed : Format Int64 where
  write n := writeInt n.toInt
  read _ := Decoder.signed

def text : Format String where
  write := writeText
  read _ := Decoder.text

def bytes : Format Bytes where
  write := writeBytes
  read := Decoder.byteString

def option (format : Format α) : Format (Option α) where
  write := writeOption format.write
  read levels := Decoder.option (format.read levels)

def list (format : Format α) (ofByte : UInt8 → Except Mismatch α) : Format (List α) where
  write := writeList format.write
  read levels := Decoder.sequence levels format.read ofByte

def octets : Format (List UInt8) :=
  list octet .ok

def unsignedList : Format (List UInt64) :=
  list unsigned fun b => .ok b.toUInt64

def elementItem (index : Nat) (count : Option Nat) : Decoder Item := do
  let missing := Decoder.refuse (.wrongLength index "a tuple of size 3")
  match count with
  | some 0 => missing
  | some (_ + 1) => Decoder.nextItem
  | none =>
    let item ← Decoder.nextItem
    match item.header with
    | .stop => missing
    | _ => item.settled

def triple : Format (String × UInt64 × List UInt8) where
  write | (a, b, c) => head .array 3 ++ writeText a ++ writeNat b.toNat ++ octets.write c
  read levels item := do
    let item ← Decoder.passTags item
    match item.header with
    | .array count =>
      Decoder.enter levels fun levels => do
        let a ← Decoder.text (← elementItem 0 count)
        let b ← Decoder.unsigned (← elementItem 1 (count.map (· - 1)))
        let c ← octets.read levels (← elementItem 2 (count.map (· - 2)))
        -- what follows the third element is not read
        return (a, b, c)
    | .bytes length =>
      match ← Decoder.bytesContent length with
      | [] => Decoder.refuse (.wrongLength 0 "a tuple of size 3")
      | b :: _ => Decoder.refuse (.wrongType (.unsigned b.toNat) "a string")
    | header => Decoder.refuse (.wrongType header "array")

end Format

end SealedChat.Cbor
