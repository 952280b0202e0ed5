import SealedChat.Json.Container
import SealedChat.Json.Write

namespace SealedChat.Json

structure Format (α : Type) where
  write : α → List Char
  read : Decoder α

namespace Format

variable {α : Type}

def encode (format : Format α) (value : α) : String :=
  String.ofList (format.write value)

def readOne (format : Format α) : Decoder α := do
  let value ← format.read
  Decoder.skipSpace
  return value

def decode (format : Format α) (text : String) : Except Error α := do
  let (value, rest) ← format.readOne text.toList
  if rest.isEmpty then return value else throw .malformed

def bool : Format Bool where
  write := writeBool
  read := Decoder.expected fun
    | .bool b => some b
    | _ => none

def text : Format String where
  write := writeText
  read := Decoder.expected fun
    | .text text => some text
    | _ => none

def integer (toInt : α → Int) (ofInt? : Int → Option α) : Format α where
  write n := writeInt (toInt n)
  read := Decoder.expected fun
    | .number numeral => numeral.integer?.bind ofInt?
    | _ => none

def octet : Format UInt8 :=
  integer (fun n => n.toNat) fun n =>
    if 0 ≤ n ∧ n < UInt8.size then some (UInt8.ofNat n.toNat) else none

def unsigned : Format UInt64 :=
  integer (fun n => n.toNat) fun n =>
    if 0 ≤ n ∧ n < UInt64.size then some (UInt64.ofNat n.toNat) else none

def signed : Format Int64 :=
  integer Int64.toInt fun n =>
    if Int64.minValue.toInt ≤ n ∧ n ≤ Int64.maxValue.toInt then some (Int64.ofInt n) else none

def option (format : Format α) : Format (Option α) where
  write := writeOption format.write
  read := Decoder.option format.read

def list (format : Format α) : Format (List α) where
  write := writeList format.write
  read := Decoder.list format.read

def bytes : Format Bytes where
  write := writeList octet.write
  read := do
    if ← Decoder.startsWith '"' then
      discard Decoder.next
      Decoder.octets
    else
      Decoder.list octet.read

end Format

end SealedChat.Json
