import SealedChat.Cbor.Error
import SealedChat.Repeat

/-!
Reading CBOR items off the front of a byte string.

A reader holds the bytes that are left and the number of bytes read before them. A decoder reads
some of them or fails; decoders are put together from `nextItem`, which reads a header, and `take`,
which reads content.
-/

namespace SealedChat.Cbor

structure Reader where
  offset : Nat
  rest : Bytes
  deriving DecidableEq, Repr

abbrev Decoder := StateT Reader (Except DecodeError)

structure Item where
  header : Header
  offset : Nat
  deriving DecidableEq, Repr

namespace Decoder

def fail {α : Type} (error : DecodeError) : Decoder α :=
  throw error

def refuse {α : Type} (cause : Mismatch) : Decoder α :=
  throw (.mismatch none cause)

def take (n : Nat) : Decoder Bytes := fun reader =>
  match Bytes.cut? n reader.rest with
  | some (front, rest) => .ok (front, ⟨reader.offset + n, rest⟩)
  | none => .error .truncated

def place : Decoder Nat := do
  return (← get).offset

def byte : Decoder UInt8 := fun reader =>
  match reader.rest with
  | b :: rest => .ok (b, ⟨reader.offset + 1, rest⟩)
  | [] => .error .truncated

def nextItem : Decoder Item := do
  let start ← place
  let first ← byte
  let major := Major.ofByte first
  match Info.ofByte first with
  | .here n => return ⟨.ofArgument major 0 n, start⟩
  | .next width =>
    let argument ← take width
    return ⟨.ofArgument major width argument.toNat, start⟩
  | .indefinite =>
    match Header.indefinite? major with
    | some header => return ⟨header, start⟩
    | none => fail (.malformed start)
  | .reserved => fail (.malformed start)

def repeatUntil {σ α : Type} (step : σ → Decoder (σ ⊕ α)) (s : σ) : Decoder α := do
  repeatWithin .truncated step (← get).rest s

def enter {α : Type} (levels : Nat) (body : (levels : Nat) → Decoder α) : Decoder α :=
  match levels with
  | 0 => fail .tooDeep
  | levels + 1 => body levels

end Decoder

def Item.settled (item : Item) : Decoder Item := do
  -- Only the place of a text is ever told.
  match item.header with
  | .text (some length) => return { item with offset := (← Decoder.place) - headSize length }
  | _ => return item

end SealedChat.Cbor
