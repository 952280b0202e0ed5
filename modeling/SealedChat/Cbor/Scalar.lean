import SealedChat.Cbor.Reader
import SealedChat.Utf8

namespace SealedChat.Cbor

def Header.textLength? : Header → Option (Option Nat)
  | .text length => some length
  | _ => none

def Header.bytesLength? : Header → Option (Option Nat)
  | .bytes length => some length
  | _ => none

def Header.isPassed (keep : Nat → Bool) : Header → Bool
  | .tag n => !keep n
  | _ => false

namespace Decoder

def passTags (item : Item) (keep : Nat → Bool := fun _ => false) : Decoder Item :=
  if item.header.isPassed keep then
    repeatUntil (fun (_ : Unit) => do
      let item ← nextItem
      return if item.header.isPassed keep then .inl () else .inr item) ()
  else
    return item

def segments {σ : Type} (length? : Header → Option (Option Nat))
    (segment : (offset length : Nat) → σ → Decoder σ) (s : σ) : Decoder σ :=
  repeatUntil (fun ((depth, s) : Nat × σ) => do
    let item ← nextItem
    match item.header, depth with
    | .stop, 0 => return .inr s
    | .stop, depth + 1 => return .inl (depth, s)
    | header, depth =>
      match length? header with
      | some (some length) => return .inl (depth, ← segment item.offset length s)
      | some none => return .inl (depth + 1, s)
      | none => fail (.malformed item.offset)) (0, s)

def content {σ : Type} (length? : Header → Option (Option Nat))
    (segment : (offset length : Nat) → σ → Decoder σ) (length : Option Nat) (s : σ) :
    Decoder σ := do
  match length with
  | some length => segment ((← place) - headSize length) length s
  | none => segments length? segment s

def bytesContent (length : Option Nat) : Decoder Bytes := do
  let step (_offset length : Nat) (pieces : List Bytes) : Decoder (List Bytes) :=
    return (← take length) :: pieces
  let pieces ← content Header.bytesLength? step length []
  return pieces.reverse.flatten

def pieceSize : Nat := 4096

abbrev Carry := { bytes : Bytes // bytes.length ≤ 3 }

/-- The `remaining` bytes of a segment of text, appended to `text`. A segment is refused when a
piece has bytes of no character that are too many for a cut one, or ends with a cut character. -/
def textPieces (offset remaining : Nat) (carry : Carry) (text : String) : Decoder String :=
  if remaining = 0 then
    if carry.val.isEmpty then return text else fail (.malformed offset)
  else do
    let size := min remaining (pieceSize - carry.val.length)
    let piece ← take size
    let (chars, rest) := Utf8.scan (carry.val ++ piece)
    if h : rest.length ≤ 3 then
      textPieces offset (remaining - size) ⟨rest, h⟩ (text ++ String.ofList chars)
    else
      fail (.malformed offset)
termination_by remaining
decreasing_by
  have := carry.property
  simp only [pieceSize]
  omega

def textContent (length : Option Nat) : Decoder String :=
  content Header.textLength? (fun offset length => textPieces offset length ⟨[], by simp⟩) length ""

def text (item : Item) : Decoder String := do
  let item ← passTags item
  match item.header with
  | .text length => textContent length
  | header => refuse (.wrongType header "string")

def significantSize : Nat := 16

def significant (remaining : Nat) (number : Bytes) : Decoder Bytes :=
  if remaining = 0 then
    return number
  else do
    let piece ← take (min remaining significantSize)
    let number := (number ++ piece).dropWhile (· == 0)
    if significantSize < number.length then
      refuse .bigIntegerTooLarge
    else
      significant (remaining - min remaining significantSize) number
termination_by remaining
decreasing_by
  simp only [significantSize]
  omega

def isNumberTag (n : Nat) : Bool :=
  n == Tag.positive || n == Tag.negative

def ofMagnitude (tag : Nat) (magnitude : Nat) : Int :=
  if tag = Tag.negative then -1 - magnitude else magnitude

def integer (item : Item) : Decoder Int := do
  let item ← passTags item isNumberTag
  match item.header with
  | .unsigned n => return n
  | .negative n => return -1 - n
  | .tag tag =>
    let next ← nextItem
    match next.header with
    | .bytes length =>
      let number ← content Header.bytesLength? (fun _ length => significant length) length []
      return ofMagnitude tag number.toNat
    | header => refuse (.wrongType header "bytes")
  | header => refuse (.wrongType header "integer")

def unsigned (item : Item) : Decoder UInt64 := do
  let n ← integer item
  if n < 0 then refuse .unexpectedNegative
  else if UInt64.size ≤ n then refuse .integerTooLarge
  else return UInt64.ofNat n.toNat

def signed (item : Item) : Decoder Int64 := do
  let n ← integer item
  if n < Int64.minValue.toInt ∨ Int64.maxValue.toInt < n then refuse .integerTooLarge
  else return Int64.ofInt n

def octet (item : Item) : Decoder UInt8 := do
  let n ← unsigned item
  if UInt8.size ≤ n.toNat then refuse (.outOfRange n.toNat "u8")
  else return n.toUInt8

def bool (item : Item) : Decoder Bool := do
  let item ← passTags item
  match item.header with
  | .simple 20 => return false
  | .simple 21 => return true
  | _ => fail (.mismatch (some item.offset) .notBoolean)

end Decoder

end SealedChat.Cbor
