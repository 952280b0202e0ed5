import SealedChat.Cbor.Scalar

/-!
Decoders of arrays, maps and options, and the passing over of values that nobody asks for.

Every array and map that is entered takes a level, and so does a passed tag. A map with names as
keys is read entry by entry by `record`.
-/

namespace SealedChat.Cbor.Decoder

def times {σ : Type} (step : Item → σ → Decoder σ) : (count : Nat) → σ → Decoder σ
  | 0, s => return s
  | count + 1, s => do
    let item ← nextItem
    times step count (← step item s)

def untilStop {σ : Type} (step : Item → σ → Decoder σ) (s : σ) : Decoder σ :=
  repeatUntil (fun s => do
    let item ← nextItem
    match item.header with
    | .stop => return .inr s
    | _ => return .inl (← step (← item.settled) s)) s

def entries {σ : Type} (count : Option Nat) (step : Item → σ → Decoder σ) (s : σ) : Decoder σ :=
  match count with
  | some count => times step count s
  | none => untilStop step s

def passNumber (tag : Nat) (length : Nat) : Decoder Unit := do
  let magnitude := (← take length).toNat
  if tag = Tag.negative ∧ magnitude.testBit 127 then refuse .integerTooLarge

def numberLength? (tag : Nat) (header : Header) : Option Nat :=
  match header with
  | .bytes (some length) =>
    if isNumberTag tag && decide (length ≤ significantSize) then some length else none
  | _ => none

/-- Passes over what a tag stands in front of. The header behind the tag has been read before
`value` goes on from it. -/
def passTagged (tag : Nat) (value : Item → Decoder Unit) : Decoder Unit := do
  let next ← nextItem
  match numberLength? tag next.header with
  | some length => passNumber tag length
  | none => value next

def pass (levels : Nat) (item : Item) : Decoder Unit :=
  match item.header, levels with
  | .unsigned _, _ | .negative _, _ | .float _, _ => return
  | .bytes length, _ => discard (bytesContent length)
  | .text length, _ => discard (textContent length)
  | .simple n, _ =>
    if Simple.false ≤ n ∧ n ≤ Simple.undefined then return
    else refuse (.wrongType (.simple n) "known simple value")
  | .stop, _ => refuse (.wrongType .stop "non-break")
  | .array _, 0 | .map _, 0 => fail .tooDeep
  | .array count, levels + 1 => entries count (fun item _ => pass levels item) ()
  | .map count, levels + 1 =>
    entries count (fun key _ => do
      pass levels key
      pass levels (← nextItem)) ()
  | .tag tag, 0 => passTagged tag fun _ => fail .tooDeep
  | .tag tag, levels + 1 => passTagged tag fun next => pass levels next

def option {α : Type} (value : Item → Decoder α) (item : Item) : Decoder (Option α) := do
  match item.header with
  | .simple 22 => return none
  | .simple 23 => return none
  | _ => return some (← value (← item.settled))

def sequence {α : Type} (levels : Nat) (element : (levels : Nat) → Item → Decoder α)
    (ofByte : UInt8 → Except Mismatch α) (item : Item) : Decoder (List α) := do
  let item ← passTags item
  match item.header with
  | .array count =>
    enter levels fun levels => do
      let elements ← entries count (fun item elements => do
        return (← element levels item) :: elements) []
      return elements.reverse
  | .bytes length =>
    match (← bytesContent length).mapM ofByte with
    | .ok elements => return elements
    | .error cause => refuse cause
  | header => refuse (.wrongType header "array")

def byteString (levels : Nat) (item : Item) : Decoder Bytes := do
  let item ← passTags item
  match item.header with
  | .bytes length => bytesContent length
  | .array count =>
    enter levels fun _ => do
      let bytes ← entries count (fun item bytes => do return (← octet item) :: bytes) []
      return bytes.reverse
  | header => refuse (.wrongType header "byte buffer")

def map {σ : Type} (levels : Nat) (entry : (levels : Nat) → Item → σ → Decoder σ) (s : σ)
    (item : Item) : Decoder σ := do
  let item ← passTags item
  match item.header with
  | .map count => enter levels fun levels => entries count (entry levels) s
  | header => refuse (.wrongType header "map")

def nameSize : Nat := 4096

def name (item : Item) : Decoder Bytes := do
  let item ← passTags item
  match item.header with
  | .text (some length) =>
    if length ≤ nameSize then
      let bytes ← take length
      match Utf8.decode? bytes with
      | some _ => return bytes
      | none => fail (.malformed item.offset)
    else
      refuse (.wrongType item.header "str or bytes")
  | .bytes (some length) =>
    if length ≤ nameSize then take length
    else refuse (.wrongType item.header "str or bytes")
  | header => refuse (.wrongType header "str or bytes")

def passValue (levels : Nat) : Decoder Unit := do
  pass levels (← nextItem)

def field {α : Type} (name : String) (value : Item → Decoder α) (slot : Option α) :
    Decoder (Option α) := do
  if slot.isSome then refuse (.duplicateField name)
  return some (← value (← nextItem))

def required {α : Type} (name : String) (slot : Option α) : Decoder α :=
  match slot with
  | some value => return value
  | none => refuse (.missingField name)

def record {σ : Type} (levels : Nat) (fields : (levels : Nat) → (name : Bytes) → σ → Decoder σ)
    (s : σ) (item : Item) : Decoder σ :=
  map levels (fun levels item s => do fields levels (← name item) s) s item

end SealedChat.Cbor.Decoder
