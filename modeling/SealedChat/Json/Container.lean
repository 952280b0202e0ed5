import SealedChat.Json.Pass
import SealedChat.Json.Token

namespace SealedChat.Json.Decoder

def expected {α : Type} (value? : Token → Option α) : Decoder α := do
  match value? (← token) with
  | some value => return value
  | none => fail .unexpected

def startsWith (c : Char) : Decoder Bool := do
  skipSpace
  return (← get).head? = some c

def option {α : Type} (value : Decoder α) : Decoder (Option α) := do
  if ← startsWith 'n' then
    expect ['n', 'u', 'l', 'l']
    return none
  else
    return some (← value)

def elements {α : Type} (element : Decoder α) : Decoder (List α) := do
  if ← startsWith ']' then
    discard next
    return []
  else
    repeatUntil (fun elements => do
      let elements := (← element) :: elements
      skipSpace
      match ← next with
      | ',' => return .inl elements
      | ']' => return .inr elements.reverse
      | _ => fail .malformed) []

def list {α : Type} (element : Decoder α) : Decoder (List α) := do
  match ← token with
  | .array => elements element
  | _ => fail .unexpected

def field {α : Type} (value : Decoder α) (slot : Option α) : Decoder (Option α) := do
  if slot.isSome then fail .unexpected
  skipSpace
  expect [':']
  return some (← value)

def passField : Decoder Unit := do
  skipSpace
  expect [':']
  pass

def required {α : Type} (slot : Option α) : Decoder α :=
  match slot with
  | some value => return value
  | none => fail .unexpected

def object {σ : Type} (fields : (name : String) → σ → Decoder σ) (s : σ) : Decoder σ := do
  if ← startsWith '}' then
    discard next
    return s
  else
    repeatUntil (fun s => do
      skipSpace
      expect ['"']
      let s ← fields (String.ofList (← chars)) s
      skipSpace
      match ← next with
      | ',' => return .inl s
      | '}' => return .inr s
      | _ => fail .malformed) s

def firstCell {α : Type} (value : Decoder α) : Decoder α := do
  if ← startsWith ']' then fail .unexpected
  value

def nextCell {α : Type} (value : Decoder α) : Decoder α := do
  skipSpace
  match ← next with
  | ',' => value
  | ']' => fail .unexpected
  | _ => fail .malformed

def lastCell : Decoder Unit := do
  skipSpace
  expect [']']

def record {α : Type} (cells object : Decoder α) : Decoder α := do
  match ← token with
  | .array =>
    let value ← cells
    lastCell
    return value
  | .object => object
  | _ => fail .unexpected

end SealedChat.Json.Decoder
