import SealedChat.Json.Number
import SealedChat.Json.Text

namespace SealedChat.Json

inductive Container where
  | array
  | object
  deriving DecidableEq, Repr

def Container.closing : Container → Char
  | .array => ']'
  | .object => '}'

inductive Passage where
  | value (outer : List Container)
  | separator (innermost : Container) (outer : List Container)

def Passage.behind : (outer : List Container) → Passage ⊕ Unit
  | [] => .inr ()
  | innermost :: outer => .inl (.separator innermost outer)

namespace Decoder

def passName : Decoder Unit := do
  skipSpace
  expect ['"']
  passString
  skipSpace
  expect [':']

def passFront : Container → Decoder Unit
  | .array => return
  | .object => passName

def passOpening (container : Container) (outer : List Container) : Decoder (Passage ⊕ Unit) := do
  discard next
  skipSpace
  if (← peek) = container.closing then
    discard next
    return Passage.behind outer
  else
    passFront container
    return .inl (.value (container :: outer))

def passValueStart (outer : List Container) : Decoder (Passage ⊕ Unit) := do
  skipSpace
  match ← peek with
  | 'n' => expect ['n', 'u', 'l', 'l']; return Passage.behind outer
  | 't' => expect ['t', 'r', 'u', 'e']; return Passage.behind outer
  | 'f' => expect ['f', 'a', 'l', 's', 'e']; return Passage.behind outer
  | '"' => discard next; passString; return Passage.behind outer
  | '[' => passOpening .array outer
  | '{' => passOpening .object outer
  | c =>
    if c = '-' ∨ c.isDigit then
      discard (numeral .malformed)
      return Passage.behind outer
    else
      fail .malformed

def passSeparator (container : Container) (outer : List Container) : Decoder (Passage ⊕ Unit) := do
  skipSpace
  let c ← next
  if c = ',' then
    passFront container
    return .inl (.value (container :: outer))
  else if c = container.closing then
    return Passage.behind outer
  else
    fail .malformed

def passStep : Passage → Decoder (Passage ⊕ Unit)
  | .value outer => passValueStart outer
  | .separator container outer => passSeparator container outer

def pass : Decoder Unit :=
  repeatUntil passStep (.value [])

end Decoder

end SealedChat.Json
