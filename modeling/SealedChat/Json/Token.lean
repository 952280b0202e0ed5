import SealedChat.Json.Number
import SealedChat.Json.Text

/-!
What JSON values start with: a whole scalar, or the bracket of a container.

A decoder looks at the token of a value to decide whether the value has the expected type. So a
scalar of another type has to be well formed, and nothing behind an opening bracket is looked at.
-/

namespace SealedChat.Json

inductive Token where
  | null
  | bool (b : Bool)
  | number (numeral : Numeral)
  | text (text : String)
  | array
  | object
  deriving DecidableEq, Repr

namespace Decoder

def token : Decoder Token := do
  skipSpace
  match ← peek with
  | 'n' => expect ['n', 'u', 'l', 'l']; return .null
  | 't' => expect ['t', 'r', 'u', 'e']; return .bool true
  | 'f' => expect ['f', 'a', 'l', 's', 'e']; return .bool false
  | '"' => discard next; return .text (String.ofList (← chars))
  | '[' => discard next; return .array
  | '{' => discard next; return .object
  | c => if c = '-' ∨ c.isDigit then return .number (← number) else fail .malformed

end Decoder

end SealedChat.Json
