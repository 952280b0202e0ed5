import SealedChat.Json.Text

namespace SealedChat.Json

def escape (c : Char) : List Char :=
  match c with
  | '"' => ['\\', '"']
  | '\\' => ['\\', '\\']
  | '\x08' => ['\\', 'b']
  | '\x0c' => ['\\', 'f']
  | '\n' => ['\\', 'n']
  | '\r' => ['\\', 'r']
  | '\t' => ['\\', 't']
  | c =>
    if isControl c then
      ['\\', 'u', '0', '0', Nat.digitChar (c.toNat / 16), Nat.digitChar (c.toNat % 16)]
    else [c]

def writeText (text : String) : List Char :=
  '"' :: text.toList.flatMap escape ++ ['"']

def writeNat (n : Nat) : List Char :=
  Nat.toDigits 10 n

def writeInt : Int → List Char
  | .ofNat n => writeNat n
  | .negSucc n => '-' :: writeNat (n + 1)

def writeBool (b : Bool) : List Char :=
  if b then ['t', 'r', 'u', 'e'] else ['f', 'a', 'l', 's', 'e']

def writeOption {α : Type} (write : α → List Char) : Option α → List Char
  | none => ['n', 'u', 'l', 'l']
  | some value => write value

def separate (values : List (List Char)) : List Char :=
  [','].intercalate values

def writeList {α : Type} (write : α → List Char) (values : List α) : List Char :=
  '[' :: separate (values.map write) ++ [']']

def writeRecord (fields : List (String × List Char)) : List Char :=
  '{' :: separate (fields.map fun (name, value) => writeText name ++ ':' :: value) ++ ['}']

end SealedChat.Json
