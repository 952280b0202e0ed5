import SealedChat.Repeat

namespace SealedChat.Json

inductive Error where
  | unfinished
  | malformed
  | unexpected
  deriving DecidableEq, Repr

abbrev Decoder := StateT (List Char) (Except Error)

namespace Decoder

def fail {α : Type} (error : Error) : Decoder α :=
  throw error

def peek : Decoder Char := fun chars =>
  match chars with
  | c :: _ => .ok (c, chars)
  | [] => .error .unfinished

def next : Decoder Char := fun chars =>
  match chars with
  | c :: rest => .ok (c, rest)
  | [] => .error .unfinished

def accept (isOne : Char → Bool) : Decoder Bool := fun chars =>
  match chars with
  | c :: rest => .ok (if isOne c then (true, rest) else (false, chars))
  | [] => .ok (false, chars)

def takeWhile (isOne : Char → Bool) : Decoder (List Char) := fun chars =>
  .ok (chars.takeWhile isOne, chars.dropWhile isOne)

def expect : List Char → Decoder Unit
  | [] => return
  | c :: rest => do
    if (← next) = c then expect rest else fail .malformed

def isSpace (c : Char) : Bool :=
  c = ' ' ∨ c = '\t' ∨ c = '\n' ∨ c = '\r'

def skipSpace : Decoder Unit := fun chars =>
  .ok ((), chars.dropWhile isSpace)

def repeatUntil {σ α : Type} (step : σ → Decoder (σ ⊕ α)) (s : σ) : Decoder α := do
  repeatWithin .unfinished step (← get) s

end Decoder

end SealedChat.Json
