import SealedChat.Json.Decoder
import SealedChat.FloatingPoint

namespace SealedChat.Json

structure Numeral where
  negative : Bool
  whole : List Char
  fraction : Option (List Char)
  exponent : Option Int
  deriving DecidableEq, Repr

namespace Numeral

def integer? (numeral : Numeral) : Option Int :=
  let magnitude : Nat := Nat.ofDigitChars 10 numeral.whole 0
  if numeral.fraction.isSome || numeral.exponent.isSome then none
  else if numeral.negative then
    if magnitude = 0 then none else some (-magnitude)
  else
    some magnitude

def gather (n : Nat) : List Char → Nat × List Char
  | [] => (n, [])
  | c :: rest =>
    let longer := 10 * n + (c.toNat - '0'.toNat)
    -- what does not fit is left over
    if longer < UInt64.size then gather longer rest else (n, c :: rest)

def isInfinite (significand : Nat) (exponent : Int) : Bool :=
  if exponent ≤ 0 then false
  else if 308 < exponent then significand ≠ 0
  else
    let product := FloatingPoint.round significand * FloatingPoint.round (Nat.pow 10 exponent.toNat)
    FloatingPoint.infinityBound ≤ product

/-- Whether a number is too large for a double. Its size is that of the digits that are gathered
from its front; digits of the whole part that are left over count as zeros. -/
def isTooLarge (numeral : Numeral) : Bool :=
  let fraction := numeral.fraction.getD []
  let (n, zeros) := gather 0 numeral.whole
  let (significand, dropped) := gather n fraction
  let places : Int := zeros.length - (fraction.length - dropped.length : Nat)
  isInfinite significand (places + numeral.exponent.getD 0)

end Numeral

namespace Decoder

def digits (atEnd : Error) : Decoder (List Char) := do
  let digits ← takeWhile Char.isDigit
  if digits.isEmpty then
    if (← get).isEmpty then fail atEnd else fail .malformed
  return digits

def numeral (atEnd : Error) : Decoder Numeral := do
  let negative ← accept (· = '-')
  let whole ← digits atEnd
  if whole.head? = some '0' ∧ 1 < whole.length then fail .malformed
  let fraction ← if ← accept (· = '.') then some <$> digits atEnd else pure none
  let exponent ← if ← accept fun c => c = 'e' ∨ c = 'E' then some <$> exponent else pure none
  return { negative, whole, fraction, exponent }
where
  exponent : Decoder Int := do
    let down ← accept (· = '-')
    unless down do discard (accept (· = '+'))
    let magnitude : Nat := Nat.ofDigitChars 10 (← digits atEnd) 0
    return if down then -magnitude else magnitude

def number : Decoder Numeral := do
  let numeral ← numeral .unfinished
  if numeral.isTooLarge then fail .malformed
  return numeral

end Decoder

end SealedChat.Json
