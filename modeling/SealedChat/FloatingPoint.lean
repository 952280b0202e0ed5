/-!
Numbers of the binary floating point formats, and their shortest decimal texts.

A finite number is a mantissa times a power of two. Its text has the fewest decimal digits that are
still read back as the same double, and of those the ones nearest to it.
-/

namespace SealedChat

inductive FloatingPoint where
  | nan
  | infinite (negative : Bool)
  | finite (negative : Bool) (mantissa : Nat) (exponent : Int)
  deriving DecidableEq, Repr

namespace FloatingPoint

structure Layout where
  exponentBits : Nat
  fractionBits : Nat

def Layout.half : Layout := ⟨5, 10⟩

def Layout.single : Layout := ⟨8, 23⟩

def Layout.double : Layout := ⟨11, 52⟩

def ofBits (layout : Layout) (bits : Nat) : FloatingPoint :=
  let hidden := 1 <<< layout.fractionBits
  let fraction := bits % hidden
  let exponent := bits / hidden % 1 <<< layout.exponentBits
  let negative := bits.testBit (layout.exponentBits + layout.fractionBits)
  let least : Int := 2 - (1 <<< (layout.exponentBits - 1) : Nat) - layout.fractionBits
  if exponent + 1 = 1 <<< layout.exponentBits then
    if fraction = 0 then .infinite negative else .nan
  else if exponent = 0 then
    .finite negative fraction least
  else
    .finite negative (hidden + fraction) (least + exponent - 1)

def round (n : Nat) : Nat :=
  let unit := 1 <<< (n.log2 - 52)
  let mantissa := n / unit
  let above := n % unit
  if unit < 2 * above ∨ unit = 2 * above ∧ mantissa % 2 = 1 then (mantissa + 1) * unit
  else mantissa * unit

def infinityBound : Nat :=
  -- half a unit above the greatest double
  1 <<< 1024 - 1 <<< 970

structure Interval where
  low : Nat
  value : Nat
  high : Nat
  unit : Nat
  closed : Bool

namespace Interval

/-- The interval of the double `mantissa * 2 ^ exponent`. It ends half way to the neighbours, and
the lower neighbour of a power of two is half as far away as the upper one. -/
def ofDouble (mantissa : Nat) (exponent : Int) : Interval :=
  let gap := if mantissa = 1 <<< 52 ∧ -1074 < exponent then 1 else 2
  let scale := 1 <<< exponent.toNat
  { low := (4 * mantissa - gap) * scale
    value := 4 * mantissa * scale
    high := (4 * mantissa + 2) * scale
    unit := 4 <<< (-exponent).toNat
    closed := mantissa % 2 == 0 }

def rescale (i : Interval) (power : Int) : Interval :=
  let down := Nat.pow 10 (-power).toNat
  { low := i.low * down
    value := i.value * down
    high := i.high * down
    unit := i.unit * Nat.pow 10 power.toNat
    closed := i.closed }

def holds (i : Interval) (n : Nat) : Bool :=
  if i.closed then decide (i.low ≤ n * i.unit ∧ n * i.unit ≤ i.high)
  else decide (i.low < n * i.unit ∧ n * i.unit < i.high)

def nearest? (i : Interval) : Option Nat :=
  let below := i.value / i.unit
  match i.holds below, i.holds (below + 1) with
  | false, false => none
  | true, false => some below
  | false, true => some (below + 1)
  | true, true =>
    if 2 * (i.value - below * i.unit) < i.unit then some below else some (below + 1)

def shortest (i : Interval) : (tries : Nat) → (power : Int) → Nat × Int
  | 0, power => (i.value, power)
  | tries + 1, power =>
    match (i.rescale power).nearest? with
    | some digits => (digits, power)
    | none => i.shortest tries (power - 1)

end Interval

def toDecimal (mantissa : Nat) (exponent : Int) : Nat × Int :=
  let shift := min (52 - mantissa.log2) (exponent + 1074).toNat
  (Interval.ofDouble (mantissa <<< shift) (exponent - shift)).shortest 700 309

def positional (digits : Nat) (power : Int) : String :=
  let text := Nat.toDigits 10 digits
  let places := (-power).toNat
  let whole := text ++ List.replicate power.toNat '0'
  let padded := List.replicate (places + 1 - whole.length) '0' ++ whole
  let front := padded.take (padded.length - places)
  let back := padded.drop (padded.length - places)
  String.ofList (front ++ '.' :: (if back.isEmpty then ['0'] else back))

def text : FloatingPoint → String
  | .nan => "NaN"
  | .infinite negative => if negative then "-inf" else "inf"
  | .finite negative mantissa exponent =>
    let sign := if negative then "-" else ""
    if mantissa = 0 then sign ++ "0.0"
    else
      let (digits, power) := toDecimal mantissa exponent
      sign ++ positional digits power

end FloatingPoint

end SealedChat
