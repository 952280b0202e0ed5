import SealedChat.Json.Decoder
import SealedChat.Utf8

/-!
JSON strings, as they are read.

A string is scanned into pieces, one for each character that it stands for. An escape of the form
`\uXXXX` stands for a UTF-16 unit, and two of them may stand for one character; a unit of such a
pair that comes alone is a half. Which pieces may occur depends on what the string is read as.
-/

namespace SealedChat.Json

inductive Piece where
  | char (c : Char)
  | control (c : Char)
  | half (unit : Nat)
  deriving DecidableEq, Repr

def isControl (c : Char) : Bool :=
  c.toNat < 0x20

def isLeading (unit : Nat) : Bool :=
  0xD800 ≤ unit && unit < 0xDC00

def isTrailing (unit : Nat) : Bool :=
  0xDC00 ≤ unit && unit < 0xE000

def joinUnits (leading trailing : Nat) : Char :=
  Char.ofNat (0x10000 + (leading - 0xD800) * 0x400 + (trailing - 0xDC00))

namespace Piece

def ofChar (c : Char) : Piece :=
  if isControl c then .control c else .char c

def ofUnit (unit : Nat) : Piece :=
  if isLeading unit || isTrailing unit then .half unit else .char (Char.ofNat unit)

def addUnit (unit : Nat) : List Piece → List Piece
  | .half leading :: pieces =>
    if isLeading leading && isTrailing unit then .char (joinUnits leading unit) :: pieces
    else ofUnit unit :: .half leading :: pieces
  | pieces => ofUnit unit :: pieces

def char? : Piece → Option Char
  | .char c => some c
  | .control _ => none
  | .half _ => none

def isChar : Piece → Bool
  | .char _ => true
  | .control _ => false
  | .half _ => false

def isEscaped : Piece → Bool
  | .control _ => false
  | .char _ => true
  | .half _ => true

def bytes : Piece → Bytes
  | .char c => Utf8.encodeChar c
  | .control c => Utf8.encodeChar c
  | .half unit =>
    [UInt8.ofNat (0xE0 + unit / 0x1000), UInt8.ofNat (0x80 + unit / 0x40 % 0x40),
      UInt8.ofNat (0x80 + unit % 0x40)]

end Piece

def hexValue? (c : Char) : Option Nat :=
  if c.isDigit then some (c.toNat - '0'.toNat)
  else if 'a' ≤ c ∧ c ≤ 'f' then some (c.toNat - 'a'.toNat + 10)
  else if 'A' ≤ c ∧ c ≤ 'F' then some (c.toNat - 'A'.toNat + 10)
  else none

def unit? (a b c d : Char) : Option Nat := do
  return 0x1000 * (← hexValue? a) + 0x100 * (← hexValue? b) +
    0x10 * (← hexValue? c) + (← hexValue? d)

def escaped? (c : Char) : Option Char :=
  match c with
  | '"' => some '"'
  | '\\' => some '\\'
  | '/' => some '/'
  | 'b' => some '\x08'
  | 'f' => some '\x0c'
  | 'n' => some '\n'
  | 'r' => some '\r'
  | 't' => some '\t'
  | _ => none

def unitSize : Nat := 4

def scan (pieces : List Piece) : List Char → List Piece × Except Error (List Char)
  | [] => (pieces, .error .unfinished)
  | '"' :: rest => (pieces, .ok rest)
  | '\\' :: 'u' :: a :: b :: c :: d :: rest =>
    match unit? a b c d with
    | some unit => scan (Piece.addUnit unit pieces) rest
    | none => (pieces, .error .malformed)
  | '\\' :: 'u' :: rest =>
    let left := rest.flatMap Utf8.encodeChar
    (pieces, .error (if left.length < unitSize then .unfinished else .malformed))
  | '\\' :: c :: rest =>
    match escaped? c with
    | some c => scan (.char c :: pieces) rest
    | none => (pieces, .error .malformed)
  | '\\' :: [] => (pieces, .error .unfinished)
  | c :: rest => scan (.ofChar c :: pieces) rest

def dropPending : List Piece → List Piece
  -- the latest piece could still start a pair
  | .half unit :: pieces => if isLeading unit then pieces else .half unit :: pieces
  | pieces => pieces

namespace Decoder

def chars : Decoder (List Char) := fun input =>
  let (pieces, behind) := scan [] input
  match behind with
  | .ok rest =>
    if pieces.all Piece.isChar then .ok ((pieces.filterMap Piece.char?).reverse, rest)
    else .error .malformed
  | .error e => .error (if (dropPending pieces).all Piece.isChar then e else .malformed)

def octets : Decoder Bytes := fun input =>
  let (pieces, behind) := scan [] input
  behind.map fun rest => (pieces.reverse.flatMap Piece.bytes, rest)

def passString : Decoder Unit := fun input =>
  let (pieces, behind) := scan [] input
  if pieces.all Piece.isEscaped then behind.map fun rest => ((), rest)
  else .error .malformed

end Decoder

end SealedChat.Json
