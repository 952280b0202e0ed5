import SealedChat.Bytes
import SealedChat.FloatingPoint

namespace SealedChat.Cbor

inductive Header where
  | unsigned (n : Nat)
  | negative (n : Nat)
  | bytes (length : Option Nat)
  | text (length : Option Nat)
  | array (count : Option Nat)
  | map (count : Option Nat)
  | tag (n : Nat)
  | simple (n : Nat)
  | float (x : FloatingPoint)
  | stop
  deriving DecidableEq, Repr

def Simple.false : Nat := 20

def Simple.true : Nat := 21

def Simple.null : Nat := 22

def Simple.undefined : Nat := 23

def Tag.positive : Nat := 2

def Tag.negative : Nat := 3

inductive Major where
  | unsigned | negative | bytes | text | array | map | tag | other
  deriving DecidableEq, Repr

def Major.toNat : Major → Nat
  | .unsigned => 0
  | .negative => 1
  | .bytes => 2
  | .text => 3
  | .array => 4
  | .map => 5
  | .tag => 6
  | .other => 7

def Major.ofByte (b : UInt8) : Major :=
  match b.toNat / 32 with
  | 0 => .unsigned
  | 1 => .negative
  | 2 => .bytes
  | 3 => .text
  | 4 => .array
  | 5 => .map
  | 6 => .tag
  | _ => .other

inductive Info where
  | here (n : Nat)
  | next (width : Nat)
  | indefinite
  | reserved
  deriving DecidableEq, Repr

def Info.ofByte (b : UInt8) : Info :=
  match b.toNat % 32 with
  | 24 => .next 1
  | 25 => .next 2
  | 26 => .next 4
  | 27 => .next 8
  | 28 => .reserved
  | 29 => .reserved
  | 30 => .reserved
  | 31 => .indefinite
  | n => .here n

namespace Header

def ofArgument (major : Major) (width n : Nat) : Header :=
  match major with
  | .unsigned => .unsigned n
  | .negative => .negative n
  | .bytes => .bytes (some n)
  | .text => .text (some n)
  | .array => .array (some n)
  | .map => .map (some n)
  | .tag => .tag n
  | .other =>
    match width with
    | 2 => .float (.ofBits .half n)
    | 4 => .float (.ofBits .single n)
    | 8 => .float (.ofBits .double n)
    | _ => .simple n

def indefinite? : Major → Option Header
  | .bytes => some (.bytes none)
  | .text => some (.text none)
  | .array => some (.array none)
  | .map => some (.map none)
  | .other => some .stop
  | .unsigned => none
  | .negative => none
  | .tag => none

def describe : Header → String
  | .unsigned n => s!"integer `{n}`"
  -- shown as a signed number of sixty-four bits, whether it fits or not
  | .negative n => s!"integer `{(-1 - (n : Int)).bmod UInt64.size}`"
  | .bytes _ => "bytes"
  | .text _ => "string"
  | .array _ => "sequence"
  | .map _ => "map"
  | .tag _ => "tag"
  | .simple 20 => "boolean `false`"
  | .simple 21 => "boolean `true`"
  | .simple 22 => "null"
  | .simple 23 => "undefined"
  | .simple _ => "simple"
  | .float x => s!"floating point `{x.text}`"
  | .stop => "break"

end Header

def headSize (n : Nat) : Nat :=
  if n < 24 then 1
  else if n < UInt8.size then 2
  else if n < UInt16.size then 3
  else if n < UInt32.size then 5
  else 9

def head (major : Major) (n : Nat) : Bytes :=
  let first (info : Nat) : UInt8 := UInt8.ofNat (32 * major.toNat + info)
  if n < 24 then [first n]
  else if n < UInt8.size then first 24 :: Bytes.ofNat 1 n
  else if n < UInt16.size then first 25 :: Bytes.ofNat 2 n
  else if n < UInt32.size then first 26 :: Bytes.ofNat 4 n
  else first 27 :: Bytes.ofNat 8 n

theorem length_head (major : Major) (n : Nat) : (head major n).length = headSize n := by
  unfold head headSize
  dsimp only
  repeat' split
  all_goals simp

end SealedChat.Cbor
