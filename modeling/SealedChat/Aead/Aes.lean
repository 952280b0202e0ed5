import SealedChat.Aead.Block

/-!
The block cipher AES with a key of thirty-two bytes.

Bytes are polynomials over two elements modulo `x⁸ + x⁴ + x³ + x + 1`; a byte is substituted by an
affine map of its inverse. A block is four columns of four bytes, a column is a word whose top byte
is the first row.
-/

namespace SealedChat.Aes

def timesX (b : UInt8) : UInt8 :=
  (b <<< 1) ^^^ ((b >>> 7) * 0x1b)

def times : (bits : Nat) → UInt8 → UInt8 → UInt8
  | 0, _, _ => 0
  | bits + 1, a, b => (if b &&& 1 = 1 then a else 0) ^^^ times bits (timesX a) (b >>> 1)

def inverse (b : UInt8) : UInt8 :=
  let square (b : UInt8) := times 8 b b
  let rec powers : Nat → UInt8 → UInt8
    | 0, _ => 1
    | n + 1, b => times 8 (square b) (powers n (square b))
  powers 7 b

def turn (b : UInt8) (n : UInt8) : UInt8 :=
  (b <<< n) ||| (b >>> (8 - n))

def substitute (b : UInt8) : UInt8 :=
  let i := inverse b
  i ^^^ turn i 1 ^^^ turn i 2 ^^^ turn i 3 ^^^ turn i 4 ^^^ 0x63

def substitutes : Vector UInt8 256 :=
  Vector.ofFn fun i => substitute (UInt8.ofNat i.val)

def lookUp (word : UInt32) : UInt32 :=
  (substitutes.get ⟨word.toUInt8.toNat, word.toUInt8.toNat_lt⟩).toUInt32

structure Columns where
  a : UInt32
  b : UInt32
  c : UInt32
  d : UInt32

def rotate (word : UInt32) (bits : UInt32) : UInt32 :=
  (word <<< bits) ||| (word >>> (32 - bits))

def gather (a b c d : UInt32) : UInt32 :=
  (lookUp (a >>> 24) <<< 24) ||| (lookUp (b >>> 16) <<< 16) ||| (lookUp (c >>> 8) <<< 8) |||
    lookUp d

def timesXAll (word : UInt32) : UInt32 :=
  ((word &&& 0x7f7f7f7f) <<< 1) ^^^ (((word >>> 7) &&& 0x01010101) * 0x1b)

def mix (word : UInt32) : UInt32 :=
  let next := rotate word 8
  timesXAll (word ^^^ next) ^^^ next ^^^ rotate word 16 ^^^ rotate word 24

namespace Columns

def add (s k : Columns) : Columns :=
  ⟨s.a ^^^ k.a, s.b ^^^ k.b, s.c ^^^ k.c, s.d ^^^ k.d⟩

def shuffle (s : Columns) : Columns :=
  ⟨gather s.a s.b s.c s.d, gather s.b s.c s.d s.a, gather s.c s.d s.a s.b, gather s.d s.a s.b s.c⟩

def round (s key : Columns) : Columns :=
  let t := s.shuffle
  add ⟨mix t.a, mix t.b, mix t.c, mix t.d⟩ key

def ofBlock (block : Block) : Columns :=
  ⟨(block.high >>> 32).toUInt32, block.high.toUInt32,
    (block.low >>> 32).toUInt32, block.low.toUInt32⟩

def toBlock (s : Columns) : Block :=
  ⟨(s.a.toUInt64 <<< 32) ||| s.b.toUInt64, (s.c.toUInt64 <<< 32) ||| s.d.toUInt64⟩

def advance (key : Columns) (seed : UInt32) : Columns :=
  let a := key.a ^^^ seed
  let b := key.b ^^^ a
  let c := key.c ^^^ b
  ⟨a, b, c, key.d ^^^ c⟩

end Columns

def expand (first second : Columns) : List UInt32 → List Columns
  | [] => [first]
  | constant :: constants =>
    let turned := rotate second.d 8
    let third := first.advance (gather turned turned turned turned ^^^ (constant <<< 24))
    let fourth := second.advance (gather third.d third.d third.d third.d)
    first :: second :: expand third fourth constants

def schedule (key : Bytes) : List Columns :=
  let first := Columns.ofBlock (Block.ofBytes key)
  let second := Columns.ofBlock (Block.ofBytes (key.drop 16))
  expand first second [1, 2, 4, 8, 16, 32, 64]

def rounds (s : Columns) : List Columns → Columns
  | [] => s
  -- the last round does not mix the columns
  | [key] => s.shuffle.add key
  | key :: keys => rounds (s.round key) keys

def encrypt (keys : List Columns) (block : Block) : Block :=
  match keys with
  | [] => block
  | key :: keys => (rounds ((Columns.ofBlock block).add key) keys).toBlock

end SealedChat.Aes
