import SealedChat.Bytes

namespace SealedChat

structure Block where
  high : UInt64
  low : UInt64
  deriving DecidableEq, Repr

namespace Block

def size : Nat := 16

def zero : Block := ⟨0, 0⟩

def add (a b : Block) : Block := ⟨a.high ^^^ b.high, a.low ^^^ b.low⟩

instance : Add Block := ⟨add⟩

def wordFrom : (count : Nat) → (word : UInt64) → Bytes → UInt64
  | 0, word, _ => word
  | count + 1, word, [] => wordFrom count (word <<< 8) []
  | count + 1, word, b :: bytes => wordFrom count (word <<< 8 ||| b.toUInt64) bytes

def ofBytes (bytes : Bytes) : Block :=
  ⟨wordFrom 8 0 bytes, wordFrom 8 0 (bytes.drop 8)⟩

def consWord (word : UInt64) (bytes : Bytes) : Bytes :=
  (word >>> 56).toUInt8 :: (word >>> 48).toUInt8 :: (word >>> 40).toUInt8 ::
    (word >>> 32).toUInt8 :: (word >>> 24).toUInt8 :: (word >>> 16).toUInt8 ::
    (word >>> 8).toUInt8 :: word.toUInt8 :: bytes

def toBytes (block : Block) : Bytes :=
  consWord block.high (consWord block.low [])

@[simp] theorem length_toBytes (block : Block) : block.toBytes.length = size := rfl

end Block

end SealedChat
