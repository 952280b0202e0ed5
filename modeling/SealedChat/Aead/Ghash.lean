import SealedChat.Aead.Block

/-!
The universal hash of the Galois counter mode: blocks are polynomials over two elements modulo
`x¹²⁸ + x⁷ + x² + x + 1`, the top bit of a block is its constant term.
-/

namespace SealedChat.Ghash

def accumulate (bits : Nat) (xHigh xLow vHigh vLow zHigh zLow : UInt64) : Block :=
  match bits with
  | 0 => ⟨zHigh, zLow⟩
  | bits + 1 =>
    let chosen := -(xHigh >>> 63)
    let carried := -(vLow &&& 1)
    accumulate bits
      ((xHigh <<< 1) ||| (xLow >>> 63)) (xLow <<< 1)
      ((vHigh >>> 1) ^^^ (carried &&& 0xe100000000000000)) ((vLow >>> 1) ||| (vHigh <<< 63))
      (zHigh ^^^ (vHigh &&& chosen)) (zLow ^^^ (vLow &&& chosen))

def multiply (x y : Block) : Block :=
  accumulate 128 x.high x.low y.high y.low 0 0

def absorb (h y : Block) (bytes : Bytes) : Block :=
  if bytes.isEmpty then y
  else absorb h (multiply (y + Block.ofBytes bytes) h) (bytes.drop Block.size)
termination_by bytes.length
decreasing_by
  cases bytes with
  | nil => contradiction
  | cons b tail =>
    simp only [List.length_drop, List.length_cons, Block.size]
    omega

def hash (h : Block) (aad ciphertext : Bytes) : Block :=
  let lengths : Block :=
    ⟨(8 * aad.length).toUInt64, (8 * ciphertext.length).toUInt64⟩
  multiply (absorb h (absorb h Block.zero aad) ciphertext + lengths) h

end SealedChat.Ghash
