import SealedChat.Cbor.Header

namespace SealedChat.Cbor

inductive Mismatch where
  | wrongType (found : Header) (expected : String)
  | outOfRange (n : Nat) (expected : String)
  | unexpectedNegative
  | integerTooLarge
  | bigIntegerTooLarge
  | notBoolean
  | duplicateField (name : String)
  | missingField (name : String)
  | unknownVariant (name : String) (known : List String)
  | wrongLength (length : Nat) (expected : String)
  deriving DecidableEq, Repr

def Mismatch.message : Mismatch → String
  | .wrongType found expected => s!"invalid type: {found.describe}, expected {expected}"
  | .outOfRange n expected => s!"invalid value: integer `{n}`, expected {expected}"
  | .unexpectedNegative => "unexpected negative integer"
  | .integerTooLarge => "integer too large"
  | .bigIntegerTooLarge => "bigint too large"
  | .notBoolean => "expected bool"
  | .duplicateField name => s!"duplicate field `{name}`"
  | .missingField name => s!"missing field `{name}`"
  | .unknownVariant name known =>
    let quoted := ", ".intercalate (known.map fun name => s!"`{name}`")
    s!"unknown variant `{name}`, expected one of {quoted}"
  | .wrongLength length expected => s!"invalid length {length}, expected {expected}"

inductive DecodeError where
  | truncated
  | malformed (offset : Nat)
  | mismatch (offset : Option Nat) (cause : Mismatch)
  | tooDeep
  | trailing (count : Nat)
  deriving DecidableEq, Repr

def DecodeError.message : DecodeError → String
  | .truncated => "cbor value ends before its declared length"
  | .malformed offset => s!"invalid cbor syntax at position {offset}"
  | .mismatch offset cause =>
    let place := match offset with
      | none => "None"
      | some offset => s!"Some({offset})"
    s!"unexpected cbor value at position {place}: {cause.message}"
  | .tooDeep => "cbor value nests too deeply"
  | .trailing count => s!"{count} bytes left over after the cbor value"

structure EncodeError where
  reason : String
  deriving DecidableEq, Repr

def EncodeError.message (error : EncodeError) : String :=
  s!"value can not be serialized as cbor: {error.reason}"

end SealedChat.Cbor
