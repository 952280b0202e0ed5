import SealedChat.Frame
import SealedChat.Cbor.Format

namespace SealedChat

structure FrameConfig where
  maxFrameSize : UInt64 := UInt64.ofNat Frame.maxSize
  introHeader : Option Bytes := none
  deriving DecidableEq, Repr

namespace FrameConfig

open Cbor

structure Fields where
  maxFrameSize : Option UInt64 := none
  introHeader : Option (Option Bytes) := none

def readField (levels : Nat) (name : Bytes) (fields : Fields) : Decoder Fields := do
  if name = Utf8.encode "max_frame_size" then
    return { fields with
      maxFrameSize := ← Decoder.field "max_frame_size" Decoder.unsigned fields.maxFrameSize }
  else if name = Utf8.encode "intro_header" then
    let value := Decoder.option (Decoder.byteString levels)
    return { fields with introHeader := ← Decoder.field "intro_header" value fields.introHeader }
  else
    Decoder.passValue levels
    return fields

def ofFields (fields : Fields) : FrameConfig :=
  let usual : FrameConfig := {}
  { maxFrameSize := fields.maxFrameSize.getD usual.maxFrameSize
    introHeader := fields.introHeader.getD usual.introHeader }

end FrameConfig

def Cbor.Format.config : Format FrameConfig where
  write config := writeRecord [
    ("max_frame_size", writeNat config.maxFrameSize.toNat),
    ("intro_header", writeOption writeBytes config.introHeader)]
  read levels item := do
    return .ofFields (← Decoder.record levels FrameConfig.readField {} item)

end SealedChat
