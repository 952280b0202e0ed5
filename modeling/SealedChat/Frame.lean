import SealedChat.Bytes

/-!
Frames: bodies behind a length of three bytes.

A transport read is a row of frames and a rest that holds no complete frame. `scan` cuts a read into
the two, `write` puts a body behind its length.
-/

namespace SealedChat

inductive FrameError where
  | tooLarge (size limit : Nat)
  deriving DecidableEq, Repr

def FrameError.message : FrameError → String
  | .tooLarge size limit =>
    s!"frame of {size} bytes exceeds the maximum frame size of {limit} bytes"

namespace Frame

def headerSize : Nat := 3

def maxSize : Nat := 0xFFFFFF

def checkSize (size maxFrameSize : Nat) : Except FrameError Unit :=
  let limit := min maxFrameSize maxSize
  if size ≤ limit then .ok () else .error (.tooLarge size limit)

def write (maxFrameSize : Nat) (body : Bytes) : Except FrameError Bytes := do
  checkSize body.length maxFrameSize
  return Bytes.ofNat headerSize body.length ++ body

def encode (body : Bytes) : Except FrameError Bytes :=
  write maxSize body

/-- The body of the first frame and the bytes behind it, if that frame is complete. The length is
unsigned: the top bit of its first byte counts like the others. -/
def first? (buffer : Bytes) : Option (Bytes × Bytes) := do
  let (header, rest) ← Bytes.cut? headerSize buffer
  Bytes.cut? header.toNat rest

theorem length_lt_of_first? {buffer body rest : Bytes} (h : first? buffer = some (body, rest)) :
    rest.length < buffer.length := by
  simp only [first?, Option.bind_eq_bind, Option.bind_eq_some_iff, Prod.exists] at h
  obtain ⟨header, tail, h₁, h₂⟩ := h
  obtain ⟨rfl, size⟩ := Bytes.cut?_eq_some_iff.1 h₁
  obtain ⟨rfl, -⟩ := Bytes.cut?_eq_some_iff.1 h₂
  simp only [headerSize] at size
  simp only [List.length_append, size]
  omega

def scan (buffer : Bytes) : List Bytes × Bytes :=
  match h : first? buffer with
  | none => ([], buffer)
  | some (body, rest) =>
    have := length_lt_of_first? h
    let (bodies, unread) := scan rest
    (body :: bodies, unread)
termination_by buffer.length

def extract (buffer : Bytes) : List Bytes :=
  (scan buffer).1

def unread (buffer : Bytes) : Bytes :=
  (scan buffer).2

end Frame

structure TransportRead where
  raw : Bytes
  frames : List Bytes := Frame.extract raw
  frames_eq : frames = Frame.extract raw := by rfl
  deriving DecidableEq, Repr

namespace TransportRead

def length (read : TransportRead) : Nat :=
  read.frames.length

def isEmpty (read : TransportRead) : Bool :=
  read.frames.isEmpty

end TransportRead

end SealedChat
