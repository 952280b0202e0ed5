import SealedChat.History.Timeline

namespace SealedChat

class DoubleEnded (κ : Type) (α : outParam Type) where
  next : κ → Option α × κ
  nextBack : κ → Option α × κ
  sizeHint : κ → Nat × Option Nat

structure Cursor (μ : Type) where
  remaining : List μ
  deriving DecidableEq, Repr

namespace Cursor

variable {μ : Type}

def length (cursor : Cursor μ) : Nat :=
  cursor.remaining.length

def next (cursor : Cursor μ) : Option μ × Cursor μ :=
  match cursor.remaining with
  | [] => (none, cursor)
  | message :: messages => (some message, ⟨messages⟩)

def nextBack (cursor : Cursor μ) : Option μ × Cursor μ :=
  (cursor.remaining.getLast?, ⟨cursor.remaining.dropLast⟩)

def sizeHint (cursor : Cursor μ) : Nat × Option Nat :=
  (cursor.length, some cursor.length)

instance : DoubleEnded (Cursor μ) μ := ⟨next, nextBack, sizeHint⟩

end Cursor

structure Drain (μ : Type) where
  entries : Cursor (Entry μ)
  deriving DecidableEq, Repr

namespace Drain

variable {μ : Type}

def next (drain : Drain μ) : Option μ × Drain μ :=
  let (entry, entries) := drain.entries.next
  (entry.map Entry.message, ⟨entries⟩)

def nextBack (drain : Drain μ) : Option μ × Drain μ :=
  let (entry, entries) := drain.entries.nextBack
  (entry.map Entry.message, ⟨entries⟩)

def sizeHint (drain : Drain μ) : Nat × Option Nat :=
  drain.entries.sizeHint

instance : DoubleEnded (Drain μ) μ := ⟨next, nextBack, sizeHint⟩

end Drain

def Timeline.cursor {μ : Type} (timeline : Timeline μ) : Cursor μ :=
  ⟨timeline.messages⟩

def Timeline.drain {μ : Type} (timeline : Timeline μ) : Drain μ :=
  ⟨⟨timeline.entries⟩⟩

end SealedChat
