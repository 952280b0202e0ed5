import SealedChat.History.Message

/-!
The history of a chat as one timeline: messages in ascending order of their timestamps, every id
once.

Bulk payloads overlap and come in any order. Adding a message whose id is known replaces the old
one; where it goes among messages of the same timestamp is what a binary search finds. Order hints
are carried along and never looked at.
-/

namespace SealedChat

inductive HistoryError where
  | outOfBounds (index length : Nat)
  | unsupported (operation : String)
  deriving DecidableEq, Repr

def HistoryError.message : HistoryError → String
  | .outOfBounds index length =>
    s!"index {index} is out of bounds for a history of {length} messages"
  | .unsupported operation => s!"unsupported operation: {operation}"

structure Timeline (μ : Type) where
  entries : List (Entry μ)
  deriving DecidableEq, Repr

namespace Timeline

def narrow (key : Nat → UInt64) (t : UInt64) (base size : Nat) : Nat :=
  if size ≤ 1 then base
  else
    let half := size / 2
    narrow key t (if key (base + half) ≤ t then base + half else base) (size - half)
termination_by size

/-- The position for a key: in front of the equal key that the search finds, or behind the smaller
one that it ends at. -/
def searchPosition (keys : List UInt64) (t : UInt64) : Nat :=
  if keys.isEmpty then 0
  else
    let base := narrow (fun i => keys.getD i 0) t 0 keys.length
    if keys.getD base 0 < t then base + 1 else base

variable {μ ι : Type} [Stamped μ ι] [DecidableEq ι]

def empty : Timeline μ := ⟨[]⟩

instance : EmptyCollection (Timeline μ) := ⟨empty⟩

def keepLast : List (Entry μ) → List (Entry μ)
  | [] => []
  | entry :: entries =>
    if entries.any fun later => later.id = entry.id then keepLast entries
    else entry :: keepLast entries

def ofEntries (entries : List (Entry μ)) : Timeline μ :=
  ⟨(keepLast entries).mergeSort fun a b => a.timestamp ≤ b.timestamp⟩

def indexOfId? (timeline : Timeline μ) (id : ι) : Option Nat :=
  timeline.entries.findIdx? fun entry => entry.id = id

def eraseAt (timeline : Timeline μ) (index : Nat) : Timeline μ :=
  ⟨timeline.entries.eraseIdx index⟩

def eraseId (timeline : Timeline μ) (id : ι) : Timeline μ :=
  match timeline.indexOfId? id with
  | some index => timeline.eraseAt index
  | none => timeline

def insertionPoint (timeline : Timeline μ) (t : UInt64) : Nat :=
  searchPosition (timeline.entries.map Entry.timestamp) t

def addEntry (timeline : Timeline μ) (entry : Entry μ) : Bool × Timeline μ :=
  let before := timeline.eraseId entry.id
  let after := before.entries.insertIdx (before.insertionPoint entry.timestamp) entry
  -- compared behind the removal, so that a replaced entry counts as new too
  (after.length != before.entries.length, ⟨after⟩)

def add (timeline : Timeline μ) (message : μ) : Bool × Timeline μ :=
  timeline.addEntry (.ofMessage message)

def addAll (timeline : Timeline μ) (messages : List μ) : Timeline μ :=
  messages.foldl (fun timeline message => (timeline.add message).2) timeline

def ofMessages (messages : List μ) : Timeline μ :=
  addAll ∅ messages

def containsId (timeline : Timeline μ) (id : ι) : Bool :=
  (timeline.indexOfId? id).isSome

def removeById (timeline : Timeline μ) (id : ι) : Option μ × Timeline μ :=
  match timeline.indexOfId? id with
  | some index => (timeline.entries[index]?.map Entry.message, timeline.eraseAt index)
  | none => (none, timeline)

end Timeline

namespace Timeline

variable {μ : Type}

def removeAt (timeline : Timeline μ) (index : Nat) : Except HistoryError μ × Timeline μ :=
  match timeline.entries[index]? with
  | some entry => (.ok entry.message, timeline.eraseAt index)
  | none => (.error (.outOfBounds index timeline.entries.length), timeline)

def insertAt (timeline : Timeline μ) (_index : Nat) (_message : μ) :
    Except HistoryError Unit × Timeline μ :=
  (.error (.unsupported "inserting a message at an index"), timeline)

def set (timeline : Timeline μ) (_index : Nat) (_message : μ) :
    Except HistoryError μ × Timeline μ :=
  (.error (.unsupported "replacing a message at an index"), timeline)

def length (timeline : Timeline μ) : Nat :=
  timeline.entries.length

def isEmpty (timeline : Timeline μ) : Bool :=
  timeline.entries.isEmpty

def messages (timeline : Timeline μ) : List μ :=
  timeline.entries.map Entry.message

def get? (timeline : Timeline μ) (index : Nat) : Option μ :=
  timeline.messages[index]?

def first? (timeline : Timeline μ) : Option μ :=
  timeline.messages.head?

def last? (timeline : Timeline μ) : Option μ :=
  timeline.messages.getLast?

def slice? (timeline : Timeline μ) (start stop : Nat) : Option (List μ) :=
  if start ≤ stop ∧ stop ≤ timeline.length then
    some ((timeline.messages.take stop).drop start)
  else
    none

def clear (_ : Timeline μ) : Timeline μ := ⟨[]⟩

def retain (timeline : Timeline μ) (keep : μ → Bool) : Timeline μ :=
  ⟨timeline.entries.filter fun entry => keep entry.message⟩

variable [DecidableEq μ]

def indexOf? (timeline : Timeline μ) (message : μ) : Option Nat :=
  timeline.entries.findIdx? fun entry => entry.message = message

def lastIndexOf? (timeline : Timeline μ) (message : μ) : Option Nat :=
  (timeline.entries.reverse.findIdx? fun entry => entry.message = message).map
    (timeline.length - 1 - ·)

def contains (timeline : Timeline μ) (message : μ) : Bool :=
  (timeline.indexOf? message).isSome

def containsAll (timeline : Timeline μ) (messages : List μ) : Bool :=
  messages.all timeline.contains

def remove (timeline : Timeline μ) (message : μ) : Bool × Timeline μ :=
  let kept := timeline.retain fun other => other ≠ message
  (kept.length != timeline.length, kept)

def removeAll (timeline : Timeline μ) (messages : List μ) : Bool × Timeline μ :=
  let kept := timeline.retain fun other => !messages.contains other
  (kept.length != timeline.length, kept)

end Timeline

end SealedChat
