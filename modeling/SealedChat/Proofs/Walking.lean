import SealedChat.History.Cursor
import SealedChat.Proofs.Ordered

/-!
Walks over a timeline from both ends give every message once.

A call to one end takes what it gives off that end of what is left, and gives nothing only when
nothing is left (`Cursor.call_eq`). By induction on the calls, a run of them goes through the whole
list (`Cursor.traverses`). A drain answers as the cursor over its messages does, so its runs are
runs of that cursor (`Drain.callAll_eq`).
-/

namespace SealedChat

inductive End where
  | front
  | back
  deriving DecidableEq, Repr

namespace DoubleEnded

section Calls

variable {κ α : Type} [DoubleEnded κ α]

def call (walk : κ) : End → Option α × κ
  | .front => next walk
  | .back => nextBack walk

def callAll (walk : κ) : List End → List (Option α) × κ
  | [] => ([], walk)
  | side :: sides =>
    let answered := call walk side
    let others := callAll answered.2 sides
    (answered.1 :: others.1, others.2)

end Calls

variable {α : Type}

def givenAt (side : End) : List End → List (Option α) → List α
  | asked :: sides, answer :: answers =>
    (if asked = side then answer.toList else []) ++ givenAt side sides answers
  | _, _ => []

/-- Calls to both ends go through a list. Their answers and what they have left make up the list,
the number of elements that are left is told exactly, and those calls give nothing that have as many
calls in front of them as there are elements. -/
structure Traverses (list : List α) (sides : List End) (answers : List (Option α)) (left : List α)
    (hint : Nat × Option Nat) : Prop where
  whole : givenAt .front sides answers ++ left ++ (givenAt .back sides answers).reverse = list
  hint_eq : hint = (list.length - sides.length, some (list.length - sides.length))
  length_eq : answers.length = sides.length
  none_iff : ∀ i < sides.length, answers[i]? = some none ↔ list.length ≤ i

end DoubleEnded

open DoubleEnded

variable {μ : Type}

namespace Cursor

def putBack (side : End) (taken : Option μ) (left : List μ) : List μ :=
  match side with
  | .front => taken.toList ++ left
  | .back => left ++ taken.toList

theorem length_putBack (side : End) (taken : Option μ) (left : List μ) :
    (putBack side taken left).length = left.length + taken.toList.length := by
  cases side with
  | front => rw [putBack, List.length_append, Nat.add_comm]
  | back => rw [putBack, List.length_append]

theorem call_eq (cursor : Cursor μ) (side : End) :
    putBack side (call cursor side).1 (call cursor side).2.remaining = cursor.remaining ∧
      ((call cursor side).1 = none ↔ cursor.remaining = []) := by
  obtain ⟨remaining⟩ := cursor
  cases side with
  | front =>
    cases remaining with
    | nil => exact ⟨rfl, iff_of_true rfl rfl⟩
    | cons message messages => exact ⟨rfl, iff_of_false nofun nofun⟩
  | back => exact ⟨Timeline.dropLast_append_getLast? remaining, List.getLast?_eq_none_iff⟩

theorem length_remaining_call (cursor : Cursor μ) (side : End) :
    (call cursor side).2.remaining.length = cursor.remaining.length - 1 := by
  obtain ⟨whole, none_iff⟩ := cursor.call_eq side
  have length := congrArg List.length whole
  rw [length_putBack] at length
  cases taken : (call cursor side).1 with
  | none =>
    rw [taken, Option.toList_none, List.length_nil, none_iff.1 taken, List.length_nil] at length
    rw [none_iff.1 taken, List.length_nil]
    omega
  | some message =>
    rw [taken, Option.toList_some, List.length_singleton] at length
    omega

theorem traverses (cursor : Cursor μ) (sides : List End) :
    Traverses cursor.remaining sides (callAll cursor sides).1 (callAll cursor sides).2.remaining
      (DoubleEnded.sizeHint (callAll cursor sides).2) := by
  induction sides generalizing cursor with
  | nil => exact ⟨List.append_nil _, rfl, rfl, nofun⟩
  | cons side sides ih =>
    obtain ⟨whole, none_iff⟩ := cursor.call_eq side
    have length := cursor.length_remaining_call side
    have others := ih (call cursor side).2
    rw [callAll]
    generalize call cursor side = answered at *
    refine ⟨?_, ?_, congrArg (· + 1) others.length_eq, ?_⟩
    · rw [← whole, ← others.whole]
      cases side with
      | front => simp [givenAt, putBack]
      | back => cases answered.1 <;> simp [givenAt, putBack]
    · rw [others.hint_eq, length, Nat.sub_sub, Nat.add_comm 1, List.length_cons]
    · intro i inside
      cases i with
      | zero => simp [none_iff]
      | succ i =>
        rw [List.getElem?_cons_succ, others.none_iff i (Nat.lt_of_succ_lt_succ inside), length]
        omega

example : (callAll (⟨[1, 2, 3]⟩ : Cursor Nat) [.front, .back, .back, .front, .back]).1 =
    [some 1, some 3, some 2, none, none] := rfl

end Cursor

namespace Drain

def cursor (drain : Drain μ) : Cursor μ :=
  ⟨drain.entries.remaining.map Entry.message⟩

theorem call_eq (drain : Drain μ) (side : End) :
    (call drain side).1 = (call drain.cursor side).1 ∧
      (call drain side).2.cursor = (call drain.cursor side).2 := by
  obtain ⟨⟨remaining⟩⟩ := drain
  cases side with
  | front => cases remaining <;> exact ⟨rfl, rfl⟩
  | back => exact ⟨List.getLast?_map.symm, congrArg Cursor.mk (List.map_dropLast ..)⟩

theorem callAll_eq (drain : Drain μ) (sides : List End) :
    (callAll drain sides).1 = (callAll drain.cursor sides).1 ∧
      (callAll drain sides).2.cursor = (callAll drain.cursor sides).2 := by
  induction sides generalizing drain with
  | nil => exact ⟨rfl, rfl⟩
  | cons side sides ih =>
    obtain ⟨answer, rest⟩ := drain.call_eq side
    obtain ⟨answers, last⟩ := ih (call drain side).2
    rw [callAll, callAll, answer, answers, last, rest]
    exact ⟨rfl, rfl⟩

theorem sizeHint_cursor (drain : Drain μ) : drain.cursor.sizeHint = drain.sizeHint := by
  simp only [cursor, sizeHint, Cursor.sizeHint, Cursor.length, List.length_map]

theorem traverses (drain : Drain μ) (sides : List End) :
    Traverses drain.cursor.remaining sides (callAll drain sides).1
      (callAll drain sides).2.cursor.remaining (DoubleEnded.sizeHint (callAll drain sides).2) := by
  obtain ⟨answers, last⟩ := drain.callAll_eq sides
  have hint : DoubleEnded.sizeHint (callAll drain sides).2 =
      DoubleEnded.sizeHint (callAll drain.cursor sides).2 := by
    rw [← last]
    exact (sizeHint_cursor _).symm
  rw [answers, last, hint]
  exact drain.cursor.traverses sides

end Drain

/-- However calls to the two ends of a timeline are mixed, and however many they are, they go
through its messages, and they do so alike when these are looked at and when they are taken out. -/
theorem Timeline.walks_traverse (timeline : Timeline μ) (sides : List End) :
    let looked := callAll timeline.cursor sides
    let drained := callAll timeline.drain sides
    Traverses timeline.messages sides looked.1 looked.2.remaining
        (DoubleEnded.sizeHint looked.2) ∧
      Traverses timeline.messages sides drained.1
        (drained.2.entries.remaining.map Entry.message) (DoubleEnded.sizeHint drained.2) ∧
      drained.1 = looked.1 :=
  ⟨timeline.cursor.traverses sides, timeline.drain.traverses sides,
    (timeline.drain.callAll_eq sides).1⟩

end SealedChat
