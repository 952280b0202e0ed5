import SealedChat.Proofs.Ordered
import SealedChat.Proofs.Persistence

namespace SealedChat.Timeline

structure Forms (μ : Type) where
  cbor : Cbor.Format (List (Entry μ))
  json : Json.Format (List (Entry μ))

def Forms.message : Forms Message where
  cbor := Cbor.Format.entries
  json := Json.Format.entry.list

inductive Medium where
  | entries
  | cbor
  | json
  deriving DecidableEq, Repr

inductive Change (μ ι : Type) where
  | add (message : μ)
  | addEntry (entry : Entry μ)
  | addAll (messages : List μ)
  | collect (messages : List μ)
  | removeById (id : ι)
  | removeAt (index : Nat)
  | remove (message : μ)
  | removeAll (messages : List μ)
  | retain (keep : μ → Bool)
  | clear
  | insertAt (index : Nat) (message : μ)
  | set (index : Nat) (message : μ)
  | reload (medium : Medium)

variable {μ ι : Type} [Stamped μ ι] {forms : Forms μ} {timeline : Timeline μ}

theorem Ordered.getD_toOption {ε : Type} {read : Except ε (Timeline μ)} (h : timeline.Ordered)
    (again : ∀ other, read = .ok other → other.Ordered) :
    (read.toOption.getD timeline).Ordered := by
  cases read with
  | error e => exact h
  | ok other => exact again other rfl

variable [DecidableEq ι]

def reload (forms : Forms μ) (timeline : Timeline μ) : Medium → Option (Timeline μ)
  | .entries => some (.ofEntries timeline.entries)
  | .cbor => (forms.cbor.timeline.decode (forms.cbor.timeline.encode timeline)).toOption
  | .json => (forms.json.timeline.decode (forms.json.timeline.encode timeline)).toOption

theorem Ordered.of_read {ε : Type} {read : Except ε (List (Entry μ))}
    (h : read.map .ofEntries = .ok timeline) : timeline.Ordered := by
  cases read with
  | error e => cases h
  | ok entries =>
    cases h
    exact .ofEntries entries

theorem Ordered.ofCbor {bytes : Bytes}
    (h : forms.cbor.timeline.decode bytes = .ok timeline) : timeline.Ordered := by
  rw [Cbor.Format.decode_timeline] at h
  exact .of_read h

theorem Ordered.ofJson {text : String}
    (h : forms.json.timeline.decode text = .ok timeline) : timeline.Ordered := by
  rw [Json.Format.decode_timeline] at h
  exact .of_read h

theorem Ordered.reload (h : timeline.Ordered) (medium : Medium) :
    ((timeline.reload forms medium).getD timeline).Ordered := by
  cases medium with
  | entries => exact .ofEntries timeline.entries
  | cbor => exact h.getD_toOption fun _ => .ofCbor
  | json => exact h.getD_toOption fun _ => .ofJson

variable [DecidableEq μ]

def Change.apply (forms : Forms μ) (timeline : Timeline μ) : Change μ ι → Timeline μ
  | .add message => (timeline.add message).2
  | .addEntry entry => (timeline.addEntry entry).2
  | .addAll messages => timeline.addAll messages
  | .collect messages => .ofMessages messages
  | .removeById id => (timeline.removeById id).2
  | .removeAt index => (timeline.removeAt index).2
  | .remove message => (timeline.remove message).2
  | .removeAll messages => (timeline.removeAll messages).2
  | .retain keep => timeline.retain keep
  | .clear => timeline.clear
  | .insertAt index message => (timeline.insertAt index message).2
  | .set index message => (timeline.set index message).2
  | .reload medium => (timeline.reload forms medium).getD timeline

/-- The timelines that come from nothing, from entries or from a successful reading of any bytes or
any text, and what calls make of them. -/
inductive Reachable (forms : Forms μ) : Timeline μ → Prop
  | empty : Reachable forms ∅
  | ofEntries (entries : List (Entry μ)) : Reachable forms (.ofEntries entries)
  | ofCbor {bytes : Bytes} {timeline : Timeline μ}
      (h : forms.cbor.timeline.decode bytes = .ok timeline) : Reachable forms timeline
  | ofJson {text : String} {timeline : Timeline μ}
      (h : forms.json.timeline.decode text = .ok timeline) : Reachable forms timeline
  | change {timeline : Timeline μ} (reachable : Reachable forms timeline) (change : Change μ ι) :
      Reachable forms (change.apply forms timeline)

theorem Ordered.apply (h : timeline.Ordered) (change : Change μ ι) :
    (change.apply forms timeline).Ordered := by
  cases change with
  | add message => exact h.addEntry (.ofMessage message)
  | addEntry entry => exact h.addEntry entry
  | addAll messages => exact h.addAll messages
  | collect messages => exact .ofMessages messages
  | removeById id =>
    rw [Change.apply, removeById_snd]
    exact h.eraseId id
  | removeAt index => exact h.removeAt index
  | remove message => exact h.retain fun other => other ≠ message
  | removeAll messages => exact h.retain fun other => !messages.contains other
  | retain keep => exact h.retain keep
  | clear => exact .nil
  | insertAt index message => exact h
  | set index message => exact h
  | reload medium => exact h.reload medium

theorem Reachable.ordered (h : Reachable forms timeline) : timeline.Ordered := by
  induction h with
  | empty => exact .nil
  | ofEntries entries => exact .ofEntries entries
  | ofCbor h => exact .ofCbor h
  | ofJson h => exact .ofJson h
  | change _ change ih => exact ih.apply change

theorem reachable_invariant (h : Reachable forms timeline) :
    timeline.Ordered ∧
      (∀ index, timeline.length ≤ index →
        timeline.removeAt index = (.error (.outOfBounds index timeline.length), timeline)) ∧
      (∀ index message, timeline.insertAt index message =
        (.error (.unsupported "inserting a message at an index"), timeline)) ∧
      ∀ index message, timeline.set index message =
        (.error (.unsupported "replacing a message at an index"), timeline) := by
  refine ⟨h.ordered, ?_, fun _ _ => rfl, fun _ _ => rfl⟩
  intro index outside
  rw [removeAt, List.getElem?_eq_none outside]
  rfl

theorem reachable_invariant_of_disorder :
    let message (id : String) (timestamp : UInt64) : Message :=
      { key := { chat := "chat", id := ⟨id⟩, fromMe := true, sender := none }, timestamp }
    let restored : Timeline Message :=
      .ofEntries [⟨message "b" 5, 7⟩, ⟨message "c" 30, -1⟩, ⟨message "b" 20, 3⟩]
    Reachable Forms.message restored ∧ restored.length = 2 ∧ restored.Ordered ∧
      restored.removeAt 2 = (.error (.outOfBounds 2 2), restored) := by
  intro message restored
  have reachable : Reachable Forms.message restored := .ofEntries _
  have length_eq : restored.length = (keepLast _).length := List.length_mergeSort _
  have inside : restored.length = 2 := length_eq.trans (by decide)
  obtain ⟨ordered, outside, -⟩ := reachable_invariant reachable
  exact ⟨reachable, inside, ordered, inside ▸ outside 2 (Nat.le_of_eq inside)⟩

end SealedChat.Timeline
