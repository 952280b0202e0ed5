import Mathlib.Data.List.InsertIdx
import SealedChat.History.Timeline

namespace SealedChat

variable {μ ι : Type}

def Entry.bare (entry : Entry μ) : Entry μ :=
  .ofMessage entry.message

@[simp] theorem Entry.message_bare (entry : Entry μ) : entry.bare.message = entry.message := rfl

@[simp] theorem Entry.id_bare [Stamped μ ι] (entry : Entry μ) : entry.bare.id = entry.id := rfl

@[simp] theorem Entry.timestamp_bare [Stamped μ ι] (entry : Entry μ) :
    entry.bare.timestamp = entry.timestamp := rfl

namespace Timeline

def bare (timeline : Timeline μ) : Timeline μ :=
  ⟨timeline.entries.map Entry.bare⟩

variable (timeline : Timeline μ)

@[simp] theorem messages_bare : timeline.bare.messages = timeline.messages := by
  simp [messages, bare, Function.comp_def]

theorem eraseAt_bare (index : Nat) : timeline.bare.eraseAt index = (timeline.eraseAt index).bare :=
  congrArg Timeline.mk (List.eraseIdx_map _ _ _)

theorem getElem?_bare (index : Nat) :
    timeline.bare.entries[index]? = timeline.entries[index]?.map Entry.bare :=
  List.getElem?_map

theorem length_entries_bare : timeline.bare.entries.length = timeline.entries.length :=
  List.length_map _

theorem length_bare : timeline.bare.length = timeline.length :=
  timeline.length_entries_bare

theorem isEmpty_bare : timeline.bare.isEmpty = timeline.isEmpty :=
  List.isEmpty_map

theorem removeAt_bare (index : Nat) :
    timeline.bare.removeAt index =
      ((timeline.removeAt index).1, (timeline.removeAt index).2.bare) := by
  rw [removeAt, removeAt, getElem?_bare, eraseAt_bare, length_entries_bare]
  cases timeline.entries[index]? <;> rfl

theorem retain_bare (keep : μ → Bool) : timeline.bare.retain keep = (timeline.retain keep).bare :=
  congrArg Timeline.mk List.filter_map

section Values

variable [DecidableEq μ] (message : μ)

theorem indexOf?_bare : timeline.bare.indexOf? message = timeline.indexOf? message :=
  List.findIdx?_map

theorem lastIndexOf?_bare : timeline.bare.lastIndexOf? message = timeline.lastIndexOf? message := by
  have reversed : timeline.bare.entries.reverse = timeline.entries.reverse.map Entry.bare :=
    List.map_reverse.symm
  rw [lastIndexOf?, lastIndexOf?, reversed, List.findIdx?_map, length_bare]
  rfl

theorem contains_bare : timeline.bare.contains message = timeline.contains message := by
  rw [contains, contains, indexOf?_bare]

theorem containsAll_bare (messages : List μ) :
    timeline.bare.containsAll messages = timeline.containsAll messages := by
  rw [containsAll, containsAll, funext timeline.contains_bare]

theorem remove_bare :
    timeline.bare.remove message =
      ((timeline.remove message).1, (timeline.remove message).2.bare) := by
  simp only [remove, retain_bare, length_bare]

theorem removeAll_bare (messages : List μ) :
    timeline.bare.removeAll messages =
      ((timeline.removeAll messages).1, (timeline.removeAll messages).2.bare) := by
  simp only [removeAll, retain_bare, length_bare]

end Values

section Ids

variable [Stamped μ ι] [DecidableEq ι]

theorem indexOfId?_bare (id : ι) : timeline.bare.indexOfId? id = timeline.indexOfId? id :=
  List.findIdx?_map

theorem containsId_bare (id : ι) : timeline.bare.containsId id = timeline.containsId id := by
  rw [containsId, containsId, indexOfId?_bare]

theorem eraseId_bare (id : ι) : timeline.bare.eraseId id = (timeline.eraseId id).bare := by
  rw [eraseId, eraseId, indexOfId?_bare]
  cases timeline.indexOfId? id with
  | none => rfl
  | some index => exact timeline.eraseAt_bare index

theorem removeById_bare (id : ι) :
    timeline.bare.removeById id =
      ((timeline.removeById id).1, (timeline.removeById id).2.bare) := by
  rw [removeById, removeById, indexOfId?_bare]
  cases timeline.indexOfId? id with
  | none => rfl
  | some index =>
    dsimp only
    rw [getElem?_bare, eraseAt_bare, Option.map_map]
    rfl

omit [DecidableEq ι] in
theorem insertionPoint_bare (t : UInt64) :
    timeline.bare.insertionPoint t = timeline.insertionPoint t := by
  simp [insertionPoint, bare, Function.comp_def]

theorem addEntry_bare (entry : Entry μ) :
    timeline.bare.addEntry entry.bare =
      ((timeline.addEntry entry).1, (timeline.addEntry entry).2.bare) := by
  have inserted (rest : Timeline μ) (index : Nat) :
      rest.bare.entries.insertIdx index entry.bare =
        (rest.entries.insertIdx index entry).map Entry.bare :=
    (List.map_insertIdx _ _ _ _).symm
  simp only [addEntry, Entry.id_bare, Entry.timestamp_bare, eraseId_bare, insertionPoint_bare,
    inserted, length_entries_bare, List.length_map]
  rfl

theorem add_bare (message : μ) :
    timeline.bare.add message =
      ((timeline.add message).1, (timeline.add message).2.bare) :=
  timeline.addEntry_bare (.ofMessage message)

theorem addAll_bare (messages : List μ) :
    timeline.bare.addAll messages = (timeline.addAll messages).bare := by
  rw [addAll, addAll]
  apply List.foldl_hom bare
  intro timeline message
  exact congrArg Prod.snd (timeline.add_bare message)

theorem ofMessages_bare (messages : List μ) :
    (ofMessages messages).bare = ofMessages messages :=
  (addAll_bare ∅ messages).symm

theorem keepLast_bare (entries : List (Entry μ)) :
    keepLast (entries.map Entry.bare) = (keepLast entries).map Entry.bare := by
  induction entries with
  | nil => rfl
  | cons entry entries ih =>
    have again : ((entries.map Entry.bare).any fun later => later.id = entry.bare.id) =
        entries.any fun later => later.id = entry.id := List.any_map
    rw [List.map_cons, keepLast, keepLast, again, ih]
    split <;> rfl

theorem ofEntries_bare (entries : List (Entry μ)) :
    ofEntries (entries.map Entry.bare) = (ofEntries entries).bare := by
  have sorted (entries : List (Entry μ)) :
      (entries.map Entry.bare).mergeSort (fun a b => a.timestamp ≤ b.timestamp) =
        (entries.mergeSort fun a b => a.timestamp ≤ b.timestamp).map Entry.bare := by
    symm
    apply List.map_mergeSort
    intros
    rfl
  rw [ofEntries, keepLast_bare, sorted]
  rfl

end Ids

end Timeline

end SealedChat
