import SealedChat.Proofs.Ordered

namespace SealedChat.Timeline

variable {μ ι : Type} [Stamped μ ι] [DecidableEq ι]

/-- Some entries with one among them that takes the place of the one with its id. It stands behind
all that are earlier and all that are tied with it but the last. -/
def withEntry (entries : List (Entry μ)) (entry : Entry μ) : List (Entry μ) :=
  let others := entries.filter fun other => other.id ≠ entry.id
  let earlier := others.filter fun other => other.timestamp < entry.timestamp
  let tied := others.filter fun other => other.timestamp = entry.timestamp
  let later := others.filter fun other => entry.timestamp < other.timestamp
  earlier ++ tied.dropLast ++ [entry] ++ tied.getLast?.toList ++ later

theorem Ordered.withEntry_eq {timeline : Timeline μ} (h : timeline.Ordered) (entry : Entry μ) :
    withEntry timeline.entries entry =
      (timeline.eraseId entry.id).front entry.timestamp ++
        entry :: (timeline.eraseId entry.id).back entry.timestamp := by
  simp only [withEntry, front, back, earlier, tied, later, h.entries_eraseId, List.append_assoc,
    List.cons_append, List.nil_append]

theorem addEntry_withEntry {timeline : Timeline μ} (h : timeline.Ordered) :
    (∀ entry, timeline.addEntry entry = (true, ⟨withEntry timeline.entries entry⟩)) ∧
      ∀ message, timeline.add message = (true, ⟨withEntry timeline.entries ⟨message, -1⟩⟩) := by
  have added (entry : Entry μ) :
      timeline.addEntry entry = (true, ⟨withEntry timeline.entries entry⟩) := by
    rw [h.addEntry_eq, h.withEntry_eq]
  exact ⟨added, fun message => added (.ofMessage message)⟩

theorem addEntry_withEntry_of_moved :
    let message (id : String) (timestamp : UInt64) : Message :=
      { key := { chat := "chat", id := ⟨id⟩, fromMe := true, sender := none }, timestamp }
    let moved : Entry Message := ⟨message "moved" 20, 8⟩
    let timeline : Timeline Message :=
      ⟨[⟨message "early" 10, 1⟩, ⟨message "moved" 10, 2⟩, ⟨message "a" 20, 3⟩,
        ⟨message "b" 20, 4⟩, ⟨message "c" 20, 5⟩, ⟨message "late" 30, 6⟩]⟩
    timeline.Ordered ∧
      timeline.addEntry moved =
        (true, ⟨[⟨message "early" 10, 1⟩, ⟨message "a" 20, 3⟩, ⟨message "b" 20, 4⟩, moved,
          ⟨message "c" 20, 5⟩, ⟨message "late" 30, 6⟩]⟩) ∧
      timeline.add (message "new" 10) =
        (true, ⟨[⟨message "early" 10, 1⟩, ⟨message "new" 10, -1⟩, ⟨message "moved" 10, 2⟩,
          ⟨message "a" 20, 3⟩, ⟨message "b" 20, 4⟩, ⟨message "c" 20, 5⟩,
          ⟨message "late" 30, 6⟩]⟩) := by
  intro message moved timeline
  have ordered : timeline.Ordered := ⟨by decide, by decide⟩
  obtain ⟨addedEntry, addedMessage⟩ := addEntry_withEntry ordered
  exact ⟨ordered, (addedEntry moved).trans (by decide), (addedMessage _).trans (by decide)⟩

end SealedChat.Timeline
