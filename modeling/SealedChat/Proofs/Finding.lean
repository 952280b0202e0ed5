import SealedChat.Proofs.Merging
import SealedChat.Proofs.Removing

/-!
Finding and removing messages by value, by id and by index come to the same.

In a timeline in order no other entry has the id of a given one, and so none has its message. Where
one entry stands among others (`front ++ entry :: back`), every search for it ends at
`front.length`, and every way to remove it leaves `front ++ back`.
-/

namespace SealedChat.Timeline

section Lists

variable {α : Type} {p : α → Bool} {front back : List α} {x : α}

theorem findIdx?_between (before : ∀ a ∈ front, p a = false) (here : p x = true) :
    (front ++ x :: back).findIdx? p = some front.length := by
  rw [List.findIdx?_append, List.findIdx?_eq_none_iff.2 before, List.findIdx?_cons, if_pos here,
    Option.none_or, Option.map_some, Nat.zero_add]

theorem eraseIdx_between (front back : List α) (x : α) :
    (front ++ x :: back).eraseIdx front.length = front ++ back := by
  rw [List.eraseIdx_append_of_length_le (Nat.le_refl _), Nat.sub_self, List.eraseIdx_cons_zero]

theorem getElem?_between (front back : List α) (x : α) :
    (front ++ x :: back)[front.length]? = some x := by
  rw [List.getElem?_append_right (Nat.le_refl _), Nat.sub_self, List.getElem?_cons_zero]

theorem filter_between (others : ∀ a ∈ front ++ back, p a = true) (here : p x = false) :
    (front ++ x :: back).filter p = front ++ back := by
  rw [List.filter_append, List.filter_cons_of_neg (Bool.not_eq_true _ ▸ here),
    ← List.filter_append, List.filter_eq_self.2 others]

end Lists

variable {μ ι : Type} [Stamped μ ι] {timeline : Timeline μ} {entry : Entry μ}
  {front back : List (Entry μ)}

theorem Ordered.id_ne (h : Ordered ⟨front ++ entry :: back⟩) :
    ∀ other ∈ front ++ back, other.id ≠ entry.id := by
  intro other member
  exact ((List.pairwise_cons.1 (List.pairwise_middle Ne.symm |>.1 h.unique)).1 other member).symm

theorem Ordered.message_ne (h : Ordered ⟨front ++ entry :: back⟩) :
    ∀ other ∈ front ++ back, other.message ≠ entry.message :=
  fun other member same => h.id_ne other member (congrArg Stamped.id same)

theorem removeAt_between (front back : List (Entry μ)) (entry : Entry μ) :
    (Timeline.mk (front ++ entry :: back)).removeAt front.length =
      (.ok entry.message, ⟨front ++ back⟩) := by
  simp only [removeAt, getElem?_between, eraseAt, eraseIdx_between]

section ById

variable [DecidableEq ι]

theorem Ordered.indexOfId?_between (h : Ordered ⟨front ++ entry :: back⟩) :
    (Timeline.mk (front ++ entry :: back)).indexOfId? entry.id = some front.length := by
  refine findIdx?_between (fun other member => ?_) (decide_eq_true rfl)
  exact decide_eq_false (h.id_ne other (List.mem_append_left back member))

theorem Ordered.removeById_between (h : Ordered ⟨front ++ entry :: back⟩) :
    (Timeline.mk (front ++ entry :: back)).removeById entry.id =
      (some entry.message, ⟨front ++ back⟩) := by
  rw [removeById, h.indexOfId?_between]
  simp only [getElem?_between, Option.map_some, eraseAt, eraseIdx_between]

def entryOf? (timeline : Timeline μ) (id : ι) : Option (Entry μ) :=
  (timeline.indexOfId? id).bind (timeline.entries[·]?)

theorem Ordered.entryOf?_eq_some_iff (h : timeline.Ordered) {id : ι} :
    timeline.entryOf? id = some entry ↔ entry ∈ timeline.entries ∧ entry.id = id := by
  constructor
  · intro found
    obtain ⟨index, isIndex, here⟩ := Option.bind_eq_some_iff.1 found
    obtain ⟨inside, same, -⟩ := List.findIdx?_eq_some_iff_getElem.1 isIndex
    rw [List.getElem?_eq_getElem inside, Option.some.injEq] at here
    exact ⟨here ▸ List.getElem_mem inside, here ▸ of_decide_eq_true same⟩
  · rintro ⟨member, rfl⟩
    obtain ⟨front, back, split⟩ := List.append_of_mem member
    obtain rfl : timeline = ⟨front ++ entry :: back⟩ := congrArg Timeline.mk split
    rw [entryOf?, h.indexOfId?_between, Option.bind_some, getElem?_between]

theorem Ordered.entryOf?_addEntry (h : timeline.Ordered) {added : Entry μ} {id : ι}
    (other : id ≠ added.id) : (timeline.addEntry added).2.entryOf? id = timeline.entryOf? id := by
  ext entry
  rw [(h.addEntry added).entryOf?_eq_some_iff, h.entryOf?_eq_some_iff, h.mem_addEntry]
  constructor
  · rintro ⟨rfl | ⟨member, -⟩, isOne⟩
    · exact absurd isOne.symm other
    · exact ⟨member, isOne⟩
  · rintro ⟨member, rfl⟩
    exact ⟨.inr ⟨member, other⟩, rfl⟩

theorem containsId_iff {id : ι} :
    timeline.containsId id ↔ ∃ entry ∈ timeline.entries, entry.id = id := by
  simp [containsId, indexOfId?]

end ById

section ByValue

variable [DecidableEq μ] {message : μ}

theorem exists_of_contains (h : timeline.contains message) :
    ∃ front entry back, timeline = ⟨front ++ entry :: back⟩ ∧ entry.message = message := by
  obtain ⟨entry, member, isMessage⟩ := List.mem_map.1 (contains_iff.1 h)
  obtain ⟨front, back, split⟩ := List.append_of_mem member
  exact ⟨front, entry, back, congrArg Timeline.mk split, isMessage⟩

theorem Ordered.indexOf?_between (h : Ordered ⟨front ++ entry :: back⟩) :
    (Timeline.mk (front ++ entry :: back)).indexOf? entry.message = some front.length := by
  refine findIdx?_between (fun other member => ?_) (decide_eq_true rfl)
  exact decide_eq_false (h.message_ne other (List.mem_append_left back member))

theorem Ordered.lastIndexOf?_between (h : Ordered ⟨front ++ entry :: back⟩) :
    (Timeline.mk (front ++ entry :: back)).lastIndexOf? entry.message = some front.length := by
  have turned : (front ++ entry :: back).reverse = back.reverse ++ entry :: front.reverse := by
    rw [List.reverse_append, List.reverse_cons, List.append_assoc, List.singleton_append]
  have fromEnd : (back.reverse ++ entry :: front.reverse).findIdx?
      (fun other => other.message = entry.message) = some back.reverse.length := by
    refine findIdx?_between (fun other member => ?_) (decide_eq_true rfl)
    exact decide_eq_false
      (h.message_ne other (List.mem_append_right front (List.mem_reverse.1 member)))
  have position : (front ++ entry :: back).length - 1 - back.reverse.length = front.length := by
    rw [List.length_append, List.length_cons, List.length_reverse]
    omega
  rw [lastIndexOf?, turned, fromEnd, Option.map_some, length, position]

theorem Ordered.remove_between (h : Ordered ⟨front ++ entry :: back⟩) :
    (Timeline.mk (front ++ entry :: back)).remove entry.message = (true, ⟨front ++ back⟩) := by
  have kept : (Timeline.mk (front ++ entry :: back)).retain (fun other => other ≠ entry.message) =
      ⟨front ++ back⟩ := by
    refine congrArg Timeline.mk (filter_between (fun other member => ?_) ?_)
    · exact decide_eq_true (h.message_ne other member)
    · exact decide_eq_false fun different => different rfl
  have shorter : (front ++ back).length ≠ (front ++ entry :: back).length := by
    rw [List.length_append, List.length_append, List.length_cons]
    omega
  rw [remove, kept]
  exact congrArg (·, _) (bne_iff_ne.2 shorter)

theorem message_ne_of_not_contains (h : timeline.contains message = false) :
    ∀ entry ∈ timeline.entries, entry.message ≠ message := by
  intro entry member same
  rw [← Bool.not_eq_true, contains_iff] at h
  exact h (List.mem_map.2 ⟨entry, member, same⟩)

theorem remove_of_not_contains (h : timeline.contains message = false) :
    timeline.remove message = (false, timeline) := by
  have kept : timeline.retain (fun other => other ≠ message) = timeline := by
    refine congrArg Timeline.mk (List.filter_eq_self.2 fun entry member => ?_)
    exact decide_eq_true (message_ne_of_not_contains h entry member)
  rw [remove, kept]
  exact congrArg (·, _) (bne_self_eq_false _)

theorem Ordered.indexOf?_eq_lastIndexOf? (h : timeline.Ordered) (message : μ) :
    timeline.indexOf? message = timeline.lastIndexOf? message := by
  cases found : timeline.contains message with
  | true =>
    obtain ⟨front, entry, back, rfl, rfl⟩ := exists_of_contains found
    rw [h.indexOf?_between, h.lastIndexOf?_between]
  | false =>
    have different := message_ne_of_not_contains found
    rw [indexOf?, lastIndexOf?, List.findIdx?_eq_none_iff.2, List.findIdx?_eq_none_iff.2]
    · rfl
    · exact fun entry member => decide_eq_false (different entry (List.mem_reverse.1 member))
    · exact fun entry member => decide_eq_false (different entry member)

end ByValue

variable [DecidableEq ι] [DecidableEq μ]

theorem Ordered.contains_iff_entryOf? (h : timeline.Ordered) {message : μ} :
    timeline.contains message ↔
      (timeline.entryOf? (Stamped.id message)).map Entry.message = some message := by
  rw [contains_iff, Timeline.messages, List.mem_map, Option.map_eq_some_iff]
  constructor
  · rintro ⟨entry, member, rfl⟩
    exact ⟨entry, h.entryOf?_eq_some_iff.2 ⟨member, rfl⟩, rfl⟩
  · rintro ⟨entry, found, isMessage⟩
    exact ⟨entry, (h.entryOf?_eq_some_iff.1 found).1, isMessage⟩

variable {forms : Forms μ}

/-- A message is in a timeline if it is the one that has its id there. Then it stands at one place
only, and removing it by value, by id or by its index leaves all others in their order. A message
that is not there removes none, also not the one with its id. Adding a message changes nothing for
other ids. -/
theorem lookups_agree (h : Reachable forms timeline) (message : μ) :
    let id := Stamped.id message
    let added := (timeline.add message).2
    timeline.indexOf? message = timeline.lastIndexOf? message ∧
      (timeline.contains message = true ↔ timeline.containsId id = true ∧
        (timeline.entryOf? id).map Entry.message = some message) ∧
      (timeline.contains message = true → ∃ front entry back,
        timeline.entries = front ++ entry :: back ∧ entry.message = message ∧
        timeline.indexOf? message = some front.length ∧
        timeline.remove message = (true, ⟨front ++ back⟩) ∧
        timeline.removeById id = (some message, ⟨front ++ back⟩) ∧
        timeline.removeAt front.length = (.ok message, ⟨front ++ back⟩)) ∧
      (timeline.contains message = false → timeline.remove message = (false, timeline)) ∧
      added.contains message = true ∧ added.containsId id = true ∧
      ∀ other, other ≠ id → added.entryOf? other = timeline.entryOf? other := by
  intro id added
  have ordered := h.ordered
  have present : Entry.ofMessage message ∈ added.entries := ordered.mem_addEntry.2 (.inl rfl)
  refine ⟨ordered.indexOf?_eq_lastIndexOf? message, ?_, ?_, remove_of_not_contains,
    contains_iff.2 (List.mem_map.2 ⟨_, present, rfl⟩), containsId_iff.2 ⟨_, present, rfl⟩,
    fun other different => ordered.entryOf?_addEntry different⟩
  · rw [ordered.contains_iff_entryOf?]
    refine (and_iff_right_of_imp fun found => ?_).symm
    obtain ⟨entry, isEntry, -⟩ := Option.map_eq_some_iff.1 found
    exact containsId_iff.2 ⟨entry, ordered.entryOf?_eq_some_iff.1 isEntry⟩
  · intro found
    obtain ⟨front, entry, back, rfl, rfl⟩ := exists_of_contains found
    exact ⟨front, entry, back, rfl, rfl, ordered.indexOf?_between, ordered.remove_between,
      ordered.removeById_between, removeAt_between front back entry⟩

theorem lookups_agree_of_edited :
    let message (id : String) (starred : Bool) : Message :=
      { key := { chat := "chat", id := ⟨id⟩, fromMe := true, sender := none }, timestamp := 5,
        starred }
    let a := message "a" false
    let b := message "b" false
    let c := message "c" false
    let edited := message "b" true
    let timeline : Timeline Message :=
      [⟨a, 1⟩, ⟨b, 2⟩, ⟨c, 3⟩].foldl (fun t entry => (t.addEntry entry).2) ∅
    Reachable Forms.message timeline ∧ timeline.entries = [⟨b, 2⟩, ⟨c, 3⟩, ⟨a, 1⟩] ∧
      timeline.containsId ⟨"b"⟩ = true ∧ timeline.contains edited = false ∧
      timeline.remove edited = (false, timeline) ∧
      timeline.lastIndexOf? c = some 1 ∧ timeline.remove c = (true, ⟨[⟨b, 2⟩, ⟨a, 1⟩]⟩) ∧
      (timeline.add edited).2.contains edited = true := by
  intro message a b c edited timeline
  have reachable : Reachable Forms.message timeline :=
    .change (.change (.change .empty (.addEntry ⟨a, 1⟩)) (.addEntry ⟨b, 2⟩)) (.addEntry ⟨c, 3⟩)
  obtain ⟨-, -, -, absent, added, -⟩ := lookups_agree reachable edited
  obtain ⟨same, -, -⟩ := lookups_agree reachable c
  have unknown : timeline.contains edited = false := by decide +kernel
  exact ⟨reachable, by decide +kernel, by decide +kernel, unknown, absent unknown,
    same.symm.trans (by decide +kernel), by decide +kernel, added⟩

end SealedChat.Timeline
