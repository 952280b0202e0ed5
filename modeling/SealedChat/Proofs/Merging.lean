import SealedChat.Proofs.Changes

namespace SealedChat.Timeline

variable {μ ι : Type} [Stamped μ ι] {timeline other : Timeline μ}

theorem Ordered.map_timestamp_eq (h : timeline.Ordered) (h' : other.Ordered)
    (perm : other.entries.Perm timeline.entries) :
    other.entries.map Entry.timestamp = timeline.entries.map Entry.timestamp := by
  have ascending {t : Timeline μ} (h : t.Ordered) :
      (t.entries.map Entry.timestamp).Pairwise (· ≤ ·) := List.pairwise_map.2 h.ascending
  exact (perm.map _).eq_of_pairwise (fun _ _ _ _ => UInt64.le_antisymm) (ascending h') (ascending h)

theorem Ordered.pairwise_lt (h : timeline.Ordered)
    (distinct : (timeline.entries.map Entry.timestamp).Nodup) :
    timeline.entries.Pairwise fun a b => a.timestamp < b.timestamp :=
  (h.ascending.and (List.pairwise_map.1 distinct)).imp fun ⟨ascending, different⟩ =>
    UInt64.lt_of_le_of_ne ascending different

theorem Ordered.eq_of_distinct (h : timeline.Ordered) (h' : other.Ordered)
    (perm : other.entries.Perm timeline.entries)
    (distinct : (timeline.entries.map Entry.timestamp).Nodup) : other = timeline := by
  have strict := h.pairwise_lt distinct
  have strict' := h'.pairwise_lt (h.map_timestamp_eq h' perm ▸ distinct)
  have entries : other.entries = timeline.entries := by
    refine perm.eq_of_pairwise ?_ strict' strict
    exact fun _ _ _ _ below above => absurd above (UInt64.lt_asymm below)
  exact congrArg Timeline.mk entries

variable [DecidableEq ι]

def lastOf? (entries : List (Entry μ)) (id : ι) : Option (Entry μ) :=
  entries.reverse.find? fun entry => entry.id = id

def addEntries (timeline : Timeline μ) (entries : List (Entry μ)) : Timeline μ :=
  entries.foldl (fun timeline entry => (timeline.addEntry entry).2) timeline

theorem addAll_eq_addEntries (timeline : Timeline μ) (messages : List μ) :
    timeline.addAll messages = timeline.addEntries (messages.map .ofMessage) := by
  rw [addEntries, List.foldl_map]
  rfl

section LastOf

variable {entries : List (Entry μ)} {entry : Entry μ} {id : ι}

theorem lastOf?_append (first second : List (Entry μ)) (id : ι) :
    lastOf? (first ++ second) id = (lastOf? second id).or (lastOf? first id) := by
  rw [lastOf?, List.reverse_append, List.find?_append]
  rfl

theorem lastOf?_singleton (entry : Entry μ) (id : ι) :
    lastOf? [entry] id = if entry.id = id then some entry else none := by
  by_cases same : entry.id = id <;> simp [lastOf?, same]

theorem lastOf?_cons (entry : Entry μ) (entries : List (Entry μ)) (id : ι) :
    lastOf? (entry :: entries) id =
      (lastOf? entries id).or (if entry.id = id then some entry else none) := by
  rw [← lastOf?_singleton, ← lastOf?_append, List.singleton_append]

theorem lastOf?_eq_none_iff : lastOf? entries id = none ↔ ∀ entry ∈ entries, entry.id ≠ id := by
  simp [lastOf?]

theorem id_of_lastOf? (h : lastOf? entries id = some entry) : entry.id = id := by
  simpa using List.find?_some h

theorem mem_of_lastOf? (h : lastOf? entries id = some entry) : entry ∈ entries :=
  List.mem_reverse.1 (List.mem_of_find?_eq_some h)

theorem lastOf?_eq_some_iff_of_unique (unique : entries.Pairwise fun a b => a.id ≠ b.id) :
    lastOf? entries id = some entry ↔ entry ∈ entries ∧ entry.id = id := by
  constructor
  · intro h
    exact ⟨mem_of_lastOf? h, id_of_lastOf? h⟩
  · rintro ⟨member, rfl⟩
    induction unique with
    | nil => cases member
    | @cons other entries isOnly _ ih =>
      rw [lastOf?_cons]
      rcases List.mem_cons.1 member with rfl | member
      · rw [lastOf?_eq_none_iff.2 fun later isLater => (isOnly later isLater).symm, if_pos rfl]
        rfl
      · rw [ih member]
        rfl

end LastOf

theorem Ordered.lastOf?_eq_some_iff (h : timeline.Ordered) {id : ι} {entry : Entry μ} :
    lastOf? timeline.entries id = some entry ↔ entry ∈ timeline.entries ∧ entry.id = id :=
  lastOf?_eq_some_iff_of_unique h.unique

theorem Ordered.mem_iff_lastOf? (h : timeline.Ordered) {entry : Entry μ} :
    entry ∈ timeline.entries ↔ lastOf? timeline.entries entry.id = some entry := by
  rw [h.lastOf?_eq_some_iff, and_iff_left rfl]

theorem Ordered.mem_addEntry (h : timeline.Ordered) {added entry : Entry μ} :
    entry ∈ (timeline.addEntry added).2.entries ↔
      entry = added ∨ entry ∈ timeline.entries ∧ entry.id ≠ added.id := by
  have rest := (h.eraseId added.id).front_append_back added.timestamp
  rw [← h.mem_eraseId_iff, ← rest, h.addEntry_eq]
  rw [List.mem_append, List.mem_append, List.mem_cons, or_left_comm]

theorem Ordered.lastOf?_addEntry (h : timeline.Ordered) (added : Entry μ) (id : ι) :
    lastOf? (timeline.addEntry added).2.entries id = lastOf? (timeline.entries ++ [added]) id := by
  ext entry
  rw [lastOf?_append, lastOf?_singleton, (h.addEntry added).lastOf?_eq_some_iff, h.mem_addEntry]
  by_cases same : added.id = id
  · rw [if_pos same, Option.some_or, Option.some.injEq]
    constructor
    · rintro ⟨rfl | ⟨-, different⟩, isOne⟩
      · rfl
      · exact absurd (isOne.trans same.symm) different
    · rintro rfl
      exact ⟨.inl rfl, same⟩
  · rw [if_neg same, Option.none_or, h.lastOf?_eq_some_iff]
    constructor
    · rintro ⟨rfl | ⟨member, -⟩, isOne⟩
      · exact absurd isOne same
      · exact ⟨member, isOne⟩
    · rintro ⟨member, rfl⟩
      exact ⟨.inr ⟨member, Ne.symm same⟩, rfl⟩

theorem Ordered.addEntries (h : timeline.Ordered) (entries : List (Entry μ)) :
    (timeline.addEntries entries).Ordered := by
  induction entries generalizing timeline with
  | nil => exact h
  | cons entry entries ih => exact ih (h.addEntry entry)

theorem Ordered.lastOf?_addEntries (h : timeline.Ordered) (entries : List (Entry μ)) (id : ι) :
    lastOf? (timeline.addEntries entries).entries id =
      lastOf? (timeline.entries ++ entries) id := by
  induction entries generalizing timeline with
  | nil => rw [List.append_nil, Timeline.addEntries, List.foldl_nil]
  | cons entry entries ih =>
    have step := ih (h.addEntry entry)
    rw [lastOf?_append, h.lastOf?_addEntry, ← lastOf?_append, List.append_assoc] at step
    exact step

theorem mem_keepLast {entries : List (Entry μ)} {entry : Entry μ} :
    entry ∈ keepLast entries ↔ lastOf? entries entry.id = some entry := by
  induction entries with
  | nil => simp [keepLast, lastOf?]
  | cons first entries ih =>
    rw [keepLast, lastOf?_cons]
    split
    · next again =>
      obtain ⟨later, member, same⟩ := List.any_eq_true.1 again
      have same : later.id = first.id := of_decide_eq_true same
      rw [ih]
      by_cases isFirst : first.id = entry.id
      · cases last : lastOf? entries entry.id with
        | none => exact absurd (same.trans isFirst) (lastOf?_eq_none_iff.1 last later member)
        | some found => rw [Option.some_or]
      · rw [if_neg isFirst, Option.or_none]
    · next last =>
      have last : lastOf? entries first.id = none := by
        rw [lastOf?_eq_none_iff]
        intro later member same
        exact last (List.any_eq_true.2 ⟨later, member, decide_eq_true same⟩)
      rw [List.mem_cons, ih]
      by_cases isFirst : first.id = entry.id
      · rw [← isFirst, last, if_pos rfl, Option.none_or, Option.some.injEq, eq_comm]
        exact or_iff_left (Option.some_ne_none entry).symm
      · rw [if_neg isFirst, Option.or_none]
        apply or_iff_right
        rintro rfl
        exact isFirst rfl

theorem lastOf?_ofEntries (entries : List (Entry μ)) (id : ι) :
    lastOf? (ofEntries entries).entries id = lastOf? entries id := by
  ext entry
  rw [(Ordered.ofEntries entries).lastOf?_eq_some_iff, ofEntries, List.mem_mergeSort, mem_keepLast]
  constructor
  · rintro ⟨last, rfl⟩
    exact last
  · intro last
    have isOne := id_of_lastOf? last
    exact ⟨isOne ▸ last, isOne⟩

theorem Ordered.perm (h : timeline.Ordered) (h' : other.Ordered)
    (same : ∀ id, lastOf? other.entries id = lastOf? timeline.entries id) :
    other.entries.Perm timeline.entries := by
  have distinct {t : Timeline μ} (h : t.Ordered) : t.entries.Nodup :=
    h.unique.imp fun different => fun equal => different (congrArg Entry.id equal)
  rw [List.perm_ext_iff_of_nodup (distinct h') (distinct h)]
  intro entry
  rw [h.mem_iff_lastOf?, h'.mem_iff_lastOf?, same]

variable {forms : Forms μ} [DecidableEq μ]

/-- Adding entries in one order, adding them in another one with the same last entry for every id,
and restoring them together with the old ones: all give the last entry for every id, at the same
timestamps, and the same timeline unless timestamps are equal. -/
theorem merge_converges (h : Reachable forms timeline) {first second : List (Entry μ)}
    (agree : ∀ id, lastOf? first id = lastOf? second id) :
    let merged := timeline.addEntries first
    ∀ route ∈ [merged, timeline.addEntries second, ofEntries (timeline.entries ++ first)],
      (∀ entry, entry ∈ route.entries ↔
        lastOf? (timeline.entries ++ first) entry.id = some entry) ∧
      route.entries.map Entry.timestamp = merged.entries.map Entry.timestamp ∧
      ((merged.entries.map Entry.timestamp).Nodup → route = merged) := by
  intro merged route isRoute
  have ordered : merged.Ordered := h.ordered.addEntries first
  have holds (id : ι) : lastOf? merged.entries id = lastOf? (timeline.entries ++ first) id :=
    h.ordered.lastOf?_addEntries first id
  obtain ⟨routeOrdered, routeHolds⟩ : route.Ordered ∧
      ∀ id, lastOf? route.entries id = lastOf? (timeline.entries ++ first) id := by
    simp only [List.mem_cons, List.not_mem_nil, or_false] at isRoute
    rcases isRoute with rfl | rfl | rfl
    · exact ⟨ordered, holds⟩
    · refine ⟨h.ordered.addEntries second, fun id => ?_⟩
      rw [h.ordered.lastOf?_addEntries, lastOf?_append, lastOf?_append, agree]
    · exact ⟨.ofEntries _, lastOf?_ofEntries _⟩
  have perm := ordered.perm routeOrdered fun id => (routeHolds id).trans (holds id).symm
  refine ⟨fun entry => ?_, ordered.map_timestamp_eq routeOrdered perm,
    ordered.eq_of_distinct routeOrdered perm⟩
  rw [routeOrdered.mem_iff_lastOf?, routeHolds]

theorem merge_converges_of_moved :
    let message (id : String) (timestamp : UInt64) : Message :=
      { key := { chat := "chat", id := ⟨id⟩, fromMe := true, sender := none }, timestamp }
    let known : Entry Message := ⟨message "a" 10, 4⟩
    let timeline : Timeline Message := (addEntry ∅ known).2
    let first : List (Entry Message) :=
      [⟨message "c" 20, 1⟩, ⟨message "b" 30, 2⟩, ⟨message "c" 5, 3⟩]
    let second : List (Entry Message) :=
      [⟨message "c" 5, 3⟩, ⟨message "b" 30, 2⟩, ⟨message "c" 5, 3⟩]
    Reachable Forms.message timeline ∧ (∀ id, lastOf? first id = lastOf? second id) ∧
      (timeline.addEntries first).entries.map Entry.timestamp = [5, 10, 30] ∧
      timeline.addEntries second = timeline.addEntries first ∧
      ofEntries (timeline.entries ++ first) = timeline.addEntries first := by
  intro message known timeline first second
  have reachable : Reachable Forms.message timeline := .change .empty (.addEntry known)
  have agree (id : MessageId) : lastOf? first id = lastOf? second id := by
    by_cases isC : ⟨"c"⟩ = id
    · subst isC
      decide
    · have other (timestamp order) : ¬(Entry.mk (message "c" timestamp) order).id = id := isC
      simp only [first, second, lastOf?_cons, if_neg (other _ _), Option.or_none]
  have timestamps : (timeline.addEntries first).entries.map Entry.timestamp = [5, 10, 30] := by
    decide +kernel
  have distinct : ((timeline.addEntries first).entries.map Entry.timestamp).Nodup := by
    rw [timestamps]
    decide
  have converges := merge_converges reachable agree
  refine ⟨reachable, agree, timestamps, ?_, ?_⟩
  · exact (converges _ (by simp)).2.2 distinct
  · exact (converges _ (by simp)).2.2 distinct

end SealedChat.Timeline
