import SealedChat.Proofs.Searching

namespace SealedChat

namespace Timeline

section Lists

variable {α : Type}

theorem insertIdx_between (front back : List α) (x : α) :
    (front ++ back).insertIdx front.length x = front ++ x :: back := by
  induction front with
  | nil => rfl
  | cons y front ih =>
    rw [List.cons_append, List.length_cons, List.insertIdx_succ_cons, ih, List.cons_append]

theorem pairwise_append_cons {R : α → α → Prop} {front back : List α} {x : α}
    (others : (front ++ back).Pairwise R) (before : ∀ a ∈ front, R a x)
    (behind : ∀ b ∈ back, R x b) : (front ++ x :: back).Pairwise R := by
  obtain ⟨inFront, inBack, across⟩ := List.pairwise_append.1 others
  refine List.pairwise_append.2 ⟨inFront, List.pairwise_cons.2 ⟨behind, inBack⟩, ?_⟩
  intro a member b member'
  rcases List.mem_cons.1 member' with rfl | member'
  · exact before a member
  · exact across a member b member'

theorem filter_append_filter_not {p : α → Bool} {l : List α}
    (h : l.Pairwise fun a b => p b → p a) : l.filter p ++ l.filter (fun a => !p a) = l := by
  induction h with
  | nil => rfl
  | @cons a l isFirst _ ih =>
    by_cases hp : p a
    · simp only [List.filter_cons, hp, Bool.not_true, Bool.false_eq_true, if_true, if_false,
        List.cons_append, ih]
    · have none : l.filter p = [] := List.filter_eq_nil_iff.2 fun b member hb =>
        hp (isFirst b member hb)
      rw [none, List.nil_append] at ih
      simp only [List.filter_cons, hp, Bool.not_false, Bool.false_eq_true, if_true, if_false, none,
        List.nil_append, ih]

theorem dropLast_append_getLast? (l : List α) : l.dropLast ++ l.getLast?.toList = l := by
  by_cases h : l = []
  · rw [h]
    rfl
  · rw [List.getLast?_eq_some_getLast h]
    exact List.dropLast_concat_getLast h

theorem decide_key_trans (key : α → UInt64) (a b c : α) :
    decide (key a ≤ key b) → decide (key b ≤ key c) → decide (key a ≤ key c) := by
  simp only [decide_eq_true_iff]
  exact UInt64.le_trans

theorem decide_key_total (key : α → UInt64) (a b : α) :
    decide (key a ≤ key b) || decide (key b ≤ key a) := by
  simp only [Bool.or_eq_true, decide_eq_true_iff]
  exact UInt64.le_total _ _

theorem pairwise_mergeSort_key (key : α → UInt64) (l : List α) :
    (l.mergeSort fun a b => key a ≤ key b).Pairwise fun a b => key a ≤ key b :=
  (List.pairwise_mergeSort (decide_key_trans key) (decide_key_total key) l).imp of_decide_eq_true

end Lists

variable {μ ι : Type} [Stamped μ ι]

structure Ordered (timeline : Timeline μ) : Prop where
  ascending : timeline.entries.Pairwise fun a b => a.timestamp ≤ b.timestamp
  unique : timeline.entries.Pairwise fun a b => a.id ≠ b.id

theorem Ordered.of_sublist {timeline other : Timeline μ} (h : timeline.Ordered)
    (sublist : other.entries.Sublist timeline.entries) : other.Ordered :=
  ⟨h.ascending.sublist sublist, h.unique.sublist sublist⟩

theorem Ordered.nil : (⟨[]⟩ : Timeline μ).Ordered :=
  ⟨.nil, .nil⟩

def earlier (timeline : Timeline μ) (t : UInt64) : List (Entry μ) :=
  timeline.entries.filter fun entry => entry.timestamp < t

def tied (timeline : Timeline μ) (t : UInt64) : List (Entry μ) :=
  timeline.entries.filter fun entry => entry.timestamp = t

def later (timeline : Timeline μ) (t : UInt64) : List (Entry μ) :=
  timeline.entries.filter fun entry => t < entry.timestamp

variable {timeline : Timeline μ} {entry : Entry μ} {t : UInt64}

theorem mem_earlier :
    entry ∈ timeline.earlier t ↔ entry ∈ timeline.entries ∧ entry.timestamp < t := by
  rw [earlier, List.mem_filter, decide_eq_true_iff]

theorem mem_tied : entry ∈ timeline.tied t ↔ entry ∈ timeline.entries ∧ entry.timestamp = t := by
  rw [tied, List.mem_filter, decide_eq_true_iff]

theorem mem_later : entry ∈ timeline.later t ↔ entry ∈ timeline.entries ∧ t < entry.timestamp := by
  rw [later, List.mem_filter, decide_eq_true_iff]

theorem Ordered.entries_eq (h : timeline.Ordered) (t : UInt64) :
    timeline.entries = timeline.earlier t ++ timeline.tied t ++ timeline.later t := by
  let notEarlier := timeline.entries.filter fun entry => !decide (entry.timestamp < t)
  have first : timeline.earlier t ++ notEarlier = timeline.entries := by
    apply filter_append_filter_not
    refine h.ascending.imp fun ordered less => ?_
    rw [decide_eq_true_iff] at less ⊢
    exact UInt64.lt_of_le_of_lt ordered less
  have second : notEarlier.filter (fun entry => entry.timestamp ≤ t) ++
      notEarlier.filter (fun entry => !decide (entry.timestamp ≤ t)) = notEarlier := by
    apply filter_append_filter_not
    refine (h.ascending.filter _).imp fun ordered lessOrSame => ?_
    rw [decide_eq_true_iff] at lessOrSame ⊢
    exact UInt64.le_trans ordered lessOrSame
  have isTied : notEarlier.filter (fun entry => entry.timestamp ≤ t) = timeline.tied t := by
    rw [List.filter_filter, tied]
    apply List.filter_congr
    intro entry _
    rw [Bool.eq_iff_iff, Bool.and_eq_true, Bool.not_eq_true', decide_eq_false_iff_not,
      decide_eq_true_iff, decide_eq_true_iff, UInt64.not_lt]
    constructor
    · rintro ⟨below, above⟩
      exact UInt64.le_antisymm below above
    · rintro rfl
      exact ⟨UInt64.le_refl _, UInt64.le_refl _⟩
  have isLater : notEarlier.filter (fun entry => !decide (entry.timestamp ≤ t)) =
      timeline.later t := by
    rw [List.filter_filter, later]
    apply List.filter_congr
    intro entry _
    rw [Bool.eq_iff_iff, Bool.and_eq_true, Bool.not_eq_true', Bool.not_eq_true',
      decide_eq_false_iff_not, decide_eq_false_iff_not, decide_eq_true_iff, UInt64.not_le,
      UInt64.not_lt]
    exact and_iff_left_of_imp UInt64.le_of_lt
  rw [List.append_assoc, ← isTied, ← isLater, second, first]

theorem Ordered.insertionPoint_eq (h : timeline.Ordered) (t : UInt64) :
    timeline.insertionPoint t =
      (timeline.earlier t).length + ((timeline.tied t).length - 1) := by
  rw [insertionPoint]
  conv => lhs; rw [h.entries_eq t, List.map_append, List.map_append]
  rw [searchPosition_append, List.length_map, List.length_map]
  · intro k member
    obtain ⟨entry, isOne, rfl⟩ := List.mem_map.1 member
    exact (mem_earlier.1 isOne).2
  · intro k member
    obtain ⟨entry, isOne, rfl⟩ := List.mem_map.1 member
    exact (mem_tied.1 isOne).2
  · intro k member
    obtain ⟨entry, isOne, rfl⟩ := List.mem_map.1 member
    exact (mem_later.1 isOne).2

def front (timeline : Timeline μ) (t : UInt64) : List (Entry μ) :=
  timeline.earlier t ++ (timeline.tied t).dropLast

def back (timeline : Timeline μ) (t : UInt64) : List (Entry μ) :=
  (timeline.tied t).getLast?.toList ++ timeline.later t

theorem Ordered.front_append_back (h : timeline.Ordered) (t : UInt64) :
    timeline.front t ++ timeline.back t = timeline.entries := by
  have tied := dropLast_append_getLast? (timeline.tied t)
  rw [front, back, List.append_assoc, ← List.append_assoc _ _ (timeline.later t), tied,
    ← List.append_assoc, ← h.entries_eq]

theorem Ordered.length_front (h : timeline.Ordered) (t : UInt64) :
    (timeline.front t).length = timeline.insertionPoint t := by
  rw [h.insertionPoint_eq, front, List.length_append, List.length_dropLast]

theorem Ordered.insertIdx_insertionPoint (h : timeline.Ordered) (entry : Entry μ) :
    timeline.entries.insertIdx (timeline.insertionPoint entry.timestamp) entry =
      timeline.front entry.timestamp ++ entry :: timeline.back entry.timestamp := by
  rw [← h.length_front, ← insertIdx_between, h.front_append_back]

theorem timestamp_le_of_mem_front (member : entry ∈ timeline.front t) : entry.timestamp ≤ t := by
  rcases List.mem_append.1 member with early | equal
  · exact UInt64.le_of_lt (mem_earlier.1 early).2
  · exact UInt64.le_of_eq (mem_tied.1 ((List.dropLast_sublist _).mem equal)).2

theorem le_timestamp_of_mem_back (member : entry ∈ timeline.back t) : t ≤ entry.timestamp := by
  rcases List.mem_append.1 member with equal | late
  · have last := Option.mem_toList.1 equal
    exact UInt64.le_of_eq (mem_tied.1 (List.mem_of_mem_getLast? last)).2.symm
  · exact UInt64.le_of_lt (mem_later.1 late).2

theorem Ordered.removeAt (h : timeline.Ordered) (index : Nat) :
    (timeline.removeAt index).2.Ordered := by
  rw [Timeline.removeAt]
  split
  · exact h.of_sublist (List.eraseIdx_sublist _ _)
  · exact h

theorem Ordered.retain (h : timeline.Ordered) (keep : μ → Bool) : (timeline.retain keep).Ordered :=
  h.of_sublist List.filter_sublist

variable [DecidableEq ι]

theorem entries_eraseId_eq_eraseP (timeline : Timeline μ) (id : ι) :
    (timeline.eraseId id).entries = timeline.entries.eraseP fun entry => entry.id = id := by
  rw [eraseId, indexOfId?, List.eraseP_eq_eraseIdx]
  split <;> rename_i found <;> rw [found]
  rfl

theorem Ordered.entries_eraseId (h : timeline.Ordered) (id : ι) :
    (timeline.eraseId id).entries = timeline.entries.filter fun entry => entry.id ≠ id := by
  rw [entries_eraseId_eq_eraseP]
  obtain ⟨-, unique⟩ := h
  generalize timeline.entries = entries at unique
  induction unique with
  | nil => rfl
  | @cons entry entries isOnly _ ih =>
    by_cases same : entry.id = id
    · have others : entries.filter (fun other => other.id ≠ id) = entries := by
        apply List.filter_eq_self.2
        intro other member
        rw [decide_eq_true_iff, ← same]
        exact (isOnly other member).symm
      simp only [List.eraseP_cons, List.filter_cons, same, ne_eq, not_true, decide_true,
        decide_false, Bool.false_eq_true, cond_true, if_false, others]
    · simp only [List.eraseP_cons, List.filter_cons, same, ne_eq, not_false_iff, decide_true,
        decide_false, cond_false, if_true, ih]

theorem Ordered.mem_eraseId_iff (h : timeline.Ordered) {id : ι} :
    entry ∈ (timeline.eraseId id).entries ↔ entry ∈ timeline.entries ∧ entry.id ≠ id := by
  rw [h.entries_eraseId, List.mem_filter, decide_eq_true_iff]

theorem Ordered.eraseId (h : timeline.Ordered) (id : ι) : (timeline.eraseId id).Ordered := by
  apply h.of_sublist
  rw [entries_eraseId_eq_eraseP]
  exact List.eraseP_sublist

theorem Ordered.addEntry_eq (h : timeline.Ordered) (entry : Entry μ) :
    timeline.addEntry entry =
      (true, ⟨(timeline.eraseId entry.id).front entry.timestamp ++
        entry :: (timeline.eraseId entry.id).back entry.timestamp⟩) := by
  have rest := h.eraseId entry.id
  have grown : ((timeline.eraseId entry.id).front entry.timestamp ++
      entry :: (timeline.eraseId entry.id).back entry.timestamp).length ≠
        (timeline.eraseId entry.id).entries.length := by
    rw [← rest.front_append_back entry.timestamp, List.length_append, List.length_append,
      List.length_cons]
    omega
  rw [Timeline.addEntry, rest.insertIdx_insertionPoint, bne_iff_ne.2 grown]

theorem Ordered.addEntry (h : timeline.Ordered) (entry : Entry μ) :
    (timeline.addEntry entry).2.Ordered := by
  have rest := h.eraseId entry.id
  rw [h.addEntry_eq]
  constructor
  · apply pairwise_append_cons
    · rw [rest.front_append_back]
      exact rest.ascending
    · exact fun _ member => timestamp_le_of_mem_front member
    · exact fun _ member => le_timestamp_of_mem_back member
  · apply pairwise_append_cons
    · rw [rest.front_append_back]
      exact rest.unique
    · intro other member
      exact (h.mem_eraseId_iff.1 (rest.front_append_back _ ▸ List.mem_append_left _ member)).2
    · intro other member
      exact (h.mem_eraseId_iff.1
        (rest.front_append_back _ ▸ List.mem_append_right _ member)).2.symm

theorem Ordered.addAll (h : timeline.Ordered) (messages : List μ) :
    (timeline.addAll messages).Ordered := by
  rw [Timeline.addAll]
  induction messages generalizing timeline with
  | nil => exact h
  | cons message messages ih => exact ih (h.addEntry (.ofMessage message))

theorem Ordered.ofMessages (messages : List μ) : (ofMessages messages).Ordered :=
  Ordered.nil.addAll messages

theorem removeById_snd (timeline : Timeline μ) (id : ι) :
    (timeline.removeById id).2 = timeline.eraseId id := by
  rw [removeById, Timeline.eraseId]
  cases timeline.indexOfId? id <;> rfl

theorem keepLast_sublist (entries : List (Entry μ)) : (keepLast entries).Sublist entries := by
  induction entries with
  | nil => exact .slnil
  | cons entry entries ih =>
    rw [keepLast]
    split
    · exact ih.cons _
    · exact ih.cons_cons _

theorem keepLast_unique (entries : List (Entry μ)) :
    (keepLast entries).Pairwise fun a b => a.id ≠ b.id := by
  induction entries with
  | nil => exact .nil
  | cons entry entries ih =>
    rw [keepLast]
    split
    · exact ih
    · next last =>
      refine List.pairwise_cons.2 ⟨?_, ih⟩
      intro other member same
      apply last
      rw [List.any_eq_true]
      exact ⟨other, (keepLast_sublist entries).mem member, decide_eq_true same.symm⟩

theorem Ordered.ofEntries (entries : List (Entry μ)) : (ofEntries entries).Ordered := by
  constructor
  · exact pairwise_mergeSort_key Entry.timestamp (keepLast entries)
  · refine ((List.mergeSort_perm _ _).pairwise_iff ?_).2 (keepLast_unique entries)
    exact Ne.symm

theorem keepLast_of_unique {entries : List (Entry μ)}
    (unique : entries.Pairwise fun a b => a.id ≠ b.id) : keepLast entries = entries := by
  induction unique with
  | nil => rfl
  | @cons entry entries isOnly _ ih =>
    have last : ¬entries.any fun later => later.id = entry.id := by
      rw [List.any_eq_true]
      rintro ⟨later, member, same⟩
      exact isOnly later member (of_decide_eq_true same).symm
    rw [keepLast, if_neg last, ih]

theorem Ordered.ofEntries_entries (h : timeline.Ordered) :
    Timeline.ofEntries timeline.entries = timeline := by
  have sorted : timeline.entries.Pairwise fun a b => decide (a.timestamp ≤ b.timestamp) = true :=
    h.ascending.imp decide_eq_true
  rw [Timeline.ofEntries, keepLast_of_unique h.unique, List.mergeSort_of_pairwise sorted]

end Timeline

end SealedChat
