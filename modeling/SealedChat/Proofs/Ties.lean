import SealedChat.Proofs.Merging

/-!
The order of arrival counts only among equal timestamps.

A timeline in order is known from the entries of each timestamp (`Ordered.eq_of_tied`). An entry
that is added joins those of its own timestamp, and all others do not notice.
-/

namespace SealedChat.Timeline

section Lists

variable {α : Type} {key : α → UInt64} {l l' : List α} {a b : α}

theorem eq_nil_of_filter_key (same : ∀ t, l.filter (fun a => key a = t) = []) : l = [] := by
  apply List.eq_nil_iff_forall_not_mem.2
  intro a member
  have found : a ∈ l.filter fun b => key b = key a := List.mem_filter.2 ⟨member, by simp⟩
  rw [same] at found
  cases found

theorem eq_of_filter_key (sorted : l.Pairwise fun a b => key a ≤ key b)
    (sorted' : l'.Pairwise fun a b => key a ≤ key b)
    (same : ∀ t, l'.filter (fun a => key a = t) = l.filter fun a => key a = t) : l' = l := by
  induction l generalizing l' with
  | nil => exact eq_nil_of_filter_key same
  | cons a l ih =>
    obtain ⟨least, ascending⟩ := List.pairwise_cons.1 sorted
    cases l' with
    | nil => exact (eq_nil_of_filter_key fun t => (same t).symm).symm
    | cons b l' =>
      obtain ⟨least', ascending'⟩ := List.pairwise_cons.1 sorted'
      have member : a ∈ (b :: l').filter fun x => key x = key a := by simp [same]
      have member' : b ∈ (a :: l).filter fun x => key x = key b := by simp [← same]
      have above : key b ≤ key a := by
        rcases List.mem_cons.1 (List.mem_filter.1 member).1 with rfl | later
        · exact UInt64.le_refl _
        · exact least' a later
      have below : key a ≤ key b := by
        rcases List.mem_cons.1 (List.mem_filter.1 member').1 with rfl | later
        · exact UInt64.le_refl _
        · exact least b later
      have keys : key b = key a := UInt64.le_antisymm above below
      have first := same (key a)
      simp only [List.filter_cons, keys, decide_true, if_true, List.cons.injEq] at first
      obtain ⟨rfl, -⟩ := first
      rw [ih ascending ascending']
      intro t
      have others := same t
      by_cases isOne : key b = t
      · simpa [List.filter_cons, isOne] using others
      · simpa [List.filter_cons, isOne] using others

theorem not_sublist_swap (h : l.Nodup) (before : [a, b].Sublist l) : ¬[b, a].Sublist l := by
  induction h with
  | nil => cases before
  | @cons x l isOnly _ ih =>
    intro swapped
    cases before with
    | cons _ before =>
      cases swapped with
      | cons _ swapped => exact ih before swapped
      | cons_cons _ _ => exact isOnly _ (before.subset (by simp)) rfl
    | cons_cons _ behind =>
      cases swapped with
      | cons _ swapped => exact isOnly _ (swapped.subset (by simp)) rfl
      | cons_cons _ _ => exact isOnly _ (behind.subset (by simp)) rfl

end Lists

variable {μ ι : Type} [Stamped μ ι] {timeline other : Timeline μ} {entry : Entry μ} {t : UInt64}

theorem Ordered.eq_of_tied (h : timeline.Ordered) (h' : other.Ordered)
    (same : ∀ t, other.tied t = timeline.tied t) : other = timeline :=
  congrArg Timeline.mk (eq_of_filter_key h.ascending h'.ascending same)

def join (tied : List (Entry μ)) (entry : Entry μ) : List (Entry μ) :=
  tied.dropLast ++ entry :: tied.getLast?.toList

theorem filter_timestamp_of_forall {entries : List (Entry μ)}
    (h : ∀ entry ∈ entries, entry.timestamp = t) :
    entries.filter (fun entry => entry.timestamp = t) = entries :=
  List.filter_eq_self.2 fun entry member => decide_eq_true (h entry member)

theorem filter_timestamp_of_forall_ne {entries : List (Entry μ)}
    (h : ∀ entry ∈ entries, entry.timestamp ≠ t) :
    entries.filter (fun entry => entry.timestamp = t) = [] :=
  List.filter_eq_nil_iff.2 fun entry member same => h entry member (of_decide_eq_true same)

theorem filter_timestamp_of_stable {first second : List (Entry μ)} (distinct : first.Nodup)
    (perm : second.Perm first)
    (stable : ∀ a b, a.timestamp = b.timestamp → [a, b].Sublist first → [a, b].Sublist second)
    (t : UInt64) :
    second.filter (fun entry => entry.timestamp = t) =
      first.filter fun entry => entry.timestamp = t := by
  have distinct' : second.Nodup := perm.nodup_iff.2 distinct
  have order : (second.filter fun entry => entry.timestamp = t).Pairwise
      fun a b => [a, b].Sublist second := by
    rw [List.pairwise_iff_forall_sublist]
    intro a b before
    exact before.trans List.filter_sublist
  have order' : (first.filter fun entry => entry.timestamp = t).Pairwise
      fun a b => [a, b].Sublist second := by
    rw [List.pairwise_iff_forall_sublist]
    intro a b before
    have isTied {entry : Entry μ} (member : entry ∈ [a, b]) : entry.timestamp = t :=
      of_decide_eq_true (List.mem_filter.1 (before.subset member)).2
    have same : a.timestamp = b.timestamp := (isTied (by simp)).trans (isTied (by simp)).symm
    exact stable a b same (before.trans List.filter_sublist)
  refine (perm.filter _).eq_of_pairwise ?_ order order'
  intro a b _ _ before swapped
  exact absurd swapped (not_sublist_swap distinct' before)

variable [DecidableEq ι]

theorem containsId_eq_false_iff {id : ι} :
    timeline.containsId id = false ↔ ∀ entry ∈ timeline.entries, entry.id ≠ id := by
  simp [containsId, indexOfId?]

theorem Ordered.eraseId_of_fresh (h : timeline.Ordered) {id : ι}
    (fresh : timeline.containsId id = false) : timeline.eraseId id = timeline := by
  have entries : (timeline.eraseId id).entries = timeline.entries := by
    rw [h.entries_eraseId]
    apply List.filter_eq_self.2
    intro entry member
    exact decide_eq_true (containsId_eq_false_iff.1 fresh entry member)
  exact congrArg Timeline.mk entries

theorem Ordered.tied_addEntry_self (h : timeline.Ordered) (entry : Entry μ) :
    (timeline.addEntry entry).2.tied entry.timestamp =
      join ((timeline.eraseId entry.id).tied entry.timestamp) entry := by
  rw [h.addEntry_eq]
  generalize timeline.eraseId entry.id = rest
  have early :
      (rest.earlier entry.timestamp).filter (fun e => e.timestamp = entry.timestamp) = [] :=
    filter_timestamp_of_forall_ne fun e member => UInt64.ne_of_lt (mem_earlier.1 member).2
  have late : (rest.later entry.timestamp).filter (fun e => e.timestamp = entry.timestamp) = [] :=
    filter_timestamp_of_forall_ne fun e member => (UInt64.ne_of_lt (mem_later.1 member).2).symm
  have first : (rest.tied entry.timestamp).dropLast.filter
      (fun e => e.timestamp = entry.timestamp) = (rest.tied entry.timestamp).dropLast :=
    filter_timestamp_of_forall fun e member =>
      (mem_tied.1 ((List.dropLast_sublist _).mem member)).2
  have last : (rest.tied entry.timestamp).getLast?.toList.filter
      (fun e => e.timestamp = entry.timestamp) = (rest.tied entry.timestamp).getLast?.toList :=
    filter_timestamp_of_forall fun e member =>
      (mem_tied.1 (List.mem_of_mem_getLast? (Option.mem_toList.1 member))).2
  change (rest.front entry.timestamp ++ entry :: rest.back entry.timestamp).filter
    (fun e => e.timestamp = entry.timestamp) = _
  simp [front, back, join, early, late, first, last]

theorem Ordered.tied_addEntry_of_ne (h : timeline.Ordered) {entry : Entry μ}
    (different : entry.timestamp ≠ t) :
    (timeline.addEntry entry).2.tied t = (timeline.eraseId entry.id).tied t := by
  have parts := (h.eraseId entry.id).front_append_back entry.timestamp
  rw [h.addEntry_eq, tied, tied, ← parts, List.filter_append, List.filter_append,
    List.filter_cons_of_neg (by simpa using different)]

theorem Ordered.tied_addEntries (h : timeline.Ordered) {entries : List (Entry μ)}
    (distinct : entries.Pairwise fun a b => a.id ≠ b.id)
    (fresh : ∀ entry ∈ entries, timeline.containsId entry.id = false) (t : UInt64) :
    (timeline.addEntries entries).tied t =
      (entries.filter fun entry => entry.timestamp = t).foldl join (timeline.tied t) := by
  induction entries generalizing timeline with
  | nil => rfl
  | cons entry entries ih =>
    obtain ⟨isOnly, distinct⟩ := List.pairwise_cons.1 distinct
    obtain ⟨isFresh, others⟩ := List.forall_mem_cons.1 fresh
    have stillFresh : ∀ later ∈ entries,
        (timeline.addEntry entry).2.containsId later.id = false := by
      intro later member
      rw [containsId_eq_false_iff]
      intro known isKnown
      rcases h.mem_addEntry.1 isKnown with rfl | ⟨old, -⟩
      · exact isOnly later member
      · exact containsId_eq_false_iff.1 (others later member) known old
    have step : (timeline.addEntries (entry :: entries)).tied t =
        ((timeline.addEntry entry).2.addEntries entries).tied t := rfl
    rw [step, ih (h.addEntry entry) distinct stillFresh]
    by_cases same : entry.timestamp = t
    · subst same
      rw [h.tied_addEntry_self, h.eraseId_of_fresh isFresh, List.filter_cons_of_pos (by simp)]
      rfl
    · rw [h.tied_addEntry_of_ne same, h.eraseId_of_fresh isFresh,
        List.filter_cons_of_neg (by simpa using same)]

variable {forms : Forms μ} [DecidableEq μ]

/-- New entries make the same timeline in every order of arrival that leaves those of the same
timestamp in theirs. -/
theorem addEntries_of_stable (h : Reachable forms timeline) {first second : List (Entry μ)}
    (distinct : first.Pairwise fun a b => a.id ≠ b.id)
    (fresh : ∀ entry ∈ first, timeline.containsId entry.id = false)
    (perm : second.Perm first)
    (stable : ∀ a b, a.timestamp = b.timestamp → [a, b].Sublist first → [a, b].Sublist second) :
    timeline.addEntries second = timeline.addEntries first := by
  have distinct' : second.Pairwise fun a b => a.id ≠ b.id :=
    (perm.pairwise_iff fun different => different.symm).2 distinct
  have fresh' : ∀ entry ∈ second, timeline.containsId entry.id = false :=
    fun entry member => fresh entry (perm.mem_iff.1 member)
  have nodup : first.Nodup := distinct.imp fun different same => different (congrArg _ same)
  apply (h.ordered.addEntries first).eq_of_tied (h.ordered.addEntries second)
  intro t
  rw [h.ordered.tied_addEntries distinct' fresh', h.ordered.tied_addEntries distinct fresh,
    filter_timestamp_of_stable nodup perm stable]

theorem addEntries_of_stable_around_earlier :
    let entry (id : String) (timestamp : UInt64) (order : Int64) : Entry Message :=
      ⟨{ key := { chat := "chat", id := ⟨id⟩, fromMe := true, sender := none }, timestamp }, order⟩
    let known := entry "known" 5 0
    let a := entry "a" 5 1
    let b := entry "b" 5 2
    let c := entry "c" 3 3
    let d := entry "d" 5 4
    let timeline : Timeline Message := (addEntry ∅ known).2
    Reachable Forms.message timeline ∧ [a, b, c, d].Pairwise (fun a b => a.id ≠ b.id) ∧
      (∀ entry ∈ [a, b, c, d], timeline.containsId entry.id = false) ∧
      [c, a, b, d].Perm [a, b, c, d] ∧
      (∀ x y, x.timestamp = y.timestamp → [x, y].Sublist [a, b, c, d] →
        [x, y].Sublist [c, a, b, d]) ∧
      (timeline.addEntries [a, b, c, d]).entries = [c, a, b, d, known] ∧
      timeline.addEntries [c, a, b, d] = timeline.addEntries [a, b, c, d] := by
  intro entry known a b c d timeline
  have reachable : Reachable Forms.message timeline := .change .empty (.addEntry known)
  have distinct : [a, b, c, d].Pairwise fun a b => a.id ≠ b.id := by decide
  have fresh : ∀ entry ∈ [a, b, c, d], timeline.containsId entry.id = false := by decide +kernel
  have perm : [c, a, b, d].Perm [a, b, c, d] := by decide
  have stable (x y : Entry Message) (same : x.timestamp = y.timestamp)
      (before : [x, y].Sublist [a, b, c, d]) : [x, y].Sublist [c, a, b, d] := by
    have all : ∀ x ∈ [a, b, c, d], ∀ y ∈ [a, b, c, d], x.timestamp = y.timestamp →
        [x, y].Sublist [a, b, c, d] → [x, y].Sublist [c, a, b, d] := by decide +kernel
    exact all x (before.subset (by simp)) y (before.subset (by simp)) same before
  exact ⟨reachable, distinct, fresh, perm, stable, by decide +kernel,
    addEntries_of_stable reachable distinct fresh perm stable⟩

end SealedChat.Timeline
