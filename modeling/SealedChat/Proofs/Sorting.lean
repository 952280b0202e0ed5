import Mathlib.Data.List.FinRange
import SealedChat.Proofs.Ordered

namespace SealedChat.Timeline

section Lists

variable {α : Type} (key : α → UInt64) {l : List α}

theorem filter_mergeSort_key (l : List α) (t : UInt64) :
    (l.mergeSort fun a b => key a ≤ key b).filter (fun a => key a = t) =
      l.filter fun a => key a = t := by
  have level : (l.filter fun a => key a = t).Pairwise fun a b => decide (key a ≤ key b) := by
    apply List.pairwise_of_forall_mem_list
    intro a member b member'
    have isOne := of_decide_eq_true (List.mem_filter.1 member).2
    have isOne' := of_decide_eq_true (List.mem_filter.1 member').2
    exact decide_eq_true (UInt64.le_of_eq (isOne.trans isOne'.symm))
  have kept := (List.sublist_mergeSort (decide_key_trans key) (decide_key_total key) level
    List.filter_sublist).filter fun a => key a = t
  rw [List.filter_filter] at kept
  simp only [Bool.and_self] at kept
  exact (kept.eq_of_length ((List.mergeSort_perm _ _).filter _).length_eq.symm).symm

theorem pairwise_mergeSort_of_pairwise {r : α → α → Prop} (h : l.Pairwise r) :
    (l.mergeSort fun a b => key a ≤ key b).Pairwise fun a b =>
      key a < key b ∨ key a = key b ∧ r a b := by
  rw [List.pairwise_iff_forall_sublist]
  intro a b before
  by_cases same : key a = key b
  -- both stand in the part with their key, which the sort has not touched
  · right
    have tied : [a, b].Sublist (l.filter fun x => key x = key b) := by
      rw [← filter_mergeSort_key]
      simpa [same] using before.filter fun x => key x = key b
    exact ⟨same, List.pairwise_iff_forall_sublist.1 h (tied.trans List.filter_sublist)⟩
  · left
    have ascending := List.pairwise_iff_forall_sublist.1 (pairwise_mergeSort_key key l) before
    exact UInt64.lt_of_le_of_ne ascending same

end Lists

variable {μ ι : Type} [Stamped μ ι]

def IsLast (entries : List (Entry μ)) (i : Fin entries.length) : Prop :=
  ∀ j, i < j → (entries.get j).id ≠ (entries.get i).id

def GoesBefore (entries : List (Entry μ)) (i j : Fin entries.length) : Prop :=
  (entries.get i).timestamp < (entries.get j).timestamp ∨
    (entries.get i).timestamp = (entries.get j).timestamp ∧ i < j

instance [DecidableEq ι] (entries : List (Entry μ)) (i : Fin entries.length) :
    Decidable (IsLast entries i) :=
  inferInstanceAs (Decidable (∀ j, i < j → (entries.get j).id ≠ (entries.get i).id))

variable {entry : Entry μ} {entries : List (Entry μ)}

theorem isLast_zero :
    IsLast (entry :: entries) 0 ↔ ∀ later ∈ entries, later.id ≠ entry.id := by
  simp [IsLast, Fin.forall_fin_succ, List.forall_mem_iff_getElem, Fin.forall_iff]

theorem isLast_succ {i : Fin entries.length} :
    IsLast (entry :: entries) i.succ ↔ IsLast entries i := by
  simp [IsLast, Fin.forall_fin_succ]

theorem GoesBefore.asymm {i j : Fin entries.length} (h : GoesBefore entries i j) :
    ¬GoesBefore entries j i := by
  rintro (above | ⟨same, behind⟩)
  · rcases h with below | ⟨same, -⟩
    · exact UInt64.lt_asymm below above
    · exact UInt64.ne_of_lt above same.symm
  · rcases h with below | ⟨-, inFront⟩
    · exact UInt64.ne_of_lt below same.symm
    · exact Fin.lt_asymm inFront behind

theorem eq_of_goesBefore {positions others : List (Fin entries.length)}
    (order : positions.Pairwise (GoesBefore entries))
    (order' : others.Pairwise (GoesBefore entries)) (same : ∀ i, i ∈ positions ↔ i ∈ others) :
    positions = others := by
  have nodup {l : List (Fin entries.length)} (order : l.Pairwise (GoesBefore entries)) : l.Nodup :=
    order.imp fun before equal => (equal ▸ before).asymm (equal ▸ before)
  have perm : positions.Perm others :=
    (List.perm_ext_iff_of_nodup (nodup order) (nodup order')).2 same
  exact perm.eq_of_pairwise (fun _ _ _ _ before behind => absurd behind before.asymm) order order'

variable [DecidableEq ι]

def lastPositions (entries : List (Entry μ)) : List (Fin entries.length) :=
  (List.finRange entries.length).filter fun i => IsLast entries i

theorem keepLast_eq_map (entries : List (Entry μ)) :
    keepLast entries = (lastPositions entries).map entries.get := by
  induction entries with
  | nil => rfl
  | cons entry entries ih =>
    -- the positions behind the first are those of the other entries, one further
    have others : lastPositions (entry :: entries) =
        (if IsLast (entry :: entries) 0 then [0] else []) ++
          (lastPositions entries).map Fin.succ := by
      simp only [lastPositions, List.length_cons, List.finRange_succ, List.filter_cons,
        List.filter_map, Function.comp_def, isLast_succ, decide_eq_true_iff]
      split <;> rfl
    have again : (entries.any fun later => later.id = entry.id) ↔
        ¬IsLast (entry :: entries) 0 := by
      simp [isLast_zero]
    rw [keepLast, ih, others]
    by_cases last : IsLast (entry :: entries) 0
    · rw [if_neg (not_not_intro last ∘ again.1), if_pos last]
      simp [Function.comp_def]
    · rw [if_pos (again.2 last), if_neg last]
      simp [Function.comp_def]

def restoredPositions (entries : List (Entry μ)) : List (Fin entries.length) :=
  (lastPositions entries).mergeSort fun i j =>
    (entries.get i).timestamp ≤ (entries.get j).timestamp

theorem mem_restoredPositions {i : Fin entries.length} :
    i ∈ restoredPositions entries ↔ IsLast entries i := by
  simp [restoredPositions, lastPositions]

theorem restoredPositions_goesBefore (entries : List (Entry μ)) :
    (restoredPositions entries).Pairwise (GoesBefore entries) :=
  pairwise_mergeSort_of_pairwise _ ((List.pairwise_lt_finRange _).filter _)

theorem entries_ofEntries (entries : List (Entry μ)) :
    (ofEntries entries).entries = (restoredPositions entries).map entries.get := by
  rw [ofEntries, keepLast_eq_map, restoredPositions, List.map_mergeSort]
  intros
  rfl

/-- What is restored are the entries whose ids do not come again, hints and all, by timestamp and
where timestamps are equal by position. Nothing changes exactly if the entries are in order. -/
theorem ofEntries_determined (entries : List (Entry μ)) :
    (∀ restored, (ofEntries entries).entries = restored ↔
      ∃ positions : List (Fin entries.length),
        (∀ i, i ∈ positions ↔ IsLast entries i) ∧ positions.Pairwise (GoesBefore entries) ∧
          restored = positions.map entries.get) ∧
    ((ofEntries entries).entries = entries ↔
      entries.Pairwise (fun a b => a.timestamp ≤ b.timestamp) ∧
        entries.Pairwise fun a b => a.id ≠ b.id) := by
  constructor
  · intro restored
    constructor
    · rintro rfl
      exact ⟨restoredPositions entries, fun _ => mem_restoredPositions,
        restoredPositions_goesBefore entries, entries_ofEntries entries⟩
    · rintro ⟨positions, isLast, order, rfl⟩
      have same : restoredPositions entries = positions :=
        eq_of_goesBefore (restoredPositions_goesBefore entries) order fun i =>
          mem_restoredPositions.trans (isLast i).symm
      rw [entries_ofEntries, same]
  · constructor
    · intro same
      obtain ⟨ascending, unique⟩ := Ordered.ofEntries entries
      rw [same] at ascending unique
      exact ⟨ascending, unique⟩
    · rintro ⟨ascending, unique⟩
      have ordered : Ordered ⟨entries⟩ := ⟨ascending, unique⟩
      exact congrArg Timeline.entries ordered.ofEntries_entries

end SealedChat.Timeline
