import SealedChat.History.Timeline

namespace SealedChat.Timeline

theorem narrow_eq {key : Nat → UInt64} {t : UInt64} {base size m : Nat} (nonempty : 0 < size)
    (upTo : ∀ i < base + size, key i ≤ t ↔ i < m) (bounded : m ≤ base + size) :
    narrow key t base size = max base (m - 1) := by
  -- The first key above `t` stands at `m`, which never leaves the positions that are searched.
  induction base, size using narrow.induct key t with
  | case1 base size small =>
    rw [narrow, if_pos small]
    omega
  | case2 base size large half ih =>
    rw [narrow, if_neg large]
    change narrow key t (if key (base + half) ≤ t then base + half else base) (size - half) = _
    have middle : half = size / 2 := rfl
    clear_value half
    by_cases upper : key (base + half) ≤ t
    · have below : base + half < m := (upTo (base + half) (by omega)).1 upper
      have ends : base + half + (size - half) = base + size := by omega
      rw [dif_pos upper] at ih
      rw [if_pos upper, ih (by omega) (ends ▸ upTo) (ends ▸ bounded)]
      omega
    · have above : ¬base + half < m := fun below => upper ((upTo (base + half) (by omega)).2 below)
      rw [dif_neg upper] at ih
      rw [if_neg upper, ih (by omega) (fun i h => upTo i (by omega)) (by omega)]

variable {lower equal upper : List UInt64} {t : UInt64}

theorem getD_append_cases (isLower : ∀ k ∈ lower, k < t) (isEqual : ∀ k ∈ equal, k = t)
    (isUpper : ∀ k ∈ upper, t < k) {i : Nat} (h : i < (lower ++ equal ++ upper).length) :
    (i < lower.length ∧ (lower ++ equal ++ upper).getD i 0 < t) ∨
      (lower.length ≤ i ∧ i < lower.length + equal.length ∧
        (lower ++ equal ++ upper).getD i 0 = t) ∨
      (lower.length + equal.length ≤ i ∧ t < (lower ++ equal ++ upper).getD i 0) := by
  rw [List.getD_eq_getElem?_getD, List.getElem?_eq_getElem h, Option.getD_some]
  rcases Nat.lt_or_ge i lower.length with front | front
  · left
    have middle : i < (lower ++ equal).length := List.length_append ▸ Nat.lt_add_right _ front
    rw [List.getElem_append_left middle, List.getElem_append_left front]
    exact ⟨front, isLower _ (List.getElem_mem _)⟩
  · right
    rcases Nat.lt_or_ge i (lower ++ equal).length with middle | back
    · left
      rw [List.getElem_append_left middle, List.getElem_append_right front]
      rw [List.length_append] at middle
      exact ⟨front, middle, isEqual _ (List.getElem_mem _)⟩
    · right
      rw [List.getElem_append_right back]
      rw [List.length_append] at back
      exact ⟨back, isUpper _ (List.getElem_mem _)⟩

theorem searchPosition_append (isLower : ∀ k ∈ lower, k < t) (isEqual : ∀ k ∈ equal, k = t)
    (isUpper : ∀ k ∈ upper, t < k) :
    searchPosition (lower ++ equal ++ upper) t = lower.length + (equal.length - 1) := by
  have cases {i : Nat} (h : i < (lower ++ equal ++ upper).length) :=
    getD_append_cases isLower isEqual isUpper h
  have length : (lower ++ equal ++ upper).length = lower.length + equal.length + upper.length := by
    rw [List.length_append, List.length_append]
  generalize lower ++ equal ++ upper = keys at *
  have upTo (i : Nat) (h : i < 0 + keys.length) :
      keys.getD i 0 ≤ t ↔ i < lower.length + equal.length := by
    rcases cases (Nat.zero_add _ ▸ h) with ⟨front, less⟩ | ⟨-, middle, same⟩ | ⟨back, more⟩
    · exact iff_of_true (UInt64.le_of_lt less) (by omega)
    · exact iff_of_true (UInt64.le_of_eq same) middle
    · exact iff_of_false (UInt64.not_le.2 more) (by omega)
  rw [searchPosition]
  split
  · next empty =>
    rw [List.isEmpty_iff.1 empty, List.length_nil] at length
    omega
  · next nonempty =>
    have pos : 0 < keys.length := List.length_pos_iff.2 fun empty => nonempty (empty ▸ rfl)
    rw [narrow_eq pos upTo (by omega)]
    rcases cases (show max 0 (lower.length + equal.length - 1) < keys.length by omega) with
      ⟨front, less⟩ | ⟨front, back, same⟩ | ⟨back, more⟩
    · rw [if_pos less]
      omega
    · rw [if_neg (UInt64.not_lt.2 (UInt64.le_of_eq same.symm))]
      omega
    · rw [if_neg (UInt64.not_lt.2 (UInt64.le_of_lt more))]
      omega

end SealedChat.Timeline
