namespace SealedChat

structure Attributes where
  entries : List (String × String)
  sorted : entries.Pairwise (fun a b => a.1 < b.1)
  deriving DecidableEq

namespace Attributes

def empty : Attributes := ⟨[], .nil⟩

instance : EmptyCollection Attributes := ⟨empty⟩

instance : Inhabited Attributes := ⟨empty⟩

def insertEntry (key value : String) : List (String × String) → List (String × String)
  | [] => [(key, value)]
  | entry :: entries =>
    if key < entry.1 then (key, value) :: entry :: entries
    else if key = entry.1 then (key, value) :: entries
    else entry :: insertEntry key value entries

theorem mem_insertEntry {key value : String} {entries : List (String × String)}
    {entry : String × String} (h : entry ∈ insertEntry key value entries) :
    entry = (key, value) ∨ entry ∈ entries := by
  induction entries with
  | nil => simpa [insertEntry] using h
  | cons first entries ih =>
    unfold insertEntry at h
    split at h
    · simpa using h
    · split at h
      · simp only [List.mem_cons] at h ⊢
        exact h.imp id Or.inr
      · simp only [List.mem_cons] at h ⊢
        rcases h with h | h
        · exact .inr (.inl h)
        · exact (ih h).imp id Or.inr

theorem sorted_insertEntry {key value : String} {entries : List (String × String)}
    (h : entries.Pairwise (fun a b => a.1 < b.1)) :
    (insertEntry key value entries).Pairwise (fun a b => a.1 < b.1) := by
  induction entries with
  | nil => simp [insertEntry]
  | cons first entries ih =>
    obtain ⟨least, rest⟩ := List.pairwise_cons.1 h
    unfold insertEntry
    split
    · next below =>
      refine List.pairwise_cons.2 ⟨fun entry mem => ?_, h⟩
      rcases List.mem_cons.1 mem with rfl | mem
      · exact below
      · exact String.lt_trans below (least entry mem)
    · split
      · next equal =>
        exact List.pairwise_cons.2 ⟨fun entry mem => equal ▸ least entry mem, rest⟩
      · next notBelow notEqual =>
        refine List.pairwise_cons.2 ⟨fun entry mem => ?_, ih rest⟩
        rcases mem_insertEntry mem with rfl | mem
        · refine String.not_le.1 fun le => notEqual (String.le_antisymm le ?_)
          exact String.not_lt.1 notBelow
        · exact least entry mem

def insert (attributes : Attributes) (key value : String) : Attributes :=
  ⟨insertEntry key value attributes.entries, sorted_insertEntry attributes.sorted⟩

def ofList (pairs : List (String × String)) : Attributes :=
  pairs.foldl (fun attributes pair => attributes.insert pair.1 pair.2) empty

def get? (attributes : Attributes) (key : String) : Option String :=
  attributes.entries.lookup key

theorem lookup_cons (other : String) (entry : String × String) (entries : List (String × String)) :
    (entry :: entries).lookup other =
      if other = entry.1 then some entry.2 else entries.lookup other := by
  rw [show entry = (entry.1, entry.2) from rfl, List.lookup_cons]
  by_cases h : other = entry.1
  · rw [if_pos h, beq_iff_eq.2 h]
  · rw [if_neg h, beq_eq_false_iff_ne.2 h]

theorem lookup_insertEntry (key value other : String) (entries : List (String × String)) :
    (insertEntry key value entries).lookup other =
      if other = key then some value else entries.lookup other := by
  induction entries with
  | nil => simp only [insertEntry, lookup_cons]
  | cons first entries ih =>
    unfold insertEntry
    split
    · rw [lookup_cons]
    · split
      · next equal =>
        simp only [lookup_cons, ← equal]
        split <;> rfl
      · next notEqual =>
        rw [lookup_cons, lookup_cons, ih]
        by_cases h : other = key
        · simp [h, notEqual]
        · simp [h]

theorem get?_insert (attributes : Attributes) (key value other : String) :
    (attributes.insert key value).get? other =
      if other = key then some value else attributes.get? other :=
  lookup_insertEntry key value other attributes.entries

end Attributes

end SealedChat
