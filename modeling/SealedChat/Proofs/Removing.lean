import Mathlib.Data.List.Dedup
import SealedChat.Proofs.Changes

namespace SealedChat.Timeline

variable {μ ι : Type} {timeline : Timeline μ} {message : μ} {messages order : List μ}

theorem length_messages (timeline : Timeline μ) : timeline.messages.length = timeline.length :=
  List.length_map _

theorem retain_retain (timeline : Timeline μ) (first second : μ → Bool) :
    (timeline.retain first).retain second =
      timeline.retain fun message => second message && first message :=
  congrArg Timeline.mk List.filter_filter

theorem retain_of_forall {keep : μ → Bool} (all : ∀ message, keep message) :
    timeline.retain keep = timeline :=
  congrArg Timeline.mk (List.filter_eq_self.2 fun entry _ => all entry.message)

variable [DecidableEq μ]

def removeEach (timeline : Timeline μ) (messages : List μ) : Timeline μ :=
  messages.foldl (fun timeline message => (timeline.remove message).2) timeline

theorem removeEach_eq (timeline : Timeline μ) (messages : List μ) :
    timeline.removeEach messages = (timeline.removeAll messages).2 := by
  change _ = timeline.retain fun other => !messages.contains other
  induction messages generalizing timeline with
  | nil => exact (retain_of_forall fun _ => rfl).symm
  | cons message messages ih =>
    have first : timeline.removeEach (message :: messages) =
        (timeline.retain fun other => other ≠ message).removeEach messages := rfl
    rw [first, ih, retain_retain]
    congr 1
    funext other
    by_cases same : other = message <;> simp [same]

theorem removeAll_perm (timeline : Timeline μ) (perm : order.Perm messages) :
    timeline.removeAll order = timeline.removeAll messages := by
  have same : order.contains = messages.contains := funext fun _ => perm.contains_eq
  rw [removeAll, removeAll, same]

theorem contains_iff : timeline.contains message ↔ message ∈ timeline.messages := by
  simp [contains, indexOf?, Timeline.messages]

theorem mem_entries_removeAll {entry : Entry μ} :
    entry ∈ (timeline.removeAll messages).2.entries ↔
      entry ∈ timeline.entries ∧ entry.message ∉ messages := by
  simp [removeAll, retain]

theorem messages_removeAll :
    (timeline.removeAll messages).2.messages =
      timeline.messages.filter fun message => !messages.contains message := by
  rw [Timeline.messages, Timeline.messages, List.filter_map]
  rfl

theorem contains_removeAll :
    (timeline.removeAll messages).2.contains message ↔
      timeline.contains message ∧ message ∉ messages := by
  simp [contains_iff, messages_removeAll]

section Counting

variable [Stamped μ ι]

omit [DecidableEq μ] in
theorem Ordered.nodup_messages (h : timeline.Ordered) : timeline.messages.Nodup :=
  List.pairwise_map.2 (h.unique.imp fun different same => different (congrArg Stamped.id same))

theorem Ordered.length_filter_contains (h : timeline.Ordered) (messages : List μ) :
    (timeline.messages.filter messages.contains).length =
      (messages.dedup.filter timeline.contains).length := by
  apply List.Perm.length_eq
  rw [List.perm_ext_iff_of_nodup (h.nodup_messages.filter _) (messages.nodup_dedup.filter _)]
  intro message
  simp [contains_iff, and_comm]

theorem Ordered.length_removeAll (h : timeline.Ordered) (messages : List μ) :
    (timeline.removeAll messages).2.length + (messages.dedup.filter timeline.contains).length =
      timeline.length := by
  rw [← length_messages, ← length_messages, messages_removeAll, ← h.length_filter_contains,
    Nat.add_comm, ← List.length_eq_length_filter_add]

theorem Ordered.removeAll_fst (h : timeline.Ordered) (messages : List μ) :
    (timeline.removeAll messages).1 ↔ ∃ message ∈ messages, timeline.contains message := by
  have count := h.length_removeAll messages
  have changed : (timeline.removeAll messages).1 ↔
      (timeline.removeAll messages).2.length ≠ timeline.length := bne_iff_ne
  have found : 0 < (messages.dedup.filter timeline.contains).length ↔
      ∃ message ∈ messages, timeline.contains message := by
    simp [List.length_pos_iff_exists_mem]
  rw [changed, ← found]
  omega

end Counting

variable [Stamped μ ι] [DecidableEq ι] {forms : Forms μ}

/-- Messages that are removed together are removed as if one by one, in any order: each that is
there counts once, none of them is left, and nothing else is moved or changed. -/
theorem removeAll_removes (h : Reachable forms timeline) (messages : List μ) :
    let rest := (timeline.removeAll messages).2
    (∀ order, order.Perm messages → timeline.removeEach order = rest) ∧
      ((timeline.removeAll messages).1 = true ↔
        ∃ message ∈ messages, timeline.contains message = true) ∧
      rest.length + (messages.dedup.filter timeline.contains).length = timeline.length ∧
      (∀ message ∈ messages, rest.contains message = false) ∧
      rest.entries.Sublist timeline.entries ∧
      ∀ entry ∈ timeline.entries, entry.message ∉ messages → entry ∈ rest.entries := by
  intro rest
  refine ⟨?_, h.ordered.removeAll_fst messages, h.ordered.length_removeAll messages, ?_,
    List.filter_sublist, fun _ member other => mem_entries_removeAll.2 ⟨member, other⟩⟩
  · intro order perm
    rw [removeEach_eq, timeline.removeAll_perm perm]
  · intro message member
    rw [← Bool.not_eq_true, contains_removeAll]
    exact fun kept => kept.2 member

theorem removeAll_removes_of_repeats :
    let message (id : String) (timestamp : UInt64) (starred : Bool) : Message :=
      { key := { chat := "chat", id := ⟨id⟩, fromMe := true, sender := none }, timestamp, starred }
    let a := message "a" 5 false
    let b := message "b" 5 false
    let c := message "c" 9 false
    let edited := message "b" 5 true
    let unknown := message "d" 5 false
    let timeline : Timeline Message :=
      [⟨a, 1⟩, ⟨b, 2⟩, ⟨c, 3⟩].foldl (fun t entry => (t.addEntry entry).2) ∅
    let messages := [c, edited, a, unknown, a]
    let order := [a, a, c, edited, unknown]
    Reachable Forms.message timeline ∧ timeline.entries = [⟨b, 2⟩, ⟨a, 1⟩, ⟨c, 3⟩] ∧
      order.Perm messages ∧ timeline.removeEach order = (timeline.removeAll messages).2 ∧
      (timeline.removeAll messages).1 = true ∧ (timeline.removeAll messages).2.length + 2 = 3 ∧
      (timeline.removeAll messages).2.entries = [⟨b, 2⟩] := by
  intro message a b c edited unknown timeline messages order
  have reachable : Reachable Forms.message timeline :=
    .change (.change (.change .empty (.addEntry ⟨a, 1⟩)) (.addEntry ⟨b, 2⟩)) (.addEntry ⟨c, 3⟩)
  have perm : order.Perm messages := by decide
  obtain ⟨each, told, count, -⟩ := removeAll_removes reachable messages
  have two : (messages.dedup.filter timeline.contains).length = 2 := by decide +kernel
  rw [two] at count
  exact ⟨reachable, by decide +kernel, perm, each order perm,
    told.2 ⟨a, by decide, by decide +kernel⟩, count.trans (by decide +kernel), by decide +kernel⟩

end SealedChat.Timeline
