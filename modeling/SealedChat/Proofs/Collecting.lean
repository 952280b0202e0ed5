import Mathlib.Data.List.Perm.Basic
import Mathlib.Data.List.Rotate
import Mathlib.Data.List.SplitBy
import SealedChat.Proofs.Sorting
import SealedChat.Proofs.Ties

namespace SealedChat.Timeline

variable {μ ι : Type} [Stamped μ ι] {timeline : Timeline μ} {entry : Entry μ}
  {entries others group : List (Entry μ)} {t : UInt64}

theorem foldl_join_append (front : List (Entry μ)) (first : Entry μ) (later : List (Entry μ)) :
    later.foldl join (front ++ [first]) = front ++ later ++ [first] := by
  induction later generalizing front with
  | nil => simp
  | cons entry later ih =>
    have step : join (front ++ [first]) entry = front ++ [entry] ++ [first] := by simp [join]
    rw [List.foldl_cons, step, ih]
    simp

theorem foldl_join_nil (entries : List (Entry μ)) : entries.foldl join [] = entries.rotate 1 := by
  cases entries with
  | nil => rfl
  | cons first later =>
    rw [List.rotate_cons_succ, List.rotate_zero]
    exact foldl_join_append [] first later

def rotateTies (entries : List (Entry μ)) : List (Entry μ) :=
  (entries.splitBy fun a b => a.timestamp = b.timestamp).flatMap (·.rotate 1)

theorem rotateTies_perm (entries : List (Entry μ)) : (rotateTies entries).Perm entries := by
  have groups := List.flatten_splitBy (fun a b : Entry μ => a.timestamp = b.timestamp) entries
  conv => rhs; rw [← groups, ← List.flatMap_id]
  exact List.Perm.flatMap_left _ fun group _ => group.rotate_perm 1

theorem mem_rotateTies : entry ∈ rotateTies entries ↔ entry ∈ entries :=
  (rotateTies_perm entries).mem_iff

theorem rotateTies_append
    (border : ∀ a ∈ entries.getLast?, ∀ b ∈ others.head?, a.timestamp ≠ b.timestamp) :
    rotateTies (entries ++ others) = rotateTies entries ++ rotateTies others := by
  rw [rotateTies, List.splitBy_append, List.flatMap_append]
  · rfl
  · intro a last b first
    exact decide_eq_false (border a last b first)

theorem rotateTies_of_forall (tied : ∀ entry ∈ group, entry.timestamp = t) :
    rotateTies group = group.rotate 1 := by
  by_cases empty : group = []
  · rw [empty]
    rfl
  · have chain : group.Pairwise fun a b => decide (a.timestamp = b.timestamp) := by
      apply List.pairwise_of_forall_mem_list
      intro a member b member'
      exact decide_eq_true ((tied a member).trans (tied b member').symm)
    rw [rotateTies, List.splitBy_of_isChain empty chain.isChain]
    exact List.flatMap_singleton _ _

theorem rotateTies_ascending (ascending : entries.Pairwise fun a b => a.timestamp ≤ b.timestamp) :
    (rotateTies entries).Pairwise fun a b => a.timestamp ≤ b.timestamp := by
  rw [rotateTies, List.pairwise_flatMap]
  constructor
  · intro group member
    have chain : (group.map Entry.timestamp).IsChain Eq :=
      (List.isChain_map _).2 ((List.isChain_of_mem_splitBy member).imp fun _ _ => of_decide_eq_true)
    have level : group.Pairwise fun a b => a.timestamp = b.timestamp :=
      List.pairwise_map.1 chain.pairwise
    have rotated := ((group.rotate_perm 1).pairwise_iff Eq.symm).2 level
    exact rotated.imp UInt64.le_of_eq
  · rw [← List.flatten_splitBy (fun a b => a.timestamp = b.timestamp) entries] at ascending
    refine (List.pairwise_flatten.1 ascending).2.imp ?_
    intro group next ordered a member b member'
    exact ordered a (List.mem_rotate.1 member) b (List.mem_rotate.1 member')

theorem Ordered.rotateTies_eq (h : timeline.Ordered) (t : UInt64) :
    rotateTies timeline.entries = rotateTies (timeline.earlier t) ++ (timeline.tied t).rotate 1 ++
      rotateTies (timeline.later t) := by
  conv => lhs; rw [h.entries_eq t]
  rw [rotateTies_append, rotateTies_append,
    rotateTies_of_forall fun entry member => (mem_tied.1 member).2]
  · intro a last b first same
    have below := (mem_earlier.1 (List.mem_of_mem_getLast? last)).2
    have equal := (mem_tied.1 (List.mem_of_mem_head? first)).2
    exact UInt64.ne_of_lt below (same.trans equal)
  · intro a last b first same
    have above := (mem_later.1 (List.mem_of_mem_head? first)).2
    rw [← same] at above
    rcases List.mem_append.1 (List.mem_of_mem_getLast? last) with member | member
    · exact UInt64.lt_asymm above (mem_earlier.1 member).2
    · exact UInt64.ne_of_lt above (mem_tied.1 member).2.symm

theorem Ordered.filter_rotateTies (h : timeline.Ordered) (t : UInt64) :
    (rotateTies timeline.entries).filter (fun entry => entry.timestamp = t) =
      (timeline.tied t).rotate 1 := by
  have early : (rotateTies (timeline.earlier t)).filter (fun e => e.timestamp = t) = [] :=
    filter_timestamp_of_forall_ne fun e member =>
      UInt64.ne_of_lt (mem_earlier.1 (mem_rotateTies.1 member)).2
  have late : (rotateTies (timeline.later t)).filter (fun e => e.timestamp = t) = [] :=
    filter_timestamp_of_forall_ne fun e member =>
      (UInt64.ne_of_lt (mem_later.1 (mem_rotateTies.1 member)).2).symm
  have tied : ((timeline.tied t).rotate 1).filter (fun e => e.timestamp = t) =
      (timeline.tied t).rotate 1 :=
    filter_timestamp_of_forall fun e member => (mem_tied.1 (List.mem_rotate.1 member)).2
  rw [h.rotateTies_eq t, List.filter_append, List.filter_append, early, late, tied,
    List.nil_append, List.append_nil]

variable {messages : List μ}

theorem arrivals_unique (distinct : messages.Pairwise fun a b => Stamped.id a ≠ Stamped.id b) :
    (messages.map Entry.ofMessage).Pairwise fun a b => a.id ≠ b.id :=
  List.pairwise_map.2 distinct

variable [DecidableEq ι]

theorem Ordered.of_mergeSort (unique : entries.Pairwise fun a b => a.id ≠ b.id) :
    Ordered ⟨entries.mergeSort fun a b => a.timestamp ≤ b.timestamp⟩ := by
  have restored := Ordered.ofEntries entries
  rwa [Timeline.ofEntries, keepLast_of_unique unique] at restored

theorem tied_ofMessages (distinct : messages.Pairwise fun a b => Stamped.id a ≠ Stamped.id b)
    (t : UInt64) :
    (ofMessages messages).tied t =
      ((messages.map .ofMessage).filter fun entry => entry.timestamp = t).rotate 1 := by
  rw [ofMessages, addAll_eq_addEntries, ← foldl_join_nil]
  exact Ordered.nil.tied_addEntries (arrivals_unique distinct) (fun _ _ => rfl) t

theorem entries_ofMessages (distinct : messages.Pairwise fun a b => Stamped.id a ≠ Stamped.id b) :
    (ofMessages messages).entries =
      rotateTies ((messages.map .ofMessage).mergeSort fun a b => a.timestamp ≤ b.timestamp) := by
  have sorted := Ordered.of_mergeSort (arrivals_unique distinct)
  refine eq_of_filter_key (rotateTies_ascending sorted.ascending)
    (Ordered.ofMessages messages).ascending fun t => ?_
  rw [sorted.filter_rotateTies, tied, filter_mergeSort_key]
  exact tied_ofMessages distinct t

/-- Messages with different ids are collected group by group, in the order of the timestamps and all
with the hint -1. In each group the first arrival stands last, behind the others in their order. -/
theorem ofMessages_rotates (distinct : messages.Pairwise fun a b => Stamped.id a ≠ Stamped.id b) :
    let arrivals : List (Entry μ) := messages.map fun message => ⟨message, -1⟩
    let collected := ofMessages messages
    addAll ∅ messages = collected ∧
      collected.entries.Perm arrivals ∧
      collected.entries.Pairwise (fun a b => a.timestamp ≤ b.timestamp) ∧
      (∀ t first later, arrivals.filter (fun entry => entry.timestamp = t) = first :: later →
        collected.entries.filter (fun entry => entry.timestamp = t) = later ++ [first]) ∧
      collected.entries = rotateTies (arrivals.mergeSort fun a b => a.timestamp ≤ b.timestamp) := by
  intro arrivals collected
  have closed : collected.entries = rotateTies (arrivals.mergeSort _) := entries_ofMessages distinct
  refine ⟨rfl, ?_, (Ordered.ofMessages messages).ascending, ?_, closed⟩
  · rw [closed]
    exact (rotateTies_perm _).trans (List.mergeSort_perm _ _)
  · intro t first later group
    have tied : collected.tied t = (arrivals.filter fun entry => entry.timestamp = t).rotate 1 :=
      tied_ofMessages distinct t
    rw [group, List.rotate_cons_succ, List.rotate_zero] at tied
    exact tied

theorem ofMessages_rotates_of_mixed :
    let message (id : String) (timestamp : UInt64) : Message :=
      { key := { chat := "chat", id := ⟨id⟩, fromMe := true, sender := none }, timestamp }
    let a := message "a" 10
    let b := message "b" 20
    let c := message "c" 10
    let d := message "d" 5
    let e := message "e" 10
    let f := message "f" 20
    let messages := [a, b, c, d, e, f]
    messages.Pairwise (fun a b => Stamped.id a ≠ Stamped.id b) ∧
      (ofMessages messages).entries =
        [⟨d, -1⟩, ⟨c, -1⟩, ⟨e, -1⟩, ⟨a, -1⟩, ⟨f, -1⟩, ⟨b, -1⟩] ∧
      ((ofMessages messages).entries.filter fun entry => entry.timestamp = 10) =
        [⟨c, -1⟩, ⟨e, -1⟩, ⟨a, -1⟩] := by
  intro message a b c d e f messages
  have distinct : messages.Pairwise fun a b => Stamped.id a ≠ Stamped.id b := by decide
  obtain ⟨-, -, -, rotated, -⟩ := ofMessages_rotates distinct
  exact ⟨distinct, by decide +kernel, rotated 10 ⟨a, -1⟩ [⟨c, -1⟩, ⟨e, -1⟩] (by decide)⟩

end SealedChat.Timeline
