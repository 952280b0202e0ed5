import SealedChat.History.Cursor
import SealedChat.Proofs.Archiving
import SealedChat.Proofs.Hints
import SealedChat.Proofs.Merging
import SealedChat.Proofs.Restoring

/-!
Runs of calls on a timeline, with what they answer.

A step does the same without hints (`Step.run_bare`), so that runs that differ in hints alone are
the same run without them. What a timeline holds for an id is the entry that was given last for it,
with the hint that it came with (`Latest`).
-/

namespace SealedChat.Timeline

inductive Question (μ ι : Type) where
  | length
  | isEmpty
  | get (index : Nat)
  | first
  | last
  | slice (start stop : Nat)
  | walk
  | containsId (id : ι)
  | contains (message : μ)
  | containsAll (messages : List μ)
  | indexOf (message : μ)
  | lastIndexOf (message : μ)

inductive Answer (μ : Type) where
  | nothing
  | truth (b : Bool)
  | count (n : Nat)
  | index (n : Option Nat)
  | message (message : Option μ)
  | messages (messages : Option (List μ))
  | walk (cursor : Cursor μ)
  | removed (result : Except HistoryError μ)
  | inserted (result : Except HistoryError Unit)

inductive Step (μ ι : Type) where
  | restore (entries : List (Entry μ))
  | change (change : Change μ ι)
  | ask (question : Question μ ι)

section Steps

variable {μ ι : Type} [Stamped μ ι] [DecidableEq ι] [DecidableEq μ]

def Question.answer (timeline : Timeline μ) : Question μ ι → Answer μ
  | .length => .count timeline.length
  | .isEmpty => .truth timeline.isEmpty
  | .get index => .message (timeline.get? index)
  | .first => .message timeline.first?
  | .last => .message timeline.last?
  | .slice start stop => .messages (timeline.slice? start stop)
  | .walk => .walk timeline.cursor
  | .containsId id => .truth (timeline.containsId id)
  | .contains message => .truth (timeline.contains message)
  | .containsAll messages => .truth (timeline.containsAll messages)
  | .indexOf message => .index (timeline.indexOf? message)
  | .lastIndexOf message => .index (timeline.lastIndexOf? message)

def Change.answer (forms : Forms μ) (timeline : Timeline μ) : Change μ ι → Answer μ
  | .add message => .truth (timeline.add message).1
  | .addEntry entry => .truth (timeline.addEntry entry).1
  | .addAll _ | .collect _ | .retain _ | .clear => .nothing
  | .removeById id => .message (timeline.removeById id).1
  | .removeAt index => .removed (timeline.removeAt index).1
  | .remove message => .truth (timeline.remove message).1
  | .removeAll messages => .truth (timeline.removeAll messages).1
  | .insertAt index message => .inserted (timeline.insertAt index message).1
  | .set index message => .removed (timeline.set index message).1
  | .reload medium => .truth (timeline.reload forms medium).isSome

def Step.run (forms : Forms μ) (timeline : Timeline μ) : Step μ ι → Answer μ × Timeline μ
  | .restore entries => (.nothing, .ofEntries entries)
  | .change call => (call.answer forms timeline, call.apply forms timeline)
  | .ask question => (question.answer timeline, timeline)

def Step.given : Step μ ι → List (Entry μ)
  | .restore entries => entries
  | .change (.add message) => [⟨message, -1⟩]
  | .change (.addEntry entry) => [entry]
  | .change (.addAll messages) => messages.map fun message => ⟨message, -1⟩
  | .change (.collect messages) => messages.map fun message => ⟨message, -1⟩
  | .change _ | .ask _ => []

def trace (forms : Forms μ) (timeline : Timeline μ) :
    List (Step μ ι) → List (Answer μ × Timeline μ)
  | [] => []
  | step :: steps =>
    let done := step.run forms timeline
    done :: trace forms done.2 steps

def after (forms : Forms μ) (timeline : Timeline μ) (steps : List (Step μ ι)) : Timeline μ :=
  steps.foldl (fun timeline step => (step.run forms timeline).2) timeline

end Steps

section Bare

variable {μ ι : Type}

def Change.bare : Change μ ι → Change μ ι
  | .addEntry entry => .addEntry entry.bare
  | change => change

def Step.bare : Step μ ι → Step μ ι
  | .restore entries => .restore (entries.map Entry.bare)
  | .change call => .change call.bare
  | .ask question => .ask question

variable [Stamped μ ι] [DecidableEq ι] [DecidableEq μ]

theorem Question.answer_bare (timeline : Timeline μ) (question : Question μ ι) :
    question.answer timeline.bare = question.answer timeline := by
  cases question with
  | length => exact congrArg Answer.count timeline.length_bare
  | isEmpty => exact congrArg Answer.truth timeline.isEmpty_bare
  | get index => simp only [answer, get?, messages_bare]
  | first => simp only [answer, first?, messages_bare]
  | last => simp only [answer, last?, messages_bare]
  | slice start stop => simp only [answer, slice?, messages_bare, length_bare]
  | walk => simp only [answer, cursor, messages_bare]
  | containsId id => exact congrArg Answer.truth (timeline.containsId_bare id)
  | contains message => exact congrArg Answer.truth (timeline.contains_bare message)
  | containsAll messages => exact congrArg Answer.truth (timeline.containsAll_bare messages)
  | indexOf message => exact congrArg Answer.index (timeline.indexOf?_bare message)
  | lastIndexOf message => exact congrArg Answer.index (timeline.lastIndexOf?_bare message)

end Bare

variable {timeline : Timeline Message} {steps : List (Step Message MessageId)}

theorem Ordered.bare (h : timeline.Ordered) : timeline.bare.Ordered :=
  ⟨List.pairwise_map.2 h.ascending, List.pairwise_map.2 h.unique⟩

theorem sized_bare_iff : timeline.bare.Sized ↔ timeline.Sized := by
  constructor
  · rintro ⟨count, messages⟩
    refine ⟨timeline.length_entries_bare ▸ count, fun entry member => ?_⟩
    exact messages entry.bare (List.mem_map_of_mem member)
  · rintro ⟨count, messages⟩
    refine ⟨timeline.length_entries_bare.symm ▸ count, fun entry member => ?_⟩
    obtain ⟨hinted, isOne, rfl⟩ := List.mem_map.1 member
    exact messages hinted isOne

theorem Ordered.reload_eq (h : timeline.Ordered) {medium : Medium}
    (sized : medium = .cbor → timeline.Sized) :
    timeline.reload Forms.message medium = some timeline := by
  cases medium with
  | entries => exact congrArg some h.ofEntries_entries
  | cbor => exact congrArg Except.toOption (h.ofCbor_toCbor (sized rfl))
  | json => exact congrArg Except.toOption h.ofJson_toJson

theorem Change.run_bare (h : timeline.Ordered) {change : Change Message MessageId}
    (sized : change = .reload .cbor → timeline.Sized) :
    change.bare.answer Forms.message timeline.bare = change.answer Forms.message timeline ∧
      change.bare.apply Forms.message timeline.bare =
        (change.apply Forms.message timeline).bare := by
  cases change with
  | add message => simp only [bare, answer, apply, add_bare, and_self]
  | addEntry entry => simp only [bare, answer, apply, addEntry_bare, and_self]
  | addAll messages => exact ⟨rfl, timeline.addAll_bare messages⟩
  | collect messages => exact ⟨rfl, (ofMessages_bare messages).symm⟩
  | removeById id => simp only [bare, answer, apply, removeById_bare, and_self]
  | removeAt index => simp only [bare, answer, apply, removeAt_bare, and_self]
  | remove message => simp only [bare, answer, apply, remove_bare, and_self]
  | removeAll messages => simp only [bare, answer, apply, removeAll_bare, and_self]
  | retain keep => exact ⟨rfl, timeline.retain_bare keep⟩
  | clear | insertAt | set => exact ⟨rfl, rfl⟩
  | reload medium =>
    -- the two are written with other hints, so that each is read back for itself
    have fits (isCbor : medium = .cbor) : timeline.Sized := sized (by rw [isCbor])
    have again := h.reload_eq fits
    have again' := h.bare.reload_eq fun isCbor => sized_bare_iff.2 (fits isCbor)
    simp only [bare, answer, apply, again, again', Option.isSome_some, Option.getD_some, and_self]

theorem Step.run_bare (h : timeline.Ordered) {step : Step Message MessageId}
    (sized : step = .change (.reload .cbor) → timeline.Sized) :
    step.bare.run Forms.message timeline.bare =
      ((step.run Forms.message timeline).1, (step.run Forms.message timeline).2.bare) := by
  cases step with
  | restore entries => simp only [bare, run, ofEntries_bare]
  | change call =>
    obtain ⟨answer, after⟩ := Change.run_bare h fun isCbor => sized (congrArg Step.change isCbor)
    simp only [bare, run, answer, after]
  | ask question => simp only [bare, run, Question.answer_bare]

def SizedReloads (timeline : Timeline Message) : List (Step Message MessageId) → Prop
  | [] => True
  | step :: steps =>
    (step = .change (.reload .cbor) → timeline.Sized) ∧
      SizedReloads (step.run Forms.message timeline).2 steps

theorem Ordered.step (h : timeline.Ordered) (step : Step Message MessageId) :
    (step.run Forms.message timeline).2.Ordered := by
  cases step with
  | restore entries => exact .ofEntries entries
  | change call => exact h.apply call
  | ask question => exact h

theorem Step.bare_eq_reload_iff {step : Step Message MessageId} {medium : Medium} :
    step.bare = .change (.reload medium) ↔ step = .change (.reload medium) := by
  cases step with
  | change call => cases call <;> simp [bare, Change.bare]
  | restore | ask => simp [bare]

theorem Ordered.sizedReloads_bare_iff (h : timeline.Ordered) :
    SizedReloads timeline.bare (steps.map Step.bare) ↔ SizedReloads timeline steps := by
  induction steps generalizing timeline with
  | nil => exact Iff.rfl
  | cons step steps ih =>
    rw [List.map_cons, SizedReloads, SizedReloads, Step.bare_eq_reload_iff, sized_bare_iff]
    apply and_congr_right
    intro sized
    rw [step.run_bare h sized]
    exact ih (h.step step)

theorem Ordered.trace_bare (h : timeline.Ordered) (sized : SizedReloads timeline steps) :
    trace Forms.message timeline.bare (steps.map Step.bare) =
      (trace Forms.message timeline steps).map fun done => (done.1, done.2.bare) := by
  induction steps generalizing timeline with
  | nil => rfl
  | cons step steps ih =>
    obtain ⟨first, others⟩ := sized
    have done := step.run_bare h first
    rw [List.map_cons, trace, trace, List.map_cons, done, ih (h.step step) others]

theorem removeById_sublist (timeline : Timeline Message) (id : MessageId) :
    (timeline.removeById id).2.entries.Sublist timeline.entries := by
  rw [removeById_snd, entries_eraseId_eq_eraseP]
  exact List.eraseP_sublist

theorem removeAt_sublist (timeline : Timeline Message) (index : Nat) :
    (timeline.removeAt index).2.entries.Sublist timeline.entries := by
  rw [removeAt]
  split
  · exact List.eraseIdx_sublist _ _
  · exact .refl _

def Latest (given : List (Entry Message)) (timeline : Timeline Message) : Prop :=
  ∀ entry ∈ timeline.entries, lastOf? given entry.id = some entry

namespace Latest

variable {given : List (Entry Message)} {other : Timeline Message}

-- `[]` stands for what is given by a step that only takes entries away
theorem of_sublist (latest : Latest given timeline)
    (sublist : other.entries.Sublist timeline.entries) : Latest (given ++ []) other := by
  rw [List.append_nil]
  exact fun entry member => latest entry (sublist.mem member)

theorem addEntries (latest : Latest given timeline) (h : timeline.Ordered)
    (entries : List (Entry Message)) :
    Latest (given ++ entries) (timeline.addEntries entries) := by
  intro entry member
  have last := (h.addEntries entries).mem_iff_lastOf?.1 member
  rw [h.lastOf?_addEntries, lastOf?_append] at last
  rw [lastOf?_append]
  cases found : lastOf? entries entry.id with
  | some new => rwa [found] at last
  | none =>
    rw [found, Option.none_or] at last
    exact latest entry (mem_of_lastOf? last)

theorem ofEntries (given entries : List (Entry Message)) :
    Latest (given ++ entries) (.ofEntries entries) := by
  intro entry member
  have last := (Ordered.ofEntries entries).mem_iff_lastOf?.1 member
  rw [lastOf?_ofEntries] at last
  rw [lastOf?_append, last]
  rfl

theorem ofMessages (given : List (Entry Message)) (messages : List Message) :
    Latest (given ++ messages.map .ofMessage) (.ofMessages messages) := by
  -- an empty timeline holds nothing that could be out of date
  have nothing : Latest given ∅ := nofun
  rw [Timeline.ofMessages, addAll_eq_addEntries]
  exact nothing.addEntries .nil (messages.map .ofMessage)

theorem step (latest : Latest given timeline) (h : timeline.Ordered)
    {step : Step Message MessageId} (sized : step = .change (.reload .cbor) → timeline.Sized) :
    Latest (given ++ step.given) (step.run Forms.message timeline).2 := by
  cases step with
  | restore entries => exact .ofEntries given entries
  | ask question => exact latest.of_sublist (.refl _)
  | change call =>
    cases call with
    | add message => exact latest.addEntries h [.ofMessage message]
    | addEntry entry => exact latest.addEntries h [entry]
    | addAll messages =>
      change Latest _ (timeline.addAll messages)
      rw [addAll_eq_addEntries]
      exact latest.addEntries h (messages.map .ofMessage)
    | collect messages => exact .ofMessages given messages
    | removeById id => exact latest.of_sublist (timeline.removeById_sublist id)
    | removeAt index => exact latest.of_sublist (timeline.removeAt_sublist index)
    | remove | removeAll | retain => exact latest.of_sublist List.filter_sublist
    | clear => exact latest.of_sublist (List.nil_sublist _)
    | insertAt | set => exact latest.of_sublist (.refl _)
    | reload medium =>
      have fits (isCbor : medium = .cbor) : timeline.Sized := sized (by rw [isCbor])
      apply latest.of_sublist
      change ((timeline.reload Forms.message medium).getD timeline).entries.Sublist _
      rw [h.reload_eq fits]
      exact .refl _

theorem after (latest : Latest given timeline) (h : timeline.Ordered)
    (sized : SizedReloads timeline steps) :
    Latest (given ++ steps.flatMap Step.given) (after Forms.message timeline steps) := by
  induction steps generalizing given timeline with
  | nil => exact latest.of_sublist (.refl _)
  | cons step steps ih =>
    obtain ⟨first, others⟩ := sized
    have done := ih (latest.step h first) (h.step step) others
    rwa [List.append_assoc] at done

end Latest

theorem Ordered.after (h : timeline.Ordered) (steps : List (Step Message MessageId)) :
    (after Forms.message timeline steps).Ordered := by
  induction steps generalizing timeline with
  | nil => exact h
  | cons step steps ih => exact ih (h.step step)

theorem map_messages_eq_of_bare {first second : List (Answer Message × Timeline Message)}
    (same : (second.map fun done => (done.1, done.2.bare)) =
      first.map fun done => (done.1, done.2.bare)) :
    (second.map fun done => (done.1, done.2.messages)) =
      first.map fun done => (done.1, done.2.messages) := by
  have messages := congrArg (List.map fun done => (done.1, done.2.messages)) same
  simpa only [List.map_map, Function.comp_def, messages_bare] using messages

/-- Runs of the same steps with the same messages answer the same and hold the same messages behind
every step, whatever hints they are given. Every entry has the hint that was given last for its id,
and a reload changes nothing. -/
theorem trace_hints {steps other : List (Step Message MessageId)}
    (same : other.map Step.bare = steps.map Step.bare) (sized : SizedReloads ∅ steps) :
    let answers (steps : List (Step Message MessageId)) : List (Answer Message × List Message) :=
      (trace Forms.message ∅ steps).map fun done => (done.1, done.2.messages)
    let behind : Timeline Message := after Forms.message ∅ steps
    answers other = answers steps ∧
      (∀ entry ∈ behind.entries, lastOf? (steps.flatMap Step.given) entry.id = some entry) ∧
      ∀ medium, (medium = .cbor → behind.Sized) →
        (Step.change (.reload medium)).run Forms.message behind = (.truth true, behind) := by
  intro answers behind
  have ordered : (∅ : Timeline Message).Ordered := .nil
  -- whether a timeline fits does not depend on its hints
  have sized' : SizedReloads ∅ other := by
    rw [← ordered.sizedReloads_bare_iff] at sized ⊢
    rwa [same]
  refine ⟨?_, ?_, ?_⟩
  · apply map_messages_eq_of_bare
    rw [← ordered.trace_bare sized, ← ordered.trace_bare sized', same]
  · have nothing : Latest [] ∅ := nofun
    exact nothing.after ordered sized
  · intro medium fits
    have again := (ordered.after steps).reload_eq fits
    simp only [Step.run, Change.answer, Change.apply, behind, again, Option.isSome_some,
      Option.getD_some]

theorem trace_hints_of_reloaded :
    let message (id : String) (timestamp : UInt64) : Message :=
      { key := { chat := "chat", id := ⟨id⟩, fromMe := true, sender := none }, timestamp }
    let steps (hint hint' : Int64) : List (Step Message MessageId) :=
      [.restore [⟨message "a" 5, hint⟩, ⟨message "b" 5, hint'⟩, ⟨message "a" 5, hint'⟩],
        .change (.addEntry ⟨message "c" 5, hint⟩), .change (.reload .cbor),
        .change (.add (message "b" 7)), .ask (.indexOf (message "a" 5))]
    let answers (steps : List (Step Message MessageId)) : List (Answer Message × List Message) :=
      (trace Forms.message ∅ steps).map fun done => (done.1, done.2.messages)
    (steps 0 0).map Step.bare = (steps 3 4).map Step.bare ∧ SizedReloads ∅ (steps 3 4) ∧
      answers (steps 0 0) = answers (steps 3 4) ∧
      ∀ entry ∈ (after Forms.message ∅ (steps 3 4)).entries, entry.id = ⟨"b"⟩ →
        entry = ⟨message "b" 7, -1⟩ := by
  intro message steps answers
  have same : (steps 0 0).map Step.bare = (steps 3 4).map Step.bare := rfl
  let a : Entry Message := ⟨message "a" 5, 4⟩
  let b : Entry Message := ⟨message "b" 5, 4⟩
  let c : Entry Message := ⟨message "c" 5, 3⟩
  have restored : ofEntries [⟨message "a" 5, 3⟩, b, a] = ⟨[b, a]⟩ :=
    congrArg Timeline.mk (List.mergeSort_of_pairwise (by decide))
  have added : (addEntry ⟨[b, a]⟩ c).2 = ⟨[b, c, a]⟩ := by decide +kernel
  have isChat : (Utf8.encode "chat").length < UInt64.size := by decide
  have isSized {id : String} (isId : (Utf8.encode id).length < UInt64.size) :
      (message id 5).Sized :=
    ⟨⟨isChat, isId, nofun⟩, nofun, show 0 < UInt64.size by decide⟩
  have fits : (addEntry (ofEntries [⟨message "a" 5, 3⟩, b, a]) c).2.Sized := by
    rw [restored, added]
    refine ⟨by decide, ?_⟩
    simp only [List.forall_mem_cons, List.not_mem_nil, false_implies, implies_true, and_true]
    exact ⟨isSized (by decide), isSized (by decide), isSized (by decide)⟩
  have sized : SizedReloads ∅ (steps 3 4) := ⟨nofun, nofun, fun _ => fits, nofun, nofun, trivial⟩
  obtain ⟨sameAnswers, latest, -⟩ := trace_hints same sized
  refine ⟨same, sized, sameAnswers, fun entry member isB => ?_⟩
  have last := latest entry member
  rw [isB] at last
  exact (Option.some.inj last).symm

end SealedChat.Timeline
