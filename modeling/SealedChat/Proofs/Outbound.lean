import SealedChat.Proofs.Sending

namespace SealedChat

inductive Submission : Type 1
  | plaintext (plaintext : Bytes)
  | node {ν ε : Type} (codec : Codec ν ε) (node : ν)

namespace Submission

def plaintext? : Submission → Option Bytes
  | .plaintext p => some p
  | .node codec n => (codec.encode n).toOption

def submit (sender : Sender) (keys : SessionKeys) :
    Submission → Option Bytes × Sender × SessionKeys
  | .plaintext p =>
    let (sent, sender, keys) := sender.send keys p
    (sent.toOption, sender, keys)
  | .node codec n =>
    let (sent, sender, keys) := sender.sendNode keys codec n
    (sent.toOption, sender, keys)

def submitAll (sender : Sender) (keys : SessionKeys) :
    List Submission → List (Option Bytes) × Sender × SessionKeys
  | [] => ([], sender, keys)
  | submission :: submissions =>
    let (output, sender, keys) := submission.submit sender keys
    let (outputs, sender, keys) := submitAll sender keys submissions
    (output :: outputs, sender, keys)

def accepted (submissions : List Submission) (outputs : List (Option Bytes)) : List Bytes :=
  (submissions.zip outputs).filterMap fun (submission, output) =>
    output.bind fun _ => submission.plaintext?

def stream (outputs : List (Option Bytes)) : Bytes :=
  outputs.flatMap fun output => output.getD []

theorem stream_cons (output : Option Bytes) (outputs : List (Option Bytes)) :
    stream (output :: outputs) = output.getD [] ++ stream outputs := rfl

section Accepted

variable {submission : Submission} {submissions : List Submission} {outputs : List (Option Bytes)}

theorem accepted_cons_some {plaintext output : Bytes} (h : submission.plaintext? = some plaintext) :
    accepted (submission :: submissions) (some output :: outputs) =
      plaintext :: accepted submissions outputs :=
  List.filterMap_cons_some h

end Accepted

variable {sender : Sender} {keys : SessionKeys} {place : Nat}

theorem submit_cases (submission : Submission) (sender : Sender)
    (stands : keys.writeCounter = .ofNat place) :
    submission.submit sender keys = (none, sender, keys) ∨
      ∃ plaintext frame after, submission.plaintext? = some plaintext ∧
        Sends keys place [plaintext] frame after ∧
        submission.submit sender keys =
          (some (sender.intro ++ frame), { sender with introSent := true }, after) := by
  have sends {plaintext : Bytes}
      (short : plaintext.length + Aead.tagSize ≤ min sender.limit Frame.maxSize)
      (h : place < UInt64.size) :
      Sends keys place [plaintext] (sealedFrame keys.writeKey place plaintext)
        { keys with writeCounter := .ofNat (place + 1) } := by
    refine ⟨(List.append_nil _).symm, rfl, ?_, h⟩
    intro p member
    cases List.mem_singleton.1 member
    exact Nat.le_trans short (Nat.min_le_right _ _)
  cases submission with
  | plaintext p =>
    rw [submit]
    rcases sender.send_cases stands p with ⟨e, refused⟩ | ⟨short, h, sent⟩
    · left
      rw [refused]
      rfl
    · right
      refine ⟨p, _, _, rfl, sends short h, ?_⟩
      rw [sent]
      rfl
  | node codec n =>
    rw [submit, plaintext?, Sender.sendNode]
    cases codec.encode n with
    | error e => exact .inl rfl
    | ok p =>
      dsimp only
      rcases sender.send_cases stands p with ⟨e, refused⟩ | ⟨short, h, sent⟩
      · left
        rw [refused]
        rfl
      · right
        refine ⟨p, _, _, rfl, sends short h, ?_⟩
        rw [sent]
        rfl

theorem submitAll_sends {submissions : List Submission} {outputs : List (Option Bytes)}
    {last : Sender} {after : SessionKeys} (stands : keys.writeCounter = .ofNat place)
    (bounded : place ≤ UInt64.size)
    (run : submitAll sender keys submissions = (outputs, last, after)) :
    ∃ frames, Sends keys place (accepted submissions outputs) frames after ∧
      stream outputs =
        (if accepted submissions outputs = [] then [] else sender.intro) ++ frames := by
  induction submissions generalizing sender keys place outputs with
  | nil =>
    cases run
    exact ⟨[], .nil stands bounded, rfl⟩
  | cons submission submissions ih =>
    rcases submission.submit_cases sender stands with
      refused | ⟨plaintext, frame, middle, isOne, first, sent⟩
    · rcases others : submitAll sender keys submissions with ⟨outputs, last, after⟩
      simp only [submitAll, refused, others] at run
      cases run
      exact ih stands bounded others
    · rcases others : submitAll { sender with introSent := true } middle submissions with
        ⟨outputs, last, after⟩
      simp only [submitAll, sent, others] at run
      cases run
      have next : middle.writeCounter = .ofNat (place + 1) := by
        rw [first.after_eq]
        rfl
      obtain ⟨frames, sends, more⟩ := ih next first.bounded others
      have noMore : Sender.intro { sender with introSent := true } = [] := rfl
      rw [noMore, ite_self, List.nil_append] at more
      rw [accepted_cons_some isOne, if_neg (List.cons_ne_nil _ _)]
      refine ⟨frame ++ frames, first.cons sends, ?_⟩
      rw [stream_cons, Option.getD_some, more, List.append_assoc]

end Submission

def sealedBodies (key : Aead.Key) (place : Nat) (plaintexts : List Bytes) : List Bytes :=
  plaintexts.mapIdx fun i plaintext =>
    Aead.encrypt key (.ofCounter (UInt64.ofNat (place + i))) none plaintext

theorem sealedBodies_cons (key : Aead.Key) (place : Nat) (plaintext : Bytes)
    (plaintexts : List Bytes) :
    sealedBodies key place (plaintext :: plaintexts) =
      Aead.encrypt key (.ofCounter (UInt64.ofNat place)) none plaintext ::
        sealedBodies key (place + 1) plaintexts := by
  simp only [sealedBodies, List.mapIdx_cons, Nat.add_zero, Nat.add_assoc, Nat.add_comm 1]

theorem mapM_encode_sealedBodies (key : Aead.Key) (place : Nat) {plaintexts : List Bytes}
    (fits : ∀ plaintext ∈ plaintexts, Fits plaintext) :
    ∃ frames, (sealedBodies key place plaintexts).mapM Frame.encode = .ok frames ∧
      sealedStream key place plaintexts = frames.flatten := by
  induction plaintexts generalizing place with
  | nil => exact ⟨[], rfl, rfl⟩
  | cons plaintext plaintexts ih =>
    obtain ⟨frames, encoded, streamed⟩ :=
      ih (place + 1) fun p member => fits p (List.mem_cons_of_mem _ member)
    have first : Frame.encode (Aead.encrypt key (.ofCounter (UInt64.ofNat place)) none plaintext) =
        .ok (sealedFrame key place plaintext) := by
      apply write_encrypt
      rw [Nat.min_self]
      exact fits plaintext List.mem_cons_self
    refine ⟨sealedFrame key place plaintext :: frames, ?_, ?_⟩
    · rw [sealedBodies_cons]
      exact Frame.mapM_encode_cons.2 ⟨_, frames, first, encoded, rfl⟩
    · rw [sealedStream, streamed, List.flatten_cons]

namespace Submission

/-- Over any calls, one sender gives the frames of the accepted plaintexts under consecutive
numbers, and its intro header once in front of them. What is refused leaves no trace, and takes no
number. -/
theorem submitAll_stream (config : FrameConfig) {keys after : SessionKeys} {place : Nat}
    {submissions : List Submission} {outputs : List (Option Bytes)} {last : Sender}
    (stands : keys.writeCounter = .ofNat place) (bounded : place ≤ UInt64.size)
    (run : submitAll { config } keys submissions = (outputs, last, after)) :
    (∃ frames,
      (sealedBodies keys.writeKey place (accepted submissions outputs)).mapM Frame.encode =
        .ok frames ∧
      stream outputs =
        if accepted submissions outputs = [] then []
        else config.introHeader.getD [] ++ frames.flatten) ∧
      place + (accepted submissions outputs).length ≤ UInt64.size ∧
      after =
        { keys with writeCounter := .ofNat (place + (accepted submissions outputs).length) } := by
  obtain ⟨sealed, sends, streamed⟩ := submitAll_sends stands bounded run
  obtain ⟨frames, encoded, flat⟩ := mapM_encode_sealedBodies keys.writeKey place sends.fits
  refine ⟨⟨frames, encoded, ?_⟩, sends.bounded, sends.after_eq⟩
  rw [streamed, sends.output_eq, flat]
  split
  · next nothing =>
    rw [nothing] at encoded
    cases encoded
    rfl
  · rfl

theorem submitAll_stream_at_last_number :
    let config : FrameConfig := { maxFrameSize := 20, introHeader := some [0xAA, 0xBB] }
    let keys : SessionKeys :=
      { SessionKeys.sampleClient with writeCounter := .ofNat 0xFFFFFFFFFFFFFFFF }
    let submissions : List Submission :=
      [.plaintext [1, 2, 3, 4, 5], .plaintext [6], .plaintext [7]]
    ∃ output last after,
      keys.writeCounter = .ofNat 0xFFFFFFFFFFFFFFFF ∧ 0xFFFFFFFFFFFFFFFF ≤ UInt64.size ∧
      submitAll { config } keys submissions = ([none, some output, none], last, after) ∧
      (∃ frame, Frame.encode (Aead.encrypt keys.writeKey (.ofCounter 0xFFFFFFFFFFFFFFFF) none [6]) =
          .ok frame ∧ output = [0xAA, 0xBB] ++ frame) ∧
      after = { keys with writeCounter := ⟨none⟩ } := by
  intro config keys submissions
  have stands : keys.writeCounter = .ofNat 0xFFFFFFFFFFFFFFFF := rfl
  let sent : SessionKeys := { keys with writeCounter := .ofNat UInt64.size }
  have refused :
      submit { config } keys (.plaintext [1, 2, 3, 4, 5]) = (none, { config }, keys) := by
    rw [submit, Sender.send_of_tooLong (by decide)]
    rfl
  obtain ⟨output, accepted⟩ : ∃ output, submit { config } keys (.plaintext [6]) =
      (some output, { config, introSent := true }, sent) := by
    rw [submit, Sender.send_of_short (by decide) stands (by decide)]
    exact ⟨_, rfl⟩
  have exhausted : submit { config, introSent := true } sent (.plaintext [7]) =
      (none, { config, introSent := true }, sent) := by
    have none : sent.writeCounter = .ofNat UInt64.size := rfl
    rw [submit, Sender.send_of_exhausted (by decide) none (Nat.le_refl _)]
    rfl
  have run : submitAll { config } keys submissions =
      ([none, some output, none], { config, introSent := true }, sent) := by
    simp only [submissions, submitAll, refused, accepted, exhausted]
  obtain ⟨⟨frames, encoded, streamed⟩, -, after⟩ := submitAll_stream config stands (by decide) run
  refine ⟨output, _, _, stands, by decide, run, ?_, after⟩
  obtain ⟨frame, more, first, nothing, rfl⟩ := Frame.mapM_encode_cons.1 encoded
  cases nothing
  have streamed : output ++ [] = [0xAA, 0xBB] ++ (frame ++ []) := streamed
  rw [List.append_nil, List.append_nil] at streamed
  exact ⟨frame, first, streamed⟩

end Submission

end SealedChat
