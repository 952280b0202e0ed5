import SealedChat.Proofs.Receiving
import SealedChat.Proofs.Sending

namespace SealedChat

namespace Frame

def extent : List Bytes → Nat
  | [] => 0
  | body :: bodies => headerSize + body.length + extent bodies

def Whole (buffer : Bytes) : Prop :=
  ∃ bodies frames : List Bytes, bodies.mapM encode = .ok frames ∧ buffer = frames.flatten

variable {buffer body frame rest : Bytes} {bodies more frames : List Bytes}

theorem extent_append (bodies more : List Bytes) :
    extent (bodies ++ more) = extent bodies + extent more := by
  induction bodies with
  | nil => simp [extent]
  | cons body bodies ih =>
    simp only [List.cons_append, extent, ih]
    omega

theorem extent_le_of_prefix (h : bodies <+: more) : extent bodies ≤ extent more := by
  obtain ⟨rest, rfl⟩ := h
  rw [extent_append]
  omega

theorem length_of_encode (h : encode body = .ok frame) :
    frame.length = headerSize + body.length := by
  obtain ⟨-, rfl⟩ := encode_eq_ok_iff.1 h
  simp

theorem length_flatten_of_mapM (h : bodies.mapM encode = .ok frames) :
    frames.flatten.length = extent bodies := by
  induction bodies generalizing frames with
  | nil =>
    cases h
    rfl
  | cons body bodies ih =>
    obtain ⟨frame, others, first, encoded, rfl⟩ := mapM_encode_cons.1 h
    simp [extent, length_of_encode first, ih encoded]

theorem exists_frames (buffer : Bytes) :
    ∃ frames : List Bytes, (extract buffer).mapM encode = .ok frames ∧
      buffer = frames.flatten ++ unread buffer :=
  (scan_eq_iff.1 (rfl : scan buffer = (extract buffer, unread buffer))).1

theorem unfinished_unread (buffer : Bytes) : Unfinished (unread buffer) :=
  (scan_eq_iff.1 (rfl : scan buffer = (extract buffer, unread buffer))).2

theorem length_eq_extent (buffer : Bytes) :
    buffer.length = extent (extract buffer) + (unread buffer).length := by
  obtain ⟨frames, encoded, split⟩ := exists_frames buffer
  have size := congrArg List.length split
  rwa [List.length_append, length_flatten_of_mapM encoded] at size

theorem unread_eq_drop (buffer : Bytes) :
    unread buffer = buffer.drop (extent (extract buffer)) := by
  obtain ⟨frames, encoded, split⟩ := exists_frames buffer
  have dropped : (frames.flatten ++ unread buffer).drop (extent (extract buffer)) = unread buffer :=
    List.drop_left' (length_flatten_of_mapM encoded)
  rw [← split] at dropped
  exact dropped.symm

theorem scan_append (a b : Bytes) :
    scan (a ++ b) = (extract a ++ extract (unread a ++ b), unread (unread a ++ b)) := by
  obtain ⟨frames, encoded, split⟩ := exists_frames a
  obtain ⟨frames', encoded', split'⟩ := exists_frames (unread a ++ b)
  refine scan_eq_iff.2 ⟨⟨frames ++ frames', ?_, ?_⟩, unfinished_unread (unread a ++ b)⟩
  · rw [List.mapM_append, encoded, encoded']
    rfl
  · calc a ++ b
      _ = frames.flatten ++ (unread a ++ b) := by rw [← List.append_assoc, ← split]
      _ = frames.flatten ++ (frames'.flatten ++ unread (unread a ++ b)) := by rw [← split']
      _ = (frames ++ frames').flatten ++ unread (unread a ++ b) := by simp

theorem extract_append_eq (a b : Bytes) :
    extract (a ++ b) = extract a ++ extract (unread a ++ b) :=
  congrArg Prod.fst (scan_append a b)

theorem scan_flatten (h : bodies.mapM encode = .ok frames) :
    scan frames.flatten = (bodies, []) := by
  have unfinished : Unfinished [] := .inl (by decide)
  exact scan_eq_iff.2 ⟨⟨frames, h, (List.append_nil _).symm⟩, unfinished⟩

theorem extract_flatten (h : bodies.mapM encode = .ok frames) : extract frames.flatten = bodies :=
  congrArg Prod.fst (scan_flatten h)

theorem Whole.unread_eq_nil (h : Whole buffer) : unread buffer = [] := by
  obtain ⟨bodies, frames, encoded, rfl⟩ := h
  exact congrArg Prod.snd (scan_flatten encoded)

theorem length_unread_lt {a b : Bytes} (h : extract (unread a ++ b) = body :: bodies) :
    (unread a).length < headerSize + body.length := by
  obtain ⟨frames, encoded, split⟩ := exists_frames (unread a ++ b)
  rw [h] at encoded
  obtain ⟨frame, others, first, -, rfl⟩ := mapM_encode_cons.1 encoded
  rw [List.flatten_cons, List.append_assoc] at split
  apply Nat.lt_of_not_le
  intro fits
  rw [← length_of_encode first] at fits
  have isFrame : frame <+: unread a ++ b := split ▸ List.prefix_append _ _
  obtain ⟨tail, same⟩ := List.prefix_of_prefix_length_le isFrame (List.prefix_append _ _) fits
  have found := first?_eq_some_iff.2 ⟨frame, first, same.symm⟩
  cases found.symm.trans (first?_eq_none_iff.2 (unfinished_unread a))

theorem lt_length_extract_iff {a b : Bytes} {i : Nat} :
    i < (extract a).length ↔
      i < (extract (a ++ b)).length ∧ extent ((extract (a ++ b)).take (i + 1)) ≤ a.length := by
  have size := length_eq_extent a
  rw [extract_append_eq]
  constructor
  · intro complete
    have within : i + 1 ≤ (extract a).length := complete
    have taken : extent ((extract a).take (i + 1)) ≤ extent (extract a) :=
      extent_le_of_prefix (List.take_prefix _ _)
    rw [List.length_append, List.take_append_of_le_length within]
    omega
  · rintro ⟨inside, ends⟩
    apply Nat.lt_of_not_le
    intro beyond
    cases next : extract (unread a ++ b) with
    | nil =>
      rw [next, List.append_nil] at inside
      omega
    | cons body bodies =>
      have unreadSize := length_unread_lt next
      have isTaken : extract a ++ [body] <+: (extract a ++ body :: bodies).take (i + 1) := by
        rw [List.prefix_take_iff]
        simp
        omega
      have taken := extent_le_of_prefix isTaken
      rw [extent_append, extent, extent, ← next] at taken
      omega

end Frame

namespace SessionKeys

variable {ν ε : Type} {keys : SessionKeys}

def takeReads (keys : SessionKeys) : (n : Nat) → SessionKeys
  | 0 => keys
  | n + 1 => keys.takeRead.2.takeReads n

def receiveReads (codec : Codec ν ε) (keys : SessionKeys) :
    List Bytes → List (Except (ReceiveError ε) ν) × SessionKeys
  | [] => ([], keys)
  | raw :: reads =>
    let first := keys.receiveRead codec { raw }
    let others := receiveReads codec first.2 reads
    (first.1 ++ others.1, others.2)

variable {codec : Codec ν ε}

theorem receive_snd (body : Bytes) : (keys.receive codec body).2 = keys.takeRead.2 := by
  rw [receive]
  split <;> rename_i taken <;> rw [taken]

theorem receiveAll_snd (bodies : List Bytes) :
    (keys.receiveAll codec bodies).2 = keys.takeReads bodies.length := by
  induction bodies generalizing keys with
  | nil => rfl
  | cons body bodies ih =>
    calc (keys.receiveAll codec (body :: bodies)).2
      _ = ((keys.receive codec body).2.receiveAll codec bodies).2 := rfl
      _ = (keys.receive codec body).2.takeReads bodies.length := ih
      _ = keys.takeReads (body :: bodies).length := by rw [receive_snd]; rfl

theorem length_receiveAll (bodies : List Bytes) :
    (keys.receiveAll codec bodies).1.length = bodies.length := by
  induction bodies generalizing keys with
  | nil => rfl
  | cons body bodies ih => exact congrArg Nat.succ ih

theorem receiveAll_append (first second : List Bytes) :
    keys.receiveAll codec (first ++ second) =
      ((keys.receiveAll codec first).1 ++
          ((keys.receiveAll codec first).2.receiveAll codec second).1,
        ((keys.receiveAll codec first).2.receiveAll codec second).2) := by
  induction first generalizing keys with
  | nil => rfl
  | cons body first ih =>
    simp only [List.cons_append, receiveAll, ih]

theorem receiveRead_append (a b : Bytes) :
    keys.receiveRead codec { raw := a ++ b } =
      let rest := a.drop (Frame.extent (Frame.extract a))
      let first := keys.receiveRead codec { raw := a }
      let second := first.2.receiveRead codec { raw := rest ++ b }
      (first.1 ++ second.1, second.2) := by
  have frames := Frame.extract_append_eq a b
  rw [Frame.unread_eq_drop] at frames
  exact (congrArg (keys.receiveAll codec) frames).trans (receiveAll_append _ _)

theorem receiveReads_of_whole {reads : List Bytes} (h : ∀ read ∈ reads, Frame.Whole read) :
    keys.receiveReads codec reads = keys.receiveRead codec { raw := reads.flatten } := by
  induction reads generalizing keys with
  | nil =>
    have none : keys.receiveRead codec { raw := [] } = keys.receiveAll codec [] :=
      congrArg (keys.receiveAll codec) Frame.extract_nil
    exact none.symm
  | cons read reads ih =>
    obtain ⟨whole, others⟩ := List.forall_mem_cons.1 h
    rw [List.flatten_cons, receiveRead_append, ← Frame.unread_eq_drop, whole.unread_eq_nil,
      receiveReads]
    simp only [ih others]
    rfl

/-- A read that is cut anywhere is received like a whole one, if what stands behind the frames of
its first part goes in front of the second. Each part takes one number for each of its frames, and
the frames of the first are those that end in it. -/
theorem receiveRead_cut (codec : Codec ν ε) (keys : SessionKeys) (a b : Bytes) :
    let rest := a.drop (Frame.extent (Frame.extract a))
    let whole := keys.receiveRead codec { raw := a ++ b }
    let first := keys.receiveRead codec { raw := a }
    let second := first.2.receiveRead codec { raw := rest ++ b }
    whole = (first.1 ++ second.1, second.2) ∧
      (∀ reads : List Bytes, (∀ read ∈ reads, Frame.Whole read) →
        keys.receiveReads codec reads = keys.receiveRead codec { raw := reads.flatten }) ∧
      first.1 <+: whole.1 ∧
      first.1.length = (Frame.extract a).length ∧
      first.2 = keys.takeReads (Frame.extract a).length ∧
      whole.1.length = (Frame.extract (a ++ b)).length ∧
      whole.2 = keys.takeReads (Frame.extract (a ++ b)).length ∧
      ∀ i, i < (Frame.extract a).length ↔ i < (Frame.extract (a ++ b)).length ∧
        Frame.extent ((Frame.extract (a ++ b)).take (i + 1)) ≤ a.length := by
  intro rest whole first second
  have parts : whole = (first.1 ++ second.1, second.2) := receiveRead_append a b
  refine ⟨parts, fun reads => receiveReads_of_whole, ?_, length_receiveAll _, receiveAll_snd _,
    length_receiveAll _, receiveAll_snd _, fun i => Frame.lt_length_extract_iff⟩
  rw [parts]
  exact List.prefix_append _ _

theorem receiveRead_cut_behind_accepted :
    let keys := sampleServer
    let sent := sealedFrame keys.readKey 0 [1, 2, 3]
    let reads : List Bytes := [sent, [0, 0, 1, 7, 0, 0, 0]]
    let a := sent ++ [0, 0]
    let first := keys.receiveRead (Codec.raw Empty) { raw := a }
    let whole := keys.receiveRead (Codec.raw Empty) { raw := a ++ [1, 7, 0, 0, 0] }
    first.1 = [.ok [1, 2, 3]] ∧ first.2 = { keys with readCounter := .startAt 1 } ∧
      whole.1 = [.ok [1, 2, 3], .error (.aead (.missingTag 1)), .error (.aead (.missingTag 0))] ∧
      whole.2 = { keys with readCounter := .startAt 3 } ∧
      (∀ read ∈ reads, Frame.Whole read) ∧ keys.receiveReads (Codec.raw Empty) reads = whole := by
  intro keys sent reads a first whole
  let body := Aead.encrypt keys.readKey (.ofCounter 0) none [1, 2, 3]
  have encoded : Frame.encode body = .ok sent := write_encrypt (by decide) keys.readKey 0
  have encodedOne : [body].mapM Frame.encode = .ok [sent] :=
    Frame.mapM_encode_cons.2 ⟨sent, [], encoded, rfl, rfl⟩
  have encodedAll : [body, [7], []].mapM Frame.encode = .ok [sent, [0, 0, 1, 7], [0, 0, 0]] :=
    Frame.mapM_encode_cons.2 ⟨sent, _, encoded, rfl, rfl⟩
  have isWhole : ∀ read ∈ reads, Frame.Whole read := by
    have first : Frame.Whole sent := ⟨[body], [sent], encodedOne, (List.append_nil _).symm⟩
    have second : Frame.Whole [0, 0, 1, 7, 0, 0, 0] := ⟨[[7], []], _, rfl, rfl⟩
    simp [reads, first, second]
  have flat : reads.flatten = a ++ [1, 7, 0, 0, 0] := by simp [reads, a]
  have frames : Frame.extract a = [body] := by
    have unfinished : Frame.Unfinished [0, 0] := .inl (by decide)
    exact congrArg Prod.fst (Frame.scan_eq_iff.2 ⟨⟨_, encodedOne, by simp [a]⟩, unfinished⟩)
  have all : Frame.extract (a ++ [1, 7, 0, 0, 0]) = [body, [7], []] := by
    have extracted := Frame.extract_flatten encodedAll
    exact (congrArg Frame.extract flat).symm.trans extracted
  have received : whole.1 =
      [.ok [1, 2, 3], .error (.aead (.missingTag 1)), .error (.aead (.missingTag 0))] := by
    have stands : keys.readCounter = .ofNat 0 := Counter.startAt_eq_ofNat 0
    have opened : openAt (Codec.raw Empty) keys.readKey 0 body = .ok [1, 2, 3] :=
      openAt_encrypt (by decide)
    rw [show whole = _ from receiveRead_eq stands _, all]
    exact congrArg (· :: [.error (.aead (.missingTag 1)), .error (.aead (.missingTag 0))]) opened
  obtain ⟨-, coalesced, front, count, taken, -, takenAll, -⟩ :=
    receiveRead_cut (Codec.raw Empty) keys a [1, 7, 0, 0, 0]
  have one : first.1.length = 1 := count.trans (congrArg List.length frames)
  refine ⟨?_, taken.trans ?_, received, takenAll.trans ?_, isWhole,
    (coalesced reads isWhole).trans ?_⟩
  · calc first.1
      _ = whole.1.take first.1.length := List.prefix_iff_eq_take.1 front
      _ = [.ok [1, 2, 3]] := by rw [one, received]; rfl
  · exact congrArg (fun bodies => keys.takeReads bodies.length) frames
  · exact congrArg (fun bodies => keys.takeReads bodies.length) all
  · exact congrArg (fun raw => keys.receiveRead (Codec.raw Empty) { raw }) flat

end SessionKeys

end SealedChat
