import SealedChat.Proofs.Cutting
import SealedChat.Proofs.Receiving

namespace SealedChat

namespace Frame

def bodyStart (bodies : List Bytes) (i : Nat) : Nat :=
  extent (bodies.take i) + headerSize

def InBody (bodies : List Bytes) (i p : Nat) : Prop :=
  ∃ body, bodies[i]? = some body ∧ bodyStart bodies i ≤ p ∧ p < bodyStart bodies i + body.length

/-- Bytes of a read were overwritten, but none outside the bodies of its frames. -/
structure Damaged (before after : Bytes) : Prop where
  length_eq : after.length = before.length
  outside (p : Nat) : (∀ i, ¬InBody (extract before) i p) → after[p]? = before[p]?

def Kept (before after : Bytes) (i q : Nat) : Prop :=
  after[bodyStart (extract before) i + q]? = before[bodyStart (extract before) i + q]?

variable {buffer before after body behind : Bytes} {bodies more : List Bytes} {i p q : Nat}

theorem take_eq_take_of_getElem? {n : Nat} (h : ∀ p < n, after[p]? = before[p]?) :
    after.take n = before.take n := by
  apply List.ext_getElem?
  intro p
  rw [List.getElem?_take, List.getElem?_take]
  split
  · next inside => exact h p inside
  · rfl

theorem headerSize_le_bodyStart : headerSize ≤ bodyStart bodies i := by
  simp [bodyStart]

theorem bodyStart_zero : bodyStart bodies 0 = headerSize := by
  simp [bodyStart, extent]

theorem bodyStart_succ :
    bodyStart (body :: bodies) (i + 1) = headerSize + body.length + bodyStart bodies i := by
  simp only [bodyStart, List.take_succ_cons, extent]
  omega

theorem extent_congr (h : more.map List.length = bodies.map List.length) :
    extent more = extent bodies := by
  induction bodies generalizing more with
  | nil => simp [List.map_eq_nil_iff.1 h]
  | cons body bodies ih =>
    cases more with
    | nil => cases h
    | cons other more =>
      obtain ⟨size, sizes⟩ := List.cons.inj h
      simp only [extent, size, ih sizes]

theorem bodyStart_congr (h : more.map List.length = bodies.map List.length) (i : Nat) :
    bodyStart more i = bodyStart bodies i := by
  have taken : (more.take i).map List.length = (bodies.take i).map List.length := by
    rw [List.map_take, h, List.map_take]
  rw [bodyStart, extent_congr taken, bodyStart]

theorem extract_of_none (h : first? buffer = none) : extract buffer = [] :=
  congrArg Prod.fst (scan_none h)

theorem extract_of_some (h : first? buffer = some (body, behind)) :
    extract buffer = body :: extract behind :=
  congrArg Prod.fst (scan_some h)

theorem getElem?_bodyStart (found : (extract buffer)[i]? = some body) (inside : q < body.length) :
    buffer[bodyStart (extract buffer) i + q]? = body[q]? := by
  induction buffer using scan.induct generalizing i with
  | case1 buffer none =>
    rw [extract_of_none none] at found
    cases found
  | case2 buffer first rest isFirst _ _ _ _ ih =>
    obtain ⟨frame, encoded, rfl⟩ := first?_eq_some_iff.1 isFirst
    have size := length_of_encode encoded
    rw [extract_of_some isFirst] at found ⊢
    cases i with
    | zero =>
      cases found
      obtain ⟨-, rfl⟩ := encode_eq_ok_iff.1 encoded
      rw [bodyStart_zero, List.append_assoc, List.getElem?_append_right (by simp),
        Bytes.length_ofNat, Nat.add_sub_cancel_left, List.getElem?_append_left inside]
    | succ i =>
      have position : bodyStart (first :: extract rest) (i + 1) + q =
          frame.length + (bodyStart (extract rest) i + q) := by
        rw [bodyStart_succ, size, Nat.add_assoc]
      rw [position, List.getElem?_append_right (by omega), Nat.add_sub_cancel_left]
      exact ih found

theorem Damaged.take_headerSize (h : Damaged before after) :
    after.take headerSize = before.take headerSize := by
  apply take_eq_take_of_getElem?
  intro p inHeader
  apply h.outside
  rintro i ⟨body, -, start, -⟩
  have behind : headerSize ≤ bodyStart (extract before) i := headerSize_le_bodyStart
  omega

theorem Damaged.rest (h : Damaged before after) (found : first? before = some (body, behind)) :
    Damaged behind (after.drop (headerSize + body.length)) := by
  obtain ⟨frame, encoded, rfl⟩ := first?_eq_some_iff.1 found
  have size := length_of_encode encoded
  constructor
  · have length := h.length_eq
    simp only [List.length_append, List.length_drop] at length ⊢
    omega
  · intro p outside
    have position : after[frame.length + p]? = (frame ++ behind)[frame.length + p]? := by
      apply h.outside
      rw [extract_of_some found]
      rintro i ⟨other, isOther, start, inside⟩
      cases i with
      | zero =>
        cases isOther
        rw [bodyStart_zero] at inside
        omega
      | succ i =>
        rw [bodyStart_succ] at start inside
        exact outside i ⟨other, isOther, by omega, by omega⟩
    rw [List.getElem?_append_right (by omega), Nat.add_sub_cancel_left] at position
    rw [List.getElem?_drop, ← size, position]

theorem Damaged.first? (h : Damaged before after) (found : first? before = some (body, behind)) :
    ∃ body', Frame.first? after = some (body', after.drop (headerSize + body.length)) ∧
      body'.length = body.length := by
  have header := h.take_headerSize
  have length := h.length_eq
  obtain ⟨frame, encoded, rfl⟩ := first?_eq_some_iff.1 found
  obtain ⟨bound, rfl⟩ := encode_eq_ok_iff.1 encoded
  have size : ((after.drop headerSize).take body.length).length = body.length := by
    simp only [List.length_append, Bytes.length_ofNat] at length
    simp only [List.length_take, List.length_drop]
    omega
  refine ⟨(after.drop headerSize).take body.length, ?_, size⟩
  refine first?_eq_some_iff.2 ⟨_, encode_eq_ok_iff.2 ⟨by rwa [size], rfl⟩, ?_⟩
  rw [List.append_assoc, List.take_left' (Bytes.length_ofNat _ _)] at header
  rw [size, ← header, List.append_assoc, ← List.drop_drop, List.take_append_drop,
    List.take_append_drop]

theorem Damaged.map_length (h : Damaged before after) :
    (extract after).map List.length = (extract before).map List.length := by
  induction before using scan.induct generalizing after with
  | case1 before none =>
    have outside (p i : Nat) : ¬InBody (extract before) i p := by
      rw [extract_of_none none]
      rintro ⟨body, found, -⟩
      cases found
    have same : after = before := List.ext_getElem? fun p => h.outside p (outside p)
    rw [same]
  | case2 before body rest found _ _ _ _ ih =>
    obtain ⟨body', found', size⟩ := h.first? found
    rw [extract_of_some found, extract_of_some found', List.map_cons, List.map_cons, size,
      ih (h.rest found)]

theorem Damaged.exists_body (h : Damaged before after) (found : (extract before)[i]? = some body) :
    ∃ body', (extract after)[i]? = some body' ∧ body'.length = body.length ∧
      ∀ q < body.length, body'[q]? = body[q]? ↔ Kept before after i q := by
  have sizes := h.map_length
  have size : ((extract after).map List.length)[i]? = some body.length := by
    rw [sizes, List.getElem?_map, found]
    rfl
  rw [List.getElem?_map, Option.map_eq_some_iff] at size
  obtain ⟨body', found', size⟩ := size
  refine ⟨body', found', size, ?_⟩
  intro q inside
  rw [← getElem?_bodyStart found inside, ← getElem?_bodyStart found' (size ▸ inside),
    bodyStart_congr sizes, Kept]

theorem Damaged.extract_of_kept (h : Damaged before after)
    (found : (extract before)[i]? = some body)
    (unchanged : ∀ q < body.length, Kept before after i q) : (extract after)[i]? = some body := by
  obtain ⟨body', found', size, kept⟩ := h.exists_body found
  have same := take_eq_take_of_getElem? fun q inside => (kept q inside).2 (unchanged q inside)
  rw [← size, List.take_length, size, List.take_length] at same
  rw [found', same]

theorem Damaged.exists_of_altered (h : Damaged before after) {n : Nat}
    (found : (extract before)[i]? = some body) (within : n ≤ body.length)
    (front : ∀ q < n, Kept before after i q) (inside : q < body.length)
    (altered : ¬Kept before after i q) :
    ∃ body', (extract after)[i]? = some body' ∧ body'.length = body.length ∧
      body'.take n = body.take n ∧ body' ≠ body := by
  obtain ⟨body', found', size, kept⟩ := h.exists_body found
  refine ⟨body', found', size, take_eq_take_of_getElem? ?_, ?_⟩
  · intro q inFront
    exact (kept q (Nat.lt_of_lt_of_le inFront within)).2 (front q inFront)
  · rintro rfl
    exact altered ((kept q inside).1 rfl)

end Frame

namespace SessionKeys

variable {ν ε : Type} {codec : Codec ν ε} {key : Aead.Key} {place : Nat} {body other : Bytes}

def Authentic (result : Except (ReceiveError ε) ν) : Prop :=
  (∃ node, result = .ok node) ∨ ∃ e, result = .error (.codec e)

theorem exists_encrypt_of_authentic (h : Authentic (openAt codec key place body)) :
    place < UInt64.size ∧
      ∃ plaintext, body = Aead.encrypt key (.ofCounter (UInt64.ofNat place)) none plaintext := by
  have outcome : IsOutcome codec key place body _ := openAt_isOutcome key place body
  rcases h with ⟨node, isNode⟩ | ⟨e, isRefused⟩
  · obtain ⟨numbered, plaintext, same, -⟩ := (outcome.node node).1 isNode
    exact ⟨numbered, plaintext, same⟩
  · obtain ⟨numbered, plaintext, same, -⟩ := (outcome.codec e).1 isRefused
    exact ⟨numbered, plaintext, same⟩

theorem openAt_of_tag (h : Authentic (openAt codec key place body))
    (size : other.length = body.length)
    (front : other.take (body.length - Aead.tagSize) = body.take (body.length - Aead.tagSize))
    (altered : other ≠ body) :
    openAt codec key place other = .error (.aead .decrypt) := by
  obtain ⟨numbered, plaintext, rfl⟩ := exists_encrypt_of_authentic h
  rw [Aead.length_encrypt] at size front
  rw [Nat.add_sub_cancel] at front
  have outcome : IsOutcome codec key place other _ := openAt_isOutcome key place other
  refine outcome.decrypt.2 ⟨numbered, size ▸ Nat.le_add_left _ _, ?_⟩
  rintro plaintext' rfl
  exact altered (Aead.encrypt_eq_of_take size Aead.length_encrypt front)

theorem exists_getElem?_receiveAll (codec : Codec ν ε) (keys : SessionKeys) :
    ∃ place, ∀ bodies i, (keys.receiveAll codec bodies).1[i]? =
      bodies[i]?.map (openAt codec keys.readKey (place + i)) := by
  obtain ⟨place, -, stands⟩ := keys.readCounter.exists_eq_ofNat
  refine ⟨place, fun bodies i => ?_⟩
  rw [receiveAll_eq stands, List.getElem?_mapIdx]

/-- Damage inside bodies leaves the number of results, the keys and the results of all other frames
as they are, and an authentic frame of which only the tag is damaged is refused. -/
theorem receiveRead_of_damaged (codec : Codec ν ε) (keys : SessionKeys) {before after : Bytes}
    (damaged : Frame.Damaged before after) :
    let old := keys.receiveRead codec { raw := before }
    let new := keys.receiveRead codec { raw := after }
    new.1.length = old.1.length ∧ new.2 = old.2 ∧
      ∀ i body, (Frame.extract before)[i]? = some body →
        ((∀ q < body.length, Frame.Kept before after i q) → new.1[i]? = old.1[i]?) ∧
        ((∃ result, old.1[i]? = some result ∧ Authentic result) →
          (∀ q < body.length - 16, Frame.Kept before after i q) →
          (∃ q, body.length - 16 ≤ q ∧ q < body.length ∧ ¬Frame.Kept before after i q) →
          new.1[i]? = some (.error (.aead .decrypt))) := by
  intro old new
  have count : (Frame.extract after).length = (Frame.extract before).length := by
    have sizes := congrArg List.length damaged.map_length
    rwa [List.length_map, List.length_map] at sizes
  obtain ⟨place, results⟩ := exists_getElem?_receiveAll codec keys
  have olds (i : Nat) : old.1[i]? = _ := results (Frame.extract before) i
  have news (i : Nat) : new.1[i]? = _ := results (Frame.extract after) i
  refine ⟨?_, ?_, ?_⟩
  · exact (length_receiveAll _).trans (count.trans (length_receiveAll _).symm)
  · calc new.2
      _ = keys.takeReads (Frame.extract after).length := receiveAll_snd _
      _ = keys.takeReads (Frame.extract before).length := by rw [count]
      _ = old.2 := (receiveAll_snd _).symm
  · intro i body found
    rw [olds, news, found, Option.map_some]
    constructor
    · intro unchanged
      rw [damaged.extract_of_kept found unchanged, Option.map_some]
    · rintro ⟨result, isResult, authentic⟩ front ⟨q, -, inside, altered⟩
      rw [← Option.some.inj isResult] at authentic
      obtain ⟨other, found', size, same, different⟩ :=
        damaged.exists_of_altered found (Nat.sub_le _ _) front inside altered
      rw [found', Option.map_some, openAt_of_tag authentic size same different]

theorem receiveRead_of_damaged_tag :
    let keys := sampleServer
    let before : Bytes := sealedFrame keys.readKey 0 [1, 2, 3] ++ [0, 0, 1, 7]
    let after := before.modify 21 (· + 1)
    let old := (keys.receiveRead (Codec.raw Empty) { raw := before }).1
    let new := (keys.receiveRead (Codec.raw Empty) { raw := after }).1
    Frame.Damaged before after ∧
      old[0]? = some (.ok [1, 2, 3]) ∧ new[0]? = some (.error (.aead .decrypt)) ∧
      old[1]? = some (.error (.aead (.missingTag 1))) ∧ new[1]? = old[1]? := by
  intro keys before after old new
  let accepted := Aead.encrypt keys.readKey (.ofCounter 0) none [1, 2, 3]
  have size : accepted.length = 19 := Aead.length_encrypt
  have frames : Frame.extract before = [accepted, [7]] := by
    have first : Frame.encode accepted = .ok (sealedFrame keys.readKey 0 [1, 2, 3]) :=
      write_encrypt (by decide) keys.readKey 0
    have others : [[7]].mapM Frame.encode = .ok [[0, 0, 1, 7]] := rfl
    exact Frame.extract_flatten (Frame.mapM_encode_cons.2 ⟨_, _, first, others, rfl⟩)
  have length : before.length = 26 := by
    simp [before, sealedFrame, Frame.headerSize, Aead.tagSize, Gcm.tagSize]
  have start : Frame.bodyStart [accepted, [7]] 0 = 3 := Frame.bodyStart_zero
  have start' : Frame.bodyStart [accepted, [7]] 1 = 25 := by
    rw [Frame.bodyStart_succ, Frame.bodyStart_zero, size]
    rfl
  have elsewhere {p : Nat} (h : p ≠ 21) : after[p]? = before[p]? :=
    List.getElem?_modify_ne _ _ (Ne.symm h)
  have altered : after[21]? ≠ before[21]? := by
    rw [List.getElem?_modify_eq, List.getElem?_eq_getElem (by omega)]
    simp
  have damaged : Frame.Damaged before after := by
    refine ⟨List.length_modify _ _ _, fun p outside => elsewhere ?_⟩
    rintro rfl
    apply outside 0
    rw [frames]
    exact ⟨accepted, rfl, by omega, by omega⟩
  have receives : old = [openAt (Codec.raw Empty) keys.readKey 0 accepted,
      .error (.aead (.missingTag 1))] := by
    have stands : keys.readCounter = .ofNat 0 := Counter.startAt_eq_ofNat 0
    rw [show old = _ from congrArg Prod.fst (receiveRead_eq stands _), frames]
    rfl
  have opened : openAt (Codec.raw Empty) keys.readKey 0 accepted = .ok [1, 2, 3] :=
    openAt_encrypt (by decide)
  have first : old[0]? = some (.ok [1, 2, 3]) := by
    rw [receives, opened]
    rfl
  have second : old[1]? = some (.error (.aead (.missingTag 1))) := by
    rw [receives]
    rfl
  have kept {i q : Nat} (h : Frame.bodyStart [accepted, [7]] i + q ≠ 21) :
      Frame.Kept before after i q := by
    rw [Frame.Kept, frames]
    exact elsewhere h
  have notKept : ¬Frame.Kept before after 0 18 := by rwa [Frame.Kept, frames, start]
  obtain ⟨-, -, results⟩ := receiveRead_of_damaged (Codec.raw Empty) keys damaged
  obtain ⟨-, refused⟩ := results 0 accepted (by rw [frames]; rfl)
  obtain ⟨unchanged, -⟩ := results 1 [7] (by rw [frames]; rfl)
  refine ⟨damaged, first, refused ⟨_, first, .inl ⟨_, rfl⟩⟩ ?_ ?_, second, unchanged ?_⟩
  · exact fun q inside => kept (by omega)
  · exact ⟨18, by omega, by omega, notKept⟩
  · exact fun q inside => kept (by omega)

end SessionKeys

end SealedChat
