import SealedChat.Frame

namespace SealedChat.Frame

def Unfinished (rest : Bytes) : Prop :=
  rest.length < 3 ∨
    ∃ a b c tail, rest = a :: b :: c :: tail ∧
      tail.length < 65536 * a.toNat + 256 * b.toNat + c.toNat

theorem checkSize_eq_ok_iff {size maxFrameSize : Nat} :
    checkSize size maxFrameSize = .ok () ↔ size ≤ min maxFrameSize maxSize := by
  unfold checkSize
  dsimp only
  split
  · next h => exact iff_of_true rfl h
  · next h => exact iff_of_false nofun h

theorem write_eq_ok_iff {maxFrameSize : Nat} {body frame : Bytes} :
    write maxFrameSize body = .ok frame ↔
      body.length ≤ min maxFrameSize maxSize ∧
        frame = Bytes.ofNat headerSize body.length ++ body := by
  unfold write
  rw [← checkSize_eq_ok_iff]
  cases checkSize body.length maxFrameSize with
  | error e => exact iff_of_false nofun (fun h => nomatch h.1)
  | ok u =>
    constructor
    · intro h
      exact ⟨rfl, (Except.ok.inj h).symm⟩
    · rintro ⟨-, rfl⟩
      rfl

theorem encode_eq_ok_iff {body frame : Bytes} :
    encode body = .ok frame ↔
      body.length ≤ maxSize ∧ frame = Bytes.ofNat headerSize body.length ++ body := by
  rw [encode, write_eq_ok_iff, Nat.min_self]

theorem first?_eq_some_iff {buffer body rest : Bytes} :
    first? buffer = some (body, rest) ↔
      ∃ frame, encode body = .ok frame ∧ buffer = frame ++ rest := by
  simp only [first?, Option.bind_eq_bind, Option.bind_eq_some_iff, Prod.exists,
    Bytes.cut?_eq_some_iff, encode_eq_ok_iff]
  constructor
  · rintro ⟨header, tail, ⟨rfl, width⟩, rfl, size⟩
    refine ⟨header ++ body, ⟨?_, ?_⟩, (List.append_assoc _ _ _).symm⟩
    · have bound := Bytes.toNat_lt header
      rw [width] at bound
      exact size ▸ Nat.le_of_lt_succ bound
    · rw [size, ← width, Bytes.ofNat_toNat]
  · rintro ⟨frame, ⟨bound, rfl⟩, rfl⟩
    refine ⟨_, body ++ rest, ⟨List.append_assoc _ _ _, Bytes.length_ofNat _ _⟩, rfl, ?_⟩
    exact (Bytes.toNat_ofNat (Nat.lt_succ_of_le bound)).symm

theorem first?_eq_none_iff {buffer : Bytes} : first? buffer = none ↔ Unfinished buffer := by
  match buffer with
  | [] | [_] | [_, _] => exact iff_of_true rfl (.inl (by simp))
  | a :: b :: c :: tail =>
    have length : Bytes.toNat [a, b, c] = 65536 * a.toNat + 256 * b.toNat + c.toNat := by
      simp only [Bytes.toNat, List.foldl_cons, List.foldl_nil]
      omega
    have cut : first? (a :: b :: c :: tail) = Bytes.cut? (Bytes.toNat [a, b, c]) tail := rfl
    rw [cut, Bytes.cut?_eq_none_iff, length]
    constructor
    · intro h
      exact .inr ⟨a, b, c, tail, rfl, h⟩
    · rintro (short | ⟨_, _, _, _, same, h⟩)
      · simp only [List.length_cons] at short
        omega
      · cases same
        exact h

theorem scan_none {buffer : Bytes} (h : first? buffer = none) : scan buffer = ([], buffer) := by
  rw [scan]
  split
  · rfl
  · next found => cases h.symm.trans found

theorem scan_some {buffer body rest : Bytes} (h : first? buffer = some (body, rest)) :
    scan buffer = (body :: (scan rest).1, (scan rest).2) := by
  rw [scan]
  split
  · next found => cases h.symm.trans found
  · next found =>
    cases h.symm.trans found
    rfl

theorem mapM_encode_cons {body : Bytes} {bodies frames : List Bytes} :
    (body :: bodies).mapM encode = .ok frames ↔
      ∃ frame more, encode body = .ok frame ∧ bodies.mapM encode = .ok more ∧
        frames = frame :: more := by
  rw [List.mapM_cons]
  cases encode body with
  | error e => exact iff_of_false nofun (fun ⟨_, _, h, _⟩ => nomatch h)
  | ok frame =>
    cases bodies.mapM encode with
    | error e => exact iff_of_false nofun (fun ⟨_, _, _, h, _⟩ => nomatch h)
    | ok more =>
      constructor
      · intro h
        exact ⟨frame, more, rfl, rfl, (Except.ok.inj h).symm⟩
      · rintro ⟨_, _, ⟨⟩, ⟨⟩, rfl⟩
        rfl

theorem scan_eq_iff {buffer : Bytes} {bodies : List Bytes} {rest : Bytes} :
    scan buffer = (bodies, rest) ↔
      (∃ frames, bodies.mapM encode = .ok frames ∧ buffer = frames.flatten ++ rest) ∧
        Unfinished rest := by
  constructor
  -- A scan follows the reader; the other way follows the bodies, as the frames are given by them.
  · intro h
    fun_induction scan buffer generalizing bodies rest with
    | case1 buffer none =>
      cases h
      exact ⟨⟨[], rfl, rfl⟩, first?_eq_none_iff.1 none⟩
    | case2 buffer body tail found _ bodies' unread more ih =>
      cases h
      obtain ⟨⟨frames, encoded, rfl⟩, unfinished⟩ := ih more
      obtain ⟨frame, first, rfl⟩ := first?_eq_some_iff.1 found
      refine ⟨⟨frame :: frames, ?_, ?_⟩, unfinished⟩
      · exact mapM_encode_cons.2 ⟨frame, frames, first, encoded, rfl⟩
      · rw [List.flatten_cons, List.append_assoc]
  · rintro ⟨⟨frames, encoded, rfl⟩, unfinished⟩
    induction bodies generalizing frames with
    | nil =>
      cases encoded
      exact scan_none (first?_eq_none_iff.2 unfinished)
    | cons body bodies ih =>
      obtain ⟨frame, more, first, others, rfl⟩ := mapM_encode_cons.1 encoded
      rw [List.flatten_cons, List.append_assoc,
        scan_some (first?_eq_some_iff.2 ⟨frame, first, rfl⟩),
        ih more others]

theorem extract_nil : extract [] = [] := by
  rw [extract, scan_none rfl]

theorem extract_append {body frame : Bytes} (h : encode body = .ok frame) (rest : Bytes) :
    extract (frame ++ rest) = body :: extract rest := by
  rw [extract, scan_some (first?_eq_some_iff.2 ⟨frame, h, rfl⟩)]
  rfl

theorem extract_eq_iff (buffer : Bytes) (bodies : List Bytes) :
    (extract buffer = bodies ↔
      ∃ frames rest, bodies.mapM encode = .ok frames ∧ buffer = frames.flatten ++ rest ∧
        Unfinished rest) ∧
      ∀ payload, (∃ frame, encode payload = .ok frame) ↔ payload.length ≤ 0xFFFFFF := by
  refine ⟨⟨?_, ?_⟩, ?_⟩
  · intro h
    have scanned : scan buffer = (bodies, unread buffer) := by rw [← h]; rfl
    obtain ⟨⟨frames, encoded, split⟩, unfinished⟩ := scan_eq_iff.1 scanned
    exact ⟨frames, unread buffer, encoded, split, unfinished⟩
  · rintro ⟨frames, rest, encoded, split, unfinished⟩
    exact congrArg Prod.fst (scan_eq_iff.2 ⟨⟨frames, encoded, split⟩, unfinished⟩)
  · intro payload
    constructor
    · rintro ⟨frame, h⟩
      exact (encode_eq_ok_iff.1 h).1
    · intro bound
      exact ⟨_, encode_eq_ok_iff.2 ⟨bound, rfl⟩⟩

end SealedChat.Frame
