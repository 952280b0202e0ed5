import SealedChat.Cbor.Container

/-!
Reading is sequential: a decoder that gives a value has read just the bytes in front of what is
left. Whatever is behind them, it gives the same value, and if they are cut short, it misses the
rest.

This holds of every accepted form, as each decoder is put together from bytes that are taken one
after the other.
-/

namespace SealedChat.Cbor

variable {α β σ : Type}

/-- From the offset on, the decoder reads the value from just these bytes. -/
structure Consumes (decoder : Decoder α) (offset : Nat) (bytes : Bytes) (value : α) : Prop where
  whole : ∀ rest, decoder ⟨offset, bytes ++ rest⟩ = .ok (value, ⟨offset + bytes.length, rest⟩)
  cut : ∀ front, front <+: bytes → front ≠ bytes → decoder ⟨offset, front⟩ = .error .truncated

def SequentialAt (decoder : Decoder α) (reader : Reader) : Prop :=
  ∀ value after, decoder reader = .ok (value, after) →
    ∃ bytes, reader.rest = bytes ++ after.rest ∧ Consumes decoder reader.offset bytes value

def Sequential (decoder : Decoder α) : Prop :=
  ∀ reader, SequentialAt decoder reader

open Decoder

theorem Consumes.offset_eq {decoder : Decoder α} {reader after : Reader} {bytes : Bytes}
    {value other : α} (h : Consumes decoder reader.offset bytes value)
    (split : reader.rest = bytes ++ after.rest) (read : decoder reader = .ok (other, after)) :
    after.offset = reader.offset + bytes.length := by
  have whole := h.whole after.rest
  rw [← split] at whole
  exact congrArg (Reader.offset ·.2) (Except.ok.inj (read.symm.trans whole))

theorem cut_append {part front back : Bytes} (h : part <+: front ++ back)
    (short : part ≠ front ++ back) :
    (part <+: front ∧ part ≠ front) ∨
      ∃ more, part = front ++ more ∧ more <+: back ∧ more ≠ back := by
  obtain inFront | ⟨more, rfl⟩ :=
    List.prefix_or_prefix_of_prefix h (List.prefix_append front back)
  · by_cases whole : part = front
    · refine .inr ⟨[], by rw [whole, List.append_nil], List.nil_prefix, ?_⟩
      rintro rfl
      exact short (by rw [whole, List.append_nil])
    · exact .inl ⟨inFront, whole⟩
  · refine .inr ⟨more, rfl, (List.prefix_append_right_inj front).1 h, ?_⟩
    rintro rfl
    exact short rfl

theorem SequentialAt.bind {decoder : Decoder α} {next : α → Decoder β} {reader : Reader}
    (first : SequentialAt decoder reader)
    (second : ∀ value after, decoder reader = .ok (value, after) →
      SequentialAt (next value) after) : SequentialAt (decoder >>= next) reader := by
  intro last after h
  obtain ⟨value, middle, read, read'⟩ := exists_of_bind_ok h
  obtain ⟨front, split, consumes⟩ := first value middle read
  obtain ⟨back, split', consumes'⟩ := second value middle read last after read'
  rw [consumes.offset_eq split read] at consumes'
  refine ⟨front ++ back, by rw [split, split', List.append_assoc], ?_, ?_⟩
  · intro rest
    rw [List.append_assoc, bind_of_ok (consumes.whole _), consumes'.whole, List.length_append,
      Nat.add_assoc]
  · intro part isCut short
    -- Either the first decoder misses bytes, or it has all of its own and the second misses some.
    rcases cut_append isCut short with ⟨isCut, short⟩ | ⟨more, rfl, isCut, short⟩
    · exact bind_of_error (consumes.cut part isCut short)
    · rw [bind_of_ok (consumes.whole more)]
      exact consumes'.cut more isCut short

theorem Consumes.nil {decoder : Decoder α} {offset : Nat} {value : α}
    (h : ∀ rest, decoder ⟨offset, rest⟩ = .ok (value, ⟨offset, rest⟩)) :
    Consumes decoder offset [] value :=
  ⟨h, fun _ isCut short => absurd (List.prefix_nil.1 isCut) short⟩

namespace Sequential

theorem pure (value : α) : Sequential (pure value) := by
  rintro reader _ _ ⟨⟩
  exact ⟨[], rfl, .nil fun _ => rfl⟩

theorem fail (error : DecodeError) : Sequential (Decoder.fail error : Decoder α) :=
  nofun

theorem refuse (cause : Mismatch) : Sequential (Decoder.refuse cause : Decoder α) :=
  nofun

theorem bind {decoder : Decoder α} {next : α → Decoder β} (first : Sequential decoder)
    (second : ∀ value, Sequential (next value)) : Sequential (decoder >>= next) :=
  fun reader => (first reader).bind fun value after _ => second value after

theorem choice {isOne : Prop} [Decidable isOne] {yes no : Decoder α} (first : Sequential yes)
    (second : Sequential no) : Sequential (if isOne then yes else no) := by
  split
  · exact first
  · exact second

theorem place : Sequential Decoder.place := by
  rintro reader _ _ ⟨⟩
  exact ⟨[], rfl, .nil fun _ => rfl⟩

theorem byte : Sequential Decoder.byte := by
  rintro ⟨offset, bytes⟩ value after h
  cases bytes with
  | nil => cases h
  | cons b rest =>
    obtain ⟨rfl, rfl⟩ := Prod.mk.inj (Except.ok.inj h)
    refine ⟨[b], rfl, fun _ => rfl, fun front isCut short => ?_⟩
    rcases List.prefix_cons_iff.1 isCut with rfl | ⟨more, rfl, inside⟩
    · rfl
    · exact absurd (congrArg (b :: ·) (List.prefix_nil.1 inside)) short

theorem take (n : Nat) : Sequential (Decoder.take n) := by
  rintro ⟨offset, bytes⟩ value after h
  rw [Decoder.take] at h
  split at h
  · next front rest found =>
    obtain ⟨rfl, rfl⟩ := Prod.mk.inj (Except.ok.inj h)
    obtain ⟨rfl, rfl⟩ := Bytes.cut?_eq_some_iff.1 found
    refine ⟨front, rfl, fun rest => ?_, fun part isCut short => ?_⟩
    · rw [Decoder.take, Bytes.cut?_eq_some_iff.2 ⟨rfl, rfl⟩]
    · have shorter : part.length < front.length :=
        Nat.lt_of_le_of_ne isCut.length_le fun same => short (isCut.eq_of_length same)
      rw [Decoder.take, Bytes.cut?_eq_none_iff.2 shorter]
  · cases h

theorem nextItem : Sequential Decoder.nextItem := by
  refine .bind .place fun start => .bind .byte fun first => ?_
  dsimp only
  split
  · exact .pure _
  · exact .bind (.take _) fun _ => .pure _
  · split
    · exact .pure _
    · exact .fail _
  · exact .fail _

end Sequential

theorem Consumes.ne_nil {body : Item → Decoder α} {offset : Nat} {bytes : Bytes} {value : α}
    (h : Consumes (nextItem >>= body) offset bytes value) : bytes ≠ [] := by
  rintro rfl
  cases h.whole []

theorem repeatWithin_nil {body : σ → Item → Decoder (σ ⊕ α)} (bound : Bytes) (s : σ)
    (offset : Nat) :
    repeatWithin .truncated (fun s => nextItem >>= body s) bound s ⟨offset, []⟩ =
      .error .truncated := by
  cases bound with
  | nil => rfl
  | cons b bound =>
    rw [repeatWithin]
    exact bind_of_error rfl

section

variable {body : σ → Item → Decoder (σ ⊕ α)} (h : ∀ s item, Sequential (body s item))

include h

theorem length_lt_of_step {s : σ} {reader after : Reader} {result : σ ⊕ α}
    (read : (nextItem >>= body s) reader = .ok (result, after)) :
    after.rest.length < reader.rest.length := by
  obtain ⟨bytes, split, consumes⟩ := (Sequential.nextItem.bind (h s)) reader result after read
  rw [split, List.length_append]
  exact Nat.lt_add_of_pos_left (List.length_pos_iff.2 consumes.ne_nil)

theorem repeatWithin_congr {bound bound' : Bytes} {s : σ} {reader : Reader}
    (enough : reader.rest.length ≤ bound.length) (enough' : reader.rest.length ≤ bound'.length) :
    repeatWithin .truncated (fun s => nextItem >>= body s) bound s reader =
      repeatWithin .truncated (fun s => nextItem >>= body s) bound' s reader := by
  induction bound generalizing bound' s reader with
  | nil =>
    obtain ⟨offset, rest⟩ := reader
    obtain rfl := List.length_eq_zero_iff.1 (Nat.le_zero.1 enough)
    rw [repeatWithin_nil, repeatWithin_nil]
  | cons b bound ih =>
    cases bound' with
    | nil =>
      obtain ⟨offset, rest⟩ := reader
      obtain rfl := List.length_eq_zero_iff.1 (Nat.le_zero.1 enough')
      rw [repeatWithin_nil, repeatWithin_nil]
    | cons b' bound' =>
      rw [repeatWithin, repeatWithin]
      cases read : (nextItem >>= body s) reader with
      | error error => rw [bind_of_error read, bind_of_error read]
      | ok next =>
        obtain ⟨result, after⟩ := next
        have shorter := length_lt_of_step h read
        rw [bind_of_ok read, bind_of_ok read]
        cases result with
        | inl s =>
          exact ih (Nat.le_of_lt_succ (Nat.lt_of_lt_of_le shorter enough))
            (Nat.le_of_lt_succ (Nat.lt_of_lt_of_le shorter enough'))
        | inr value => rfl

theorem repeatUntil_eq (s : σ) :
    Decoder.repeatUntil (fun s => nextItem >>= body s) s = (nextItem >>= body s) >>= fun
      | .inl s => Decoder.repeatUntil (fun s => nextItem >>= body s) s
      | .inr value => pure value := by
  funext ⟨offset, rest⟩
  change repeatWithin .truncated (fun s => nextItem >>= body s) rest s ⟨offset, rest⟩ = _
  cases rest with
  | nil =>
    have first : (nextItem >>= body s) ⟨offset, []⟩ = .error .truncated := bind_of_error rfl
    rw [repeatWithin_nil, bind_of_error first]
  | cons b rest =>
    rw [repeatWithin]
    cases read : (nextItem >>= body s) ⟨offset, b :: rest⟩ with
    | error error => rw [bind_of_error read, bind_of_error read]
    | ok next =>
      obtain ⟨result, after⟩ := next
      rw [bind_of_ok read, bind_of_ok read]
      cases result with
      | inl s =>
        exact repeatWithin_congr h (Nat.le_of_lt_succ (length_lt_of_step h read)) (Nat.le_refl _)
      | inr value => rfl

theorem Sequential.repeatUntil (s : σ) :
    Sequential (Decoder.repeatUntil (fun s => Decoder.nextItem >>= body s) s) := by
  intro reader
  -- The bytes that are left get fewer with each step, so the loop is a step and a shorter loop.
  induction size : reader.rest.length using Nat.strongRecOn generalizing s reader with
  | ind n ih =>
    rw [repeatUntil_eq h]
    refine ((nextItem.bind (h s)) reader).bind fun result after read => ?_
    cases result with
    | inl s => exact ih _ (size ▸ length_lt_of_step h read) s after rfl
    | inr value => exact pure value after

end

namespace Sequential

theorem settled (item : Item) : Sequential item.settled := by
  unfold Item.settled
  split
  · exact .bind .place fun _ => .pure _
  · exact .pure _

theorem passTags (item : Item) (keep : Nat → Bool) : Sequential (Decoder.passTags item keep) := by
  unfold Decoder.passTags
  split
  · refine repeatUntil (fun _ item => ?_) ()
    split
    · exact .pure _
    · exact .pure _
  · exact .pure _

theorem content {length? : Header → Option (Option Nat)}
    {segment : (offset length : Nat) → σ → Decoder σ}
    (h : ∀ offset length s, Sequential (segment offset length s)) (length : Option Nat) (s : σ) :
    Sequential (Decoder.content length? segment length s) := by
  cases length with
  | some length => exact .bind .place fun _ => h _ _ _
  | none =>
    refine repeatUntil (fun s item => ?_) (0, s)
    obtain ⟨depth, s⟩ := s
    dsimp only
    split
    · exact .pure _
    · exact .pure _
    · split
      · exact .bind (h _ _ _) fun _ => .pure _
      · exact .pure _
      · exact .fail _

theorem bytesContent (length : Option Nat) : Sequential (Decoder.bytesContent length) :=
  .bind (content (fun _ _ _ => .bind (take _) fun _ => .pure _) _ _) fun _ => .pure _

theorem textPieces (offset remaining : Nat) (carry : Carry) (text : String) :
    Sequential (Decoder.textPieces offset remaining carry text) := by
  induction remaining using Nat.strongRecOn generalizing carry text with
  | ind remaining ih =>
    rw [Decoder.textPieces]
    split
    · split
      · exact .pure _
      · exact .fail _
    · refine .bind (take _) fun piece => ?_
      split
      split
      · have room := carry.property
        refine ih _ ?_ _ _
        simp only [pieceSize]
        omega
      · exact .fail _

theorem textContent (length : Option Nat) : Sequential (Decoder.textContent length) :=
  content (fun _ _ _ => textPieces _ _ _ _) length ""

theorem text (item : Item) : Sequential (Decoder.text item) := by
  refine .bind (passTags item _) fun item => ?_
  split
  · exact textContent _
  · exact .refuse _

theorem significant (remaining : Nat) (number : Bytes) :
    Sequential (Decoder.significant remaining number) := by
  induction remaining using Nat.strongRecOn generalizing number with
  | ind remaining ih =>
    rw [Decoder.significant]
    split
    · exact .pure _
    · refine .bind (take _) fun piece => ?_
      dsimp only
      split
      · exact .refuse _
      · refine ih _ ?_ _
        simp only [significantSize]
        omega

theorem integer (item : Item) : Sequential (Decoder.integer item) := by
  refine .bind (passTags item _) fun item => ?_
  split
  · exact .pure _
  · exact .pure _
  · refine .bind nextItem fun next => ?_
    split
    · exact .bind (content (fun _ _ _ => significant _ _) _ _) fun _ => .pure _
    · exact .refuse _
  · exact .refuse _

theorem unsigned (item : Item) : Sequential (Decoder.unsigned item) := by
  refine .bind (integer item) fun n => ?_
  split
  · exact .refuse _
  · split
    · exact .refuse _
    · exact .pure _

theorem signed (item : Item) : Sequential (Decoder.signed item) := by
  refine .bind (integer item) fun n => ?_
  split
  · exact .refuse _
  · exact .pure _

theorem octet (item : Item) : Sequential (Decoder.octet item) := by
  refine .bind (unsigned item) fun n => ?_
  split
  · exact .refuse _
  · exact .pure _

theorem bool (item : Item) : Sequential (Decoder.bool item) := by
  refine .bind (passTags item _) fun item => ?_
  split
  · exact .pure _
  · exact .pure _
  · exact .fail _

theorem times {step : Item → σ → Decoder σ} (h : ∀ item s, Sequential (step item s)) (count : Nat)
    (s : σ) : Sequential (Decoder.times step count s) := by
  induction count generalizing s with
  | zero => exact .pure _
  | succ count ih => exact .bind nextItem fun item => .bind (h item s) ih

theorem untilStop {step : Item → σ → Decoder σ} (h : ∀ item s, Sequential (step item s)) (s : σ) :
    Sequential (Decoder.untilStop step s) := by
  refine repeatUntil (fun s item => ?_) s
  split
  · exact .pure _
  · exact .bind (settled item) fun item => .bind (h item s) fun _ => .pure _

theorem entries {step : Item → σ → Decoder σ} (h : ∀ item s, Sequential (step item s))
    (count : Option Nat) (s : σ) : Sequential (Decoder.entries count step s) := by
  cases count with
  | none => exact untilStop h s
  | some count => exact times h count s

theorem passNumber (tag length : Nat) : Sequential (Decoder.passNumber tag length) := by
  refine .bind (take _) fun bytes => ?_
  dsimp only
  split
  · exact .refuse _
  · exact .pure _

theorem passTagged {value : Item → Decoder Unit} (h : ∀ item, Sequential (value item)) (tag : Nat) :
    Sequential (Decoder.passTagged tag value) := by
  refine .bind nextItem fun next => ?_
  split
  · exact passNumber _ _
  · exact h next

theorem discard {decoder : Decoder α} (h : Sequential decoder) :
    Sequential (Functor.discard decoder) :=
  h.bind fun _ => .pure ()

theorem pass (levels : Nat) (item : Item) : Sequential (Decoder.pass levels item) := by
  fun_induction Decoder.pass levels item with
  | case1 | case2 | case3 => exact .pure _
  | case4 => exact discard (bytesContent _)
  | case5 => exact discard (textContent _)
  | case6 => exact .pure _
  | case7 | case8 => exact .refuse _
  | case9 | case10 => exact .fail _
  | case11 _ _ _ _ ih => exact entries (fun item _ => ih item) _ ()
  | case12 _ _ _ _ ih =>
    exact entries (fun key _ => .bind (ih key) fun _ => .bind nextItem fun item => ih item) _ ()
  | case13 => exact passTagged (fun _ => .fail _) _
  | case14 _ _ _ _ ih => exact passTagged ih _

theorem option {value : Item → Decoder α} (h : ∀ item, Sequential (value item)) (item : Item) :
    Sequential (Decoder.option value item) := by
  unfold Decoder.option
  split
  · exact .pure _
  · exact .pure _
  · exact .bind (settled item) fun item => .bind (h item) fun _ => .pure _

theorem enter {body : (levels : Nat) → Decoder α} (h : ∀ levels, Sequential (body levels))
    (levels : Nat) : Sequential (Decoder.enter levels body) := by
  cases levels with
  | zero => exact .fail _
  | succ levels => exact h levels

theorem sequence {element : (levels : Nat) → Item → Decoder α} {ofByte : UInt8 → Except Mismatch α}
    (h : ∀ levels item, Sequential (element levels item)) (levels : Nat) (item : Item) :
    Sequential (Decoder.sequence levels element ofByte item) := by
  refine .bind (passTags item _) fun item => ?_
  split
  · refine enter (fun levels => .bind (entries (fun item read => ?_) _ _) fun _ => .pure _) levels
    exact .bind (h levels item) fun _ => .pure _
  · refine .bind (bytesContent _) fun bytes => ?_
    split
    · exact .pure _
    · exact .refuse _
  · exact .refuse _

theorem byteString (levels : Nat) (item : Item) : Sequential (Decoder.byteString levels item) := by
  refine .bind (passTags item _) fun item => ?_
  split
  · exact bytesContent _
  · refine enter (fun levels => .bind (entries (fun item read => ?_) _ _) fun _ => .pure _) levels
    exact .bind (octet item) fun _ => .pure _
  · exact .refuse _

theorem map {entry : (levels : Nat) → Item → σ → Decoder σ}
    (h : ∀ levels item s, Sequential (entry levels item s)) (levels : Nat) (s : σ) (item : Item) :
    Sequential (Decoder.map levels entry s item) := by
  refine .bind (passTags item _) fun item => ?_
  split
  · exact enter (fun levels => entries (h levels) _ s) levels
  · exact .refuse _

theorem name (item : Item) : Sequential (Decoder.name item) := by
  refine .bind (passTags item _) fun item => ?_
  split
  · split
    · refine .bind (take _) fun bytes => ?_
      split
      · exact .pure _
      · exact .fail _
    · exact .refuse _
  · split
    · exact take _
    · exact .refuse _
  · exact .refuse _

theorem passValue (levels : Nat) : Sequential (Decoder.passValue levels) :=
  .bind nextItem fun item => pass levels item

theorem field {name : String} {value : Item → Decoder α} (h : ∀ item, Sequential (value item))
    (slot : Option α) : Sequential (Decoder.field name value slot) := by
  unfold Decoder.field
  have read : Sequential (do return some (← value (← Decoder.nextItem))) :=
    .bind nextItem fun item => .bind (h item) fun _ => .pure _
  split
  · exact .bind (.refuse _) fun _ => read
  · exact read

theorem slot {name : String} {value : Item → Decoder α} (h : ∀ item, Sequential (value item))
    (read : Option α) (fill : Option α → σ) :
    Sequential (do return fill (← Decoder.field name value read)) :=
  .bind (field h read) fun _ => .pure _

theorem unknown (levels : Nat) (fields : σ) :
    Sequential (do Decoder.passValue levels; return fields) :=
  .bind (passValue levels) fun _ => .pure _

theorem required {name : String} (slot : Option α) : Sequential (Decoder.required name slot) := by
  cases slot with
  | none => exact .refuse _
  | some value => exact .pure value

theorem record {fields : (levels : Nat) → (name : Bytes) → σ → Decoder σ}
    (h : ∀ levels name s, Sequential (fields levels name s)) (levels : Nat) (s : σ) (item : Item) :
    Sequential (Decoder.record levels fields s item) :=
  map (fun levels item s => .bind (name item) fun name => h levels name s) levels s item

end Sequential

end SealedChat.Cbor
