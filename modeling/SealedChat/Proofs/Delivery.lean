import SealedChat.Proofs.Connection
import SealedChat.Proofs.Receiving
import SealedChat.Proofs.Sending

namespace SealedChat

variable {ν ε : Type} {codec : Codec ν ε}

namespace SessionKeys

theorem receiveAll_sealedStream {keys : SessionKeys} {place : Nat} {plaintexts : List Bytes}
    (stands : keys.readCounter = .ofNat place)
    (fits : ∀ plaintext ∈ plaintexts, Fits plaintext)
    (bounded : place + plaintexts.length ≤ UInt64.size) :
    keys.receiveAll codec (Frame.extract (sealedStream keys.readKey place plaintexts)) =
      (plaintexts.map fun plaintext => (codec.decode plaintext).mapError .codec,
        { keys with readCounter := .ofNat (place + plaintexts.length) }) := by
  induction plaintexts generalizing keys place with
  | nil =>
    rw [sealedStream, Frame.extract_nil, receiveAll, List.length_nil, Nat.add_zero, ← stands]
    rfl
  | cons plaintext plaintexts ih =>
    let next : SessionKeys := { keys with readCounter := .ofNat (place + 1) }
    have length : place + 1 + plaintexts.length = place + (plaintexts.length + 1) := by omega
    rw [List.length_cons] at bounded
    have others := ih (show next.readCounter = .ofNat (place + 1) from rfl)
      (fun p member => fits p (List.mem_cons_of_mem _ member)) (by omega)
    rw [sealedStream, extract_sealedFrame (fits _ List.mem_cons_self), receiveAll,
      receive_eq stands, openAt_encrypt (by omega)]
    dsimp only
    rw [others, length]
    rfl

end SessionKeys

def sealedOutputs (key : Aead.Key) : (place : Nat) → List (List Bytes) → List Bytes
  | _, [] => []
  | place, plaintexts :: calls =>
    sealedStream key place plaintexts :: sealedOutputs key (place + plaintexts.length) calls

theorem length_sealedOutputs (key : Aead.Key) (place : Nat) (calls : List (List Bytes)) :
    (sealedOutputs key place calls).length = calls.length := by
  induction calls generalizing place with
  | nil => rfl
  | cons plaintexts calls ih => rw [sealedOutputs, List.length_cons, List.length_cons, ih]

theorem sealedOutputs_append (key : Aead.Key) (place : Nat) (first second : List (List Bytes)) :
    sealedOutputs key place (first ++ second) =
      sealedOutputs key place first ++ sealedOutputs key (place + first.flatten.length) second := by
  induction first generalizing place with
  | nil => rfl
  | cons plaintexts first ih =>
    rw [List.cons_append, sealedOutputs, sealedOutputs, ih, List.flatten_cons, List.length_append,
      Nat.add_assoc, List.cons_append]

theorem take_sealedOutputs (key : Aead.Key) (place n : Nat) (calls : List (List Bytes)) :
    (sealedOutputs key place calls).take n = sealedOutputs key place (calls.take n) := by
  induction calls generalizing place n with
  | nil => rw [sealedOutputs, List.take_nil, List.take_nil, sealedOutputs]
  | cons plaintexts calls ih =>
    cases n with
    | zero => rfl
    | succ n => rw [sealedOutputs, List.take_succ_cons, ih, List.take_succ_cons, sealedOutputs]

theorem drop_sealedOutputs (key : Aead.Key) (place n : Nat) (calls : List (List Bytes)) :
    (sealedOutputs key place calls).drop n =
      sealedOutputs key (place + (calls.take n).flatten.length) (calls.drop n) := by
  induction calls generalizing place n with
  | nil => rw [sealedOutputs, List.drop_nil, List.drop_nil, sealedOutputs]
  | cons plaintexts calls ih =>
    cases n with
    | zero => rfl
    | succ n =>
      rw [sealedOutputs, List.drop_succ_cons, ih, List.take_succ_cons, List.flatten_cons,
        List.length_append, Nat.add_assoc, List.drop_succ_cons]

theorem flatten_sealedOutputs (key : Aead.Key) (place : Nat) (calls : List (List Bytes)) :
    (sealedOutputs key place calls).flatten = sealedStream key place calls.flatten := by
  induction calls generalizing place with
  | nil => rfl
  | cons plaintexts calls ih =>
    rw [sealedOutputs, List.flatten_cons, ih, List.flatten_cons, sealedStream_append]

namespace Payload

def bytes (codec : Codec ν ε) : Payload ν → Bytes
  | .node n => (codec.encode n).toOption.getD []
  | .plaintext p => p

def received (codec : Codec ν ε) (payload : Payload ν) : Except (ReceiveError ε) ν :=
  (codec.decode (payload.bytes codec)).mapError .codec

theorem received_eq_result {payload : Payload ν}
    (faithful : ∀ n, payload = .node n → (codec.encode n >>= codec.decode) = .ok n) :
    payload.received codec = payload.result codec := by
  cases payload with
  | plaintext p => rfl
  | node n =>
    have back := faithful n rfl
    rw [received, bytes, result]
    cases encoded : codec.encode n with
    | error e =>
      rw [encoded] at back
      cases back
    | ok p =>
      rw [encoded] at back
      have decoded : codec.decode p = .ok n := back
      rw [Except.toOption, Option.getD_some, decoded]
      rfl

end Payload

theorem flatten_take_append_drop {α : Type} (calls : List (List α)) (n : Nat) :
    (calls.take n).flatten ++ (calls.drop n).flatten = calls.flatten := by
  rw [← List.flatten_append, List.take_append_drop]

namespace Connection

/-- The direction towards one side: its line holds the outputs of some calls, numbered from the
place of the reader to the place of the writer. -/
structure InStep (codec : Codec ν ε) (c : Connection) (side : Side) (place : Nat)
    (waiting : List (List (Payload ν))) : Prop where
  key : (c side).keys.readKey = (c side.other).keys.writeKey
  reader : (c side).keys.readCounter = .ofNat place
  writer : (c side.other).keys.writeCounter = .ofNat (place + waiting.flatten.length)
  bounded : place + waiting.flatten.length ≤ UInt64.size
  inbox : (c side).inbox =
    sealedOutputs (c side).keys.readKey place (waiting.map (·.map (Payload.bytes codec)))
  fits : ∀ payload ∈ waiting.flatten, Fits (payload.bytes codec)

variable {c next : Connection} {side : Side} {place : Nat} {waiting : List (List (Payload ν))}
  {sender : Sender} {keys : SessionKeys}

theorem InStep.congr (h : InStep codec c side place waiting)
    (readKey : (next side).keys.readKey = (c side).keys.readKey)
    (readCounter : (next side).keys.readCounter = (c side).keys.readCounter)
    (writeKey : (next side.other).keys.writeKey = (c side.other).keys.writeKey)
    (writeCounter : (next side.other).keys.writeCounter = (c side.other).keys.writeCounter)
    (inbox : (next side).inbox = (c side).inbox) :
    InStep codec next side place waiting where
  key := by rw [readKey, writeKey, h.key]
  reader := by rw [readCounter, h.reader]
  writer := by rw [writeCounter, h.writer]
  bounded := h.bounded
  inbox := by rw [inbox, readKey, h.inbox]
  fits := h.fits

theorem InStep.otherCall (h : InStep codec c side place waiting) (counter : Counter)
    (outputs : List Bytes) :
    InStep codec
      (c.afterCall side sender { (c side).keys with writeCounter := counter } outputs) side place
      waiting := by
  apply h.congr
  all_goals simp only [afterCall_self, afterCall_other]

theorem InStep.otherRead (h : InStep codec c side place waiting) (counter : Counter)
    (outputs : Nat) :
    InStep codec
      (c.afterRead side.other { (c side.other).keys with readCounter := counter } outputs) side
      place waiting := by
  have unchanged := c.afterRead_other side.other { (c side.other).keys with readCounter := counter }
    outputs
  rw [Side.other_other] at unchanged
  apply h.congr
  all_goals simp only [afterRead_self, unchanged]

theorem InStep.send (h : InStep codec c side place waiting) {payloads : List (Payload ν)}
    {output : Bytes}
    (sends : Sends (c side.other).keys (place + waiting.flatten.length)
      (payloads.map (Payload.bytes codec)) output keys) :
    InStep codec (c.afterCall side.other sender keys [output]) side place
      (waiting ++ [payloads]) := by
  have reader := c.afterCall_other side.other sender keys [output]
  have writer := c.afterCall_self side.other sender keys [output]
  rw [Side.other_other] at reader
  obtain ⟨rfl, rfl, fits, bounded⟩ := sends
  have length : (waiting ++ [payloads]).flatten.length =
      waiting.flatten.length + (payloads.map (Payload.bytes codec)).length := by simp
  constructor
  · rw [reader, writer, h.key]
  · rw [reader, h.reader]
  · rw [writer, length, Nat.add_assoc]
  · rw [length, ← Nat.add_assoc]
    exact bounded
  · rw [reader, h.inbox, List.map_append, sealedOutputs_append, ← List.map_flatten,
      List.length_map, h.key]
    rfl
  · intro payload member
    rw [List.flatten_append, List.mem_append] at member
    rcases member with old | new
    · exact h.fits payload old
    · rw [List.flatten_singleton] at new
      exact fits _ (List.mem_map_of_mem new)

theorem InStep.receiveRead (h : InStep codec c side place waiting) (outputs : Nat) :
    (c side).keys.receiveRead codec { raw := ((c side).inbox.take outputs).flatten } =
      ((waiting.take outputs).flatten.map (Payload.received codec),
        { (c side).keys with
          readCounter := .ofNat (place + (waiting.take outputs).flatten.length) }) := by
  have split := flatten_take_append_drop waiting outputs
  have length := congrArg List.length split
  rw [List.length_append] at length
  rw [SessionKeys.receiveRead]
  dsimp only
  rw [h.inbox, take_sealedOutputs, flatten_sealedOutputs, ← List.map_take, ← List.map_flatten,
    SessionKeys.receiveAll_sealedStream h.reader, List.map_map, List.length_map]
  · rfl
  · intro plaintext member
    obtain ⟨payload, arrived, rfl⟩ := List.mem_map.1 member
    apply h.fits
    rw [← split]
    exact List.mem_append_left _ arrived
  · rw [List.length_map]
    have := h.bounded
    omega

theorem InStep.afterRead (h : InStep codec c side place waiting) (outputs : Nat) :
    InStep codec
      (c.afterRead side { (c side).keys with
        readCounter := .ofNat (place + (waiting.take outputs).flatten.length) } outputs)
      side (place + (waiting.take outputs).flatten.length) (waiting.drop outputs) := by
  have split := flatten_take_append_drop waiting outputs
  have length : place + (waiting.take outputs).flatten.length +
      (waiting.drop outputs).flatten.length = place + waiting.flatten.length := by
    rw [Nat.add_assoc, ← List.length_append, split]
  constructor
  · rw [afterRead_self, afterRead_other, h.key]
  · rw [afterRead_self]
  · rw [afterRead_other, length, h.writer]
  · rw [length]
    exact h.bounded
  · rw [afterRead_self, h.inbox, drop_sealedOutputs, ← List.map_take, ← List.map_flatten,
      List.length_map, List.map_drop]
  · intro payload member
    apply h.fits
    rw [← split]
    exact List.mem_append_right _ member

theorem step_cases {event : Event ν ε} (noIntro : (c side).sender.config.introHeader = none)
    (h : Step codec c side event next) :
    (event = .refused ∧ next = c) ∨
      (∃ payloads output sender keys place, event = .sent payloads ∧
        next = c.afterCall side sender keys [output] ∧
        sender.config = (c side).sender.config ∧ place ≤ UInt64.size ∧
        (c side).keys.writeCounter = .ofNat place ∧
        Sends (c side).keys place (payloads.map (Payload.bytes codec)) output keys) ∨
      ∃ outputs results keys, event = .read outputs results ∧ outputs ≤ (c side).inbox.length ∧
        (c side).keys.receiveRead codec { raw := ((c side).inbox.take outputs).flatten } =
          (results, keys) ∧ next = c.afterRead side keys outputs := by
  obtain ⟨place, bounded, stands⟩ := (c side).keys.writeCounter.exists_eq_ofNat
  cases h with
  | node h =>
    obtain ⟨sameConfig, p, encoded, sends⟩ := Sender.sendNode_ok noIntro stands h
    refine .inr (.inl ⟨_, _, _, _, place, rfl, rfl, sameConfig, bounded, stands, ?_⟩)
    simpa only [List.map_cons, List.map_nil, Payload.bytes, encoded, Except.toOption,
      Option.getD_some] using sends
  | nodeRefused h =>
    obtain ⟨rfl, rfl⟩ := Sender.sendNode_error h
    exact .inl ⟨rfl, c.afterCall_nothing side⟩
  | plaintext h =>
    obtain ⟨sameConfig, sends⟩ := Sender.send_ok noIntro stands h
    exact .inr (.inl ⟨_, _, _, _, place, rfl, rfl, sameConfig, bounded, stands, sends⟩)
  | plaintextRefused h =>
    obtain ⟨rfl, rfl⟩ := Sender.send_error h
    exact .inl ⟨rfl, c.afterCall_nothing side⟩
  | frames h =>
    have sends := SessionKeys.seal_ok stands bounded h
    refine .inr (.inl ⟨_, _, _, _, place, rfl, rfl, rfl, bounded, stands, ?_⟩)
    rw [List.map_map]
    exact (List.map_id _).symm ▸ sends
  | read arrived h => exact .inr (.inr ⟨_, _, _, rfl, arrived, h, rfl⟩)

theorem step_noIntro {event : Event ν ε}
    (noIntro : ∀ s, (c s).sender.config.introHeader = none)
    (h : Step codec c side event next) (s : Side) :
    (next s).sender.config.introHeader = none := by
  rcases step_cases (noIntro side) h with ⟨-, rfl⟩ |
    ⟨_, _, _, _, _, -, rfl, sameConfig, -⟩ | ⟨_, _, _, -, -, -, rfl⟩
  · exact noIntro s
  · rcases side.eq_or_eq_other s with rfl | rfl
    · rw [afterCall_self, sameConfig]
      exact noIntro s
    · rw [afterCall_other]
      exact noIntro _
  · rcases side.eq_or_eq_other s with rfl | rfl
    · rw [afterRead_self]
      exact noIntro s
    · rw [afterRead_other]
      exact noIntro _

theorem InStep.length_inbox (h : InStep codec c side place waiting) :
    (c side).inbox.length = waiting.length := by
  rw [h.inbox, length_sealedOutputs, List.length_map]

theorem InStep.step {s : Side} {event : Event ν ε} (h : InStep codec c side place waiting)
    (noIntro : ∀ s, (c s).sender.config.introHeader = none) (first : Step codec c s event next) :
    readBy side [(s, event)] ≤ (waiting ++ sentBy side.other [(s, event)]).length ∧
      resultsOf side [(s, event)] =
        ((waiting ++ sentBy side.other [(s, event)]).take (readBy side [(s, event)])).flatten.map
          (Payload.received codec) ∧
      ∃ place', InStep codec next side place'
        ((waiting ++ sentBy side.other [(s, event)]).drop (readBy side [(s, event)])) := by
  rcases step_cases (noIntro s) first with ⟨rfl, rfl⟩ |
    ⟨payloads, output, sender, keys, start, rfl, rfl, -, bounded, stands, sends⟩ |
    ⟨outputs, results, keys, rfl, arrived, received, rfl⟩
  · rw [sentBy_refused, List.append_nil]
    exact ⟨Nat.zero_le _, rfl, place, h⟩
  · refine ⟨Nat.zero_le _, rfl, place, ?_⟩
    change InStep _ _ _ _ (waiting ++ _)
    rcases side.eq_or_eq_other s with rfl | rfl
    · rw [sentBy_sent_of_ne s.other_ne.symm, List.append_nil, sends.after_eq]
      exact h.otherCall _ _
    · rw [sentBy_sent_self]
      -- The sender stands at one place only: the one behind all that is in line.
      have same : start = place + waiting.flatten.length :=
        Counter.ofNat_inj bounded h.bounded (stands.symm.trans h.writer)
      exact h.send (same ▸ sends)
  · rw [sentBy_read, List.append_nil]
    rcases side.eq_or_eq_other s with rfl | rfl
    · rw [readBy_read_self, resultsOf_read_self]
      rw [h.receiveRead] at received
      cases received
      exact ⟨h.length_inbox ▸ arrived, rfl, _, h.afterRead outputs⟩
    · rw [readBy_read_of_ne side.other_ne, resultsOf_read_of_ne side.other_ne]
      obtain ⟨start, -, stands⟩ := (c side.other).keys.readCounter.exists_eq_ofNat
      rw [SessionKeys.receiveRead_eq stands] at received
      cases received
      exact ⟨Nat.zero_le _, rfl, place, h.otherRead _ outputs⟩

theorem InStep.run {start last : Connection} {trace : List (Side × Event ν ε)}
    (h : InStep codec start side place waiting)
    (noIntro : ∀ s, (start s).sender.config.introHeader = none) (run : Run codec start trace last) :
    resultsOf side trace =
        ((waiting ++ sentBy side.other trace).take (readBy side trace)).flatten.map
          (Payload.received codec) ∧
      readBy side trace + (last side).inbox.length =
        (waiting ++ sentBy side.other trace).length := by
  induction run generalizing place waiting with
  | nil c =>
    refine ⟨rfl, ?_⟩
    rw [h.length_inbox, sentBy, List.filterMap_nil, List.append_nil]
    exact Nat.zero_add _
  | @cons c next last s event trace first others ih =>
    obtain ⟨arrived, results, _, inStep⟩ := h.step noIntro first
    obtain ⟨otherResults, otherArrived⟩ := ih inStep (step_noIntro noIntro first)
    have sent := sentBy_append side.other [(s, event)] trace
    have read := readBy_append side [(s, event)] trace
    have seen := resultsOf_append side [(s, event)] trace
    rw [List.singleton_append] at sent read seen
    rw [sent, read, seen, ← List.append_assoc]
    -- What the first step leaves of this line is what the other ones start with.
    generalize waiting ++ sentBy side.other [(s, event)] = line at *
    constructor
    · rw [results, otherResults, List.take_add, List.take_append_of_le_length arrived,
        List.drop_append_of_le_length arrived, List.flatten_append, List.map_append]
    · rw [Nat.add_assoc, otherArrived, List.length_append, List.length_append, List.length_drop]
      omega

/-- Every run of two matched ends delivers in each direction, once and in order, all that was sent
and has been read: what comes of the payloads is what the receiver sees. -/
theorem run_delivers {start last : Connection} {trace : List (Side × Event ν ε)}
    (matched : start.Matched) (run : Run codec start trace last) (side : Side)
    (faithful : ∀ n, .node n ∈ (sentBy side.other trace).flatten →
      (codec.encode n >>= codec.decode) = .ok n) :
    resultsOf side trace =
        ((sentBy side.other trace).take (readBy side trace)).flatten.map (Payload.result codec) ∧
      readBy side trace + (last side).inbox.length = (sentBy side.other trace).length := by
  obtain ⟨place, bounded, stands⟩ := (start side).keys.readCounter.exists_eq_ofNat
  have inStep : InStep codec start side place [] := by
    refine ⟨matched.keys side, stands, ?_, bounded, matched.nothingSent side, nofun⟩
    rw [← matched.counters side, stands]
    rfl
  obtain ⟨results, arrived⟩ := inStep.run matched.noIntro run
  rw [List.nil_append] at results arrived
  refine ⟨?_, arrived⟩
  rw [results]
  apply List.map_congr_left
  intro payload member
  apply Payload.received_eq_result
  rintro n rfl
  apply faithful
  rw [← flatten_take_append_drop _ (readBy side trace)]
  exact List.mem_append_left _ member

theorem run_delivers_behind_refused :
    ∃ trace last, sample.Matched ∧ Run (Codec.raw Empty) sample trace last ∧
      sentBy .right trace = [[.node [1, 2, 3, 4]]] ∧ readBy .left trace = 1 ∧
      (∀ n, .node n ∈ (sentBy .right trace).flatten →
        ((Codec.raw Empty).encode n >>= (Codec.raw Empty).decode) = .ok n) ∧
      resultsOf .left trace = [.ok [1, 2, 3, 4]] := by
  have start : (sample .right).keys.writeCounter = .ofNat 0 := Counter.startAt_eq_ofNat 0
  have first : Step (Codec.raw Empty) sample .right .refused _ :=
    .plaintextRefused (Sender.send_of_tooLong (show _ < [1, 2, 3, 4, 5].length + _ by decide))
  rw [afterCall_nothing] at first
  obtain ⟨next, second, arrived⟩ : ∃ next,
      Step (Codec.raw Empty) sample .right (.sent [.node [1, 2, 3, 4]]) next ∧
        1 ≤ (next .left).inbox.length :=
    ⟨_, .node (Sender.sendNode_of_short rfl (by decide) start (by decide)), Nat.le_refl 1⟩
  have third : Step (Codec.raw Empty) next .left (.read 1 _) _ := .read arrived rfl
  have run := Run.cons first (.cons second (.cons third (.nil _)))
  have faithful (n) : ((Codec.raw Empty).encode n >>= (Codec.raw Empty).decode) = .ok n := rfl
  obtain ⟨results, -⟩ := run_delivers sample_matched run .left fun n _ => faithful n
  exact ⟨_, _, sample_matched, run, rfl, rfl, fun n _ => faithful n, results⟩

end Connection

end SealedChat
