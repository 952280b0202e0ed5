import SealedChat.Proofs.Receiving
import SealedChat.Proofs.Sending

/-!
No nonce seals twice, whatever is called on the keys of a session.

Calls are watched: a watched call does what the call itself does, and puts on record each number
that it takes and each nonce that it gives to the cipher.
-/

namespace SealedChat

namespace Watch

inductive Event where
  | number (n : UInt64)
  | used (key : Aead.Key) (nonce : Aead.Nonce)
  deriving DecidableEq

def Event.nonce? : Event → Option Aead.Nonce
  | .number _ => none
  | .used _ nonce => some nonce

abbrev Watched := StateM (List Event)

def record (event : Event) : Watched Unit :=
  modify (· ++ [event])

def takeWrite (keys : SessionKeys) : Watched (Except SessionError UInt64 × SessionKeys) := do
  match keys.takeWrite with
  | (.error e, keys) => return (.error e, keys)
  | (.ok n, keys) =>
    record (.number n)
    return (.ok n, keys)

def encrypt (key : Aead.Key) (nonce : Aead.Nonce) (aad : Option Bytes) (plaintext : Bytes) :
    Watched Bytes := do
  record (.used key nonce)
  return Aead.encrypt key nonce aad plaintext

def send (sender : Sender) (keys : SessionKeys) (plaintext : Bytes) :
    Watched (Except SendError Bytes × Sender × SessionKeys) := do
  match Frame.checkSize (plaintext.length + Aead.tagSize) sender.limit with
  | .error e => return (.error (.frame e), sender, keys)
  | .ok () =>
    match ← takeWrite keys with
    | (.error e, keys) => return (.error (.session e), sender, keys)
    | (.ok counter, keys) =>
      let ciphertext ← encrypt keys.writeKey (.ofCounter counter) none plaintext
      match Frame.write sender.limit ciphertext with
      | .error e => return (.error (.frame e), sender, keys)
      | .ok frame => return (.ok (sender.intro ++ frame), { sender with introSent := true }, keys)

def sendNode {ν ε : Type} (sender : Sender) (keys : SessionKeys) (codec : Codec ν ε) (node : ν) :
    Watched (Except (SendNodeError ε) Bytes × Sender × SessionKeys) := do
  match codec.encode node with
  | .error e => return (.error (.codec e), sender, keys)
  | .ok plaintext =>
    let (sent, sender, keys) ← send sender keys plaintext
    return (sent.mapError .send, sender, keys)

def sendAll (sender : Sender) (keys : SessionKeys) :
    List Bytes → Watched (Except SendError Bytes × Sender × SessionKeys)
  | [] => return (.ok [], sender, keys)
  | plaintext :: plaintexts => do
    match ← send sender keys plaintext with
    | (.error e, sender, keys) => return (.error e, sender, keys)
    | (.ok bytes, sender, keys) =>
      let (sent, sender, keys) ← sendAll sender keys plaintexts
      return (sent.map (bytes ++ ·), sender, keys)

def sealAll (keys : SessionKeys) (plaintexts : List Bytes) :
    Watched (Except SendError Bytes × SessionKeys) := do
  let (sent, _, keys) ← sendAll {} keys plaintexts
  return (sent, keys)

def records (key : Aead.Key) : (place : Nat) → (uses : List Bool) → List Event
  | _, [] => []
  | place, used :: uses =>
    let nonces := if used then [.used key (.ofCounter (UInt64.ofNat place))] else []
    .number (UInt64.ofNat place) :: (nonces ++ records key (place + 1) uses)

theorem records_append (key : Aead.Key) (place : Nat) (first second : List Bool) :
    records key place (first ++ second) =
      records key place first ++ records key (place + first.length) second := by
  induction first generalizing place with
  | nil => rfl
  | cons used first ih =>
    rw [List.cons_append, records, ih, records, List.length_cons, Nat.add_assoc, Nat.add_comm 1]
    simp only [List.cons_append, List.append_assoc]

/-- A watched call gives a value, and the keys behind it have handed out the numbers that it put on
record. -/
def Takes {α : Type} (call : Watched α) (keys : SessionKeys) (place : Nat) (value : α)
    (after : SessionKeys) : Prop :=
  ∃ uses, (∀ events, call events = (value, events ++ records keys.writeKey place uses)) ∧
    after.writeKey = keys.writeKey ∧ after.writeCounter = .ofNat (place + uses.length) ∧
    place + uses.length ≤ UInt64.size

namespace Takes

variable {α β : Type} {call : Watched α} {keys middle after : SessionKeys} {place : Nat} {value : α}

theorem pure (value : α) (writeKey : after.writeKey = keys.writeKey)
    (stands : after.writeCounter = .ofNat place) (bounded : place ≤ UInt64.size) :
    Takes (Pure.pure value) keys place value after := by
  refine ⟨[], fun events => ?_, writeKey, stands, bounded⟩
  rw [records, List.append_nil]
  rfl

theorem bind {next : α → Watched β} {result : β} (first : Takes call keys place value middle)
    (others : ∀ place', place' ≤ UInt64.size → middle.writeCounter = .ofNat place' →
      Takes (next value) middle place' result after) :
    Takes (call >>= next) keys place result after := by
  obtain ⟨uses, called, writeKey, stands, bounded⟩ := first
  obtain ⟨more, calledNext, writeKey', stands', bounded'⟩ := others _ bounded stands
  refine ⟨uses ++ more, fun events => ?_, writeKey'.trans writeKey, ?_, ?_⟩
  · rw [records_append, ← List.append_assoc, ← writeKey, ← calledNext, writeKey]
    change next (call events).1 (call events).2 = _
    rw [called]
  · rw [List.length_append, ← Nat.add_assoc]
    exact stands'
  · rw [List.length_append, ← Nat.add_assoc]
    exact bounded'

theorem map (f : α → β) (h : Takes call keys place value after) :
    Takes (do return f (← call)) keys place (f value) after := by
  obtain ⟨uses, called, behind⟩ := h
  refine ⟨uses, fun events => ?_, behind⟩
  change (f (call events).1, (call events).2) = _
  rw [called]

end Takes

section Sending

variable {keys : SessionKeys} {place : Nat}

theorem send_takes (sender : Sender) (stands : keys.writeCounter = .ofNat place)
    (bounded : place ≤ UInt64.size) (plaintext : Bytes) :
    Takes (send sender keys plaintext) keys place (sender.send keys plaintext)
      (sender.send keys plaintext).2.2 := by
  rw [send, Sender.send]
  cases checked : Frame.checkSize (plaintext.length + Aead.tagSize) sender.limit with
  | error e => exact .pure _ rfl stands bounded
  | ok u =>
    dsimp only
    rcases Nat.lt_or_ge place UInt64.size with h | exhausted
    · have short := Frame.checkSize_eq_ok_iff.1 checked
      refine ⟨[true], fun events => ?_, ?_⟩
      · simp only [takeWrite, SessionKeys.takeWrite_of_lt stands h, encrypt, records, if_true,
          List.append_nil]
        change (match Frame.write sender.limit (Aead.encrypt keys.writeKey
          (.ofCounter (UInt64.ofNat place)) none plaintext) with
          | .error _ => _
          | .ok _ => _ : Watched _) _ = _
        rw [write_encrypt short]
        exact congrArg (Prod.mk _) (List.append_assoc events [_] [_])
      · rw [SessionKeys.takeWrite_of_lt stands h]
        dsimp only
        rw [write_encrypt short]
        exact ⟨rfl, rfl, h⟩
    · rw [takeWrite, SessionKeys.takeWrite_of_le stands exhausted]
      exact .pure _ rfl stands bounded

theorem sendNode_takes {ν ε : Type} (sender : Sender) (stands : keys.writeCounter = .ofNat place)
    (bounded : place ≤ UInt64.size) (codec : Codec ν ε) (node : ν) :
    Takes (sendNode sender keys codec node) keys place (sender.sendNode keys codec node)
      (sender.sendNode keys codec node).2.2 := by
  rw [sendNode, Sender.sendNode]
  cases codec.encode node with
  | error e => exact .pure _ rfl stands bounded
  | ok plaintext =>
    exact (send_takes sender stands bounded plaintext).map fun sent =>
      ((sent.1.mapError .send : Except (SendNodeError ε) Bytes), sent.2)

theorem sendAll_takes (sender : Sender) (stands : keys.writeCounter = .ofNat place)
    (bounded : place ≤ UInt64.size) (plaintexts : List Bytes) :
    Takes (sendAll sender keys plaintexts) keys place (sender.sendAll keys plaintexts)
      (sender.sendAll keys plaintexts).2.2 := by
  induction plaintexts generalizing sender keys place with
  | nil => exact .pure _ rfl stands bounded
  | cons plaintext plaintexts ih =>
    rw [sendAll, Sender.sendAll]
    refine Takes.bind (send_takes sender stands bounded plaintext) fun _ bounded' stands' => ?_
    generalize sender.send keys plaintext = result at stands' ⊢
    obtain ⟨_ | bytes, sender, keys⟩ := result
    · exact .pure _ rfl stands' bounded'
    · exact (ih sender stands' bounded').map fun result =>
        (result.1.map (bytes ++ ·), result.2)

theorem sealAll_takes (stands : keys.writeCounter = .ofNat place)
    (bounded : place ≤ UInt64.size) (plaintexts : List Bytes) :
    Takes (sealAll keys plaintexts) keys place (keys.seal plaintexts) (keys.seal plaintexts).2 := by
  exact (sendAll_takes {} stands bounded plaintexts).map fun result => (result.1, result.2.2)

theorem takeWrite_takes (stands : keys.writeCounter = .ofNat place)
    (bounded : place ≤ UInt64.size) :
    Takes (takeWrite keys) keys place keys.takeWrite keys.takeWrite.2 := by
  rcases Nat.lt_or_ge place UInt64.size with h | exhausted
  · rw [takeWrite, SessionKeys.takeWrite_of_lt stands h]
    exact ⟨[false], fun _ => rfl, rfl, rfl, h⟩
  · rw [takeWrite, SessionKeys.takeWrite_of_le stands exhausted]
    exact .pure _ rfl stands bounded

end Sending

section Records

variable {key : Aead.Key} {place : Nat} {uses : List Bool}

theorem ofNat_lt_ofNat {m n : Nat} (h : m < n) (bounded : n < UInt64.size) :
    UInt64.ofNat m < UInt64.ofNat n := by
  rw [UInt64.lt_iff_toNat_lt, UInt64.toNat_ofNat_of_lt' (Nat.lt_trans h bounded),
    UInt64.toNat_ofNat_of_lt' bounded]
  exact h

theorem filterMap_nonce?_records_cons (key : Aead.Key) (place : Nat) (used : Bool)
    (uses : List Bool) :
    (records key place (used :: uses)).filterMap Event.nonce? =
      (if used then [.ofCounter (UInt64.ofNat place)] else []) ++
        (records key (place + 1) uses).filterMap Event.nonce? := by
  cases used <;> rfl

theorem exists_of_mem_records {event : Event} (h : event ∈ records key place uses) :
    ∃ i, place ≤ i ∧ i < place + uses.length ∧ (event = .number (UInt64.ofNat i) ∨
      event = .used key (.ofCounter (UInt64.ofNat i))) := by
  induction uses generalizing place with
  | nil => cases h
  | cons used uses ih =>
    rw [records, List.mem_cons, List.mem_append] at h
    rw [List.length_cons]
    rcases h with isNumber | isUsed | later
    · exact ⟨place, Nat.le_refl _, by omega, .inl isNumber⟩
    · cases used with
      | false => cases isUsed
      | true => exact ⟨place, Nat.le_refl _, by omega, .inr (List.mem_singleton.1 isUsed)⟩
    · obtain ⟨i, lower, upper, isOne⟩ := ih later
      exact ⟨i, by omega, by omega, isOne⟩

theorem exists_of_number_mem_records {n : UInt64} (h : .number n ∈ records key place uses) :
    ∃ i, place ≤ i ∧ i < place + uses.length ∧ n = UInt64.ofNat i := by
  obtain ⟨i, lower, upper, isNumber | isUsed⟩ := exists_of_mem_records h
  · exact ⟨i, lower, upper, Event.number.inj isNumber⟩
  · cases isUsed

theorem exists_of_mem_nonces {nonce : Aead.Nonce}
    (h : nonce ∈ (records key place uses).filterMap Event.nonce?) :
    ∃ i, place ≤ i ∧ i < place + uses.length ∧ nonce = .ofCounter (UInt64.ofNat i) := by
  obtain ⟨event, member, isNonce⟩ := List.mem_filterMap.1 h
  obtain ⟨i, lower, upper, rfl | rfl⟩ := exists_of_mem_records member
  · cases isNonce
  · exact ⟨i, lower, upper, (Option.some.inj isNonce).symm⟩

theorem nodup_nonces (bounded : place + uses.length ≤ UInt64.size) :
    ((records key place uses).filterMap Event.nonce?).Nodup := by
  induction uses generalizing place with
  | nil => exact .nil
  | cons used uses ih =>
    rw [List.length_cons] at bounded
    have others : ((records key (place + 1) uses).filterMap Event.nonce?).Nodup := ih (by omega)
    rw [filterMap_nonce?_records_cons]
    cases used with
    | false => exact others
    | true =>
      refine List.nodup_cons.2 ⟨fun again => ?_, others⟩
      obtain ⟨i, lower, upper, same⟩ := exists_of_mem_nonces again
      have less := ofNat_lt_ofNat (show place < i by omega) (by omega)
      rw [Aead.Nonce.ofCounter_injective same] at less
      exact UInt64.lt_irrefl _ less

theorem before_used {before later : List Event} {k : Aead.Key} {nonce : Aead.Nonce}
    (bounded : place + uses.length ≤ UInt64.size)
    (h : records key place uses = before ++ .used k nonce :: later) :
    k = key ∧ ∃ earlier n, before = earlier ++ [.number n] ∧ nonce = .ofCounter n ∧
      ∀ m, .number m ∈ earlier → m < n := by
  induction uses generalizing place before with
  | nil => simp [records] at h
  | cons used uses ih =>
    rw [List.length_cons] at bounded
    -- The number of this place is below the one that the others end with.
    have behind (skipped : List Event) {front : List Event} (none : ∀ m, .number m ∉ skipped)
        (others : records key (place + 1) uses = front ++ .used k nonce :: later) :
        k = key ∧ ∃ earlier n,
          .number (UInt64.ofNat place) :: (skipped ++ front) = earlier ++ [.number n] ∧
          nonce = .ofCounter n ∧ ∀ m, .number m ∈ earlier → m < n := by
      obtain ⟨rfl, earlier, n, rfl, made, above⟩ := ih (by omega) others
      have last : .number n ∈ records k (place + 1) uses := by simp [others]
      obtain ⟨i, lower, upper, rfl⟩ := exists_of_number_mem_records last
      refine ⟨rfl, .number (UInt64.ofNat place) :: (skipped ++ earlier), _, ?_, made, ?_⟩
      · rw [← List.append_assoc, List.cons_append]
      · intro m member
        rcases List.mem_cons.1 member with isFirst | member
        · cases isFirst
          exact ofNat_lt_ofNat (by omega) (by omega)
        · rcases List.mem_append.1 member with isSkipped | isEarlier
          · exact absurd isSkipped (none m)
          · exact above m isEarlier
    rw [records] at h
    rcases List.cons_eq_append_iff.1 h with ⟨-, first⟩ | ⟨front, rfl, others⟩
    · cases first
    · cases used with
      | false => exact behind [] (by simp) others
      | true =>
        rcases List.cons_eq_append_iff.1 others with ⟨rfl, first⟩ | ⟨front, rfl, more⟩
        · cases first
          exact ⟨rfl, [], _, rfl, rfl, nofun⟩
        · exact behind [_] (by simp) more

theorem exhausted_of_last_number (bounded : place + uses.length ≤ UInt64.size)
    (h : .number 0xFFFFFFFFFFFFFFFF ∈ records key place uses) :
    UInt64.size ≤ place + uses.length := by
  obtain ⟨i, -, upper, isLast⟩ := exists_of_number_mem_records h
  have number := congrArg UInt64.toNat isLast
  rw [UInt64.toNat_ofNat_of_lt' (Nat.lt_of_lt_of_le upper bounded)] at number
  have last : (0xFFFFFFFFFFFFFFFF : UInt64).toNat + 1 = UInt64.size := rfl
  omega

end Records

end Watch

open Watch (Watched Event)

inductive Call : Type 1
  | send (sender : Sender) (plaintext : Bytes)
  | sendNode {ν ε : Type} (sender : Sender) (codec : Codec ν ε) (node : ν)
  | sealAll (plaintexts : List Bytes)
  | takeWrite
  | takeRead
  | receive {ν ε : Type} (codec : Codec ν ε) (bodies : List Bytes)

namespace Call

def Answer : Call → Type
  | .send _ _ => Except SendError Bytes × Sender
  | @sendNode _ ε _ _ _ => Except (SendNodeError ε) Bytes × Sender
  | .sealAll _ => Except SendError Bytes
  | .takeWrite => Except SessionError UInt64
  | .takeRead => Except SessionError UInt64
  | @receive ν ε _ _ => List (Except (ReceiveError ε) ν)

def run (keys : SessionKeys) : (call : Call) → call.Answer × SessionKeys
  | .send sender plaintext =>
    let sent := sender.send keys plaintext
    ((sent.1, sent.2.1), sent.2.2)
  | .sendNode sender codec node =>
    let sent := sender.sendNode keys codec node
    ((sent.1, sent.2.1), sent.2.2)
  | .sealAll plaintexts => keys.seal plaintexts
  | .takeWrite => keys.takeWrite
  | .takeRead => keys.takeRead
  | .receive codec bodies => keys.receiveAll codec bodies

def watch (keys : SessionKeys) : (call : Call) → Watched (call.Answer × SessionKeys)
  | .send sender plaintext => do
    let sent ← Watch.send sender keys plaintext
    return ((sent.1, sent.2.1), sent.2.2)
  | .sendNode sender codec node => do
    let sent ← Watch.sendNode sender keys codec node
    return ((sent.1, sent.2.1), sent.2.2)
  | .sealAll plaintexts => Watch.sealAll keys plaintexts
  | .takeWrite => Watch.takeWrite keys
  | .takeRead => return keys.takeRead
  | .receive codec bodies => return keys.receiveAll codec bodies

def Answers : List Call → Type
  | [] => Unit
  | call :: calls => call.Answer × Answers calls

def runAll (keys : SessionKeys) : (calls : List Call) → Answers calls × SessionKeys
  | [] => ((), keys)
  | call :: calls =>
    let first := call.run keys
    let others := runAll first.2 calls
    ((first.1, others.1), others.2)

def watchAll (keys : SessionKeys) : (calls : List Call) → Watched (Answers calls × SessionKeys)
  | [] => return ((), keys)
  | call :: calls => do
    let first ← call.watch keys
    let others ← watchAll first.2 calls
    return ((first.1, others.1), others.2)

variable {keys : SessionKeys} {place : Nat}

theorem watch_takes (stands : keys.writeCounter = .ofNat place) (bounded : place ≤ UInt64.size)
    (call : Call) :
    Watch.Takes (call.watch keys) keys place (call.run keys) (call.run keys).2 := by
  cases call with
  | send sender plaintext =>
    exact (Watch.send_takes sender stands bounded plaintext).map fun sent =>
      ((sent.1, sent.2.1), sent.2.2)
  | sendNode sender codec node =>
    exact (Watch.sendNode_takes sender stands bounded codec node).map fun sent =>
      ((sent.1, sent.2.1), sent.2.2)
  | sealAll plaintexts => exact Watch.sealAll_takes stands bounded plaintexts
  | takeWrite => exact Watch.takeWrite_takes stands bounded
  | takeRead =>
    have kept : keys.takeRead.2.writeKey = keys.writeKey ∧
        keys.takeRead.2.writeCounter = keys.writeCounter := by
      rw [SessionKeys.takeRead]
      split <;> exact ⟨rfl, rfl⟩
    exact .pure _ kept.1 (kept.2.trans stands) bounded
  | receive codec bodies =>
    obtain ⟨start, -, reads⟩ := keys.readCounter.exists_eq_ofNat
    rw [watch, run, SessionKeys.receiveAll_eq reads]
    exact .pure _ rfl stands bounded

theorem watchAll_takes (stands : keys.writeCounter = .ofNat place) (bounded : place ≤ UInt64.size)
    (calls : List Call) :
    Watch.Takes (watchAll keys calls) keys place (runAll keys calls) (runAll keys calls).2 := by
  induction calls generalizing keys place with
  | nil => exact .pure _ rfl stands bounded
  | cons call calls ih =>
    refine Watch.Takes.bind (watch_takes stands bounded call) fun _ bounded' stands' => ?_
    exact (ih stands' bounded').map fun others => (((call.run keys).1, others.1), others.2)

/-- Whatever is called on the keys of a session, no nonce is given to the cipher twice. Each one is
made of a number above all that were handed out before, and behind the last number every call that
asks for another one is refused. -/
theorem watchAll_nonces_fresh {start after : SessionKeys} {calls : List Call}
    {answers : Answers calls} {events : List Event}
    (run : watchAll start calls [] = ((answers, after), events)) :
    (answers, after) = runAll start calls ∧
      (events.filterMap Event.nonce?).Nodup ∧
      (∀ before key nonce later, events = before ++ .used key nonce :: later →
        key = start.writeKey ∧ ∃ earlier n, before = earlier ++ [.number n] ∧
          nonce = .ofCounter n ∧ ∀ m, .number m ∈ earlier → m < n) ∧
      (.number 0xFFFFFFFFFFFFFFFF ∈ events →
        after.takeWrite = (.error .counterExhausted, after) ∧
        ∀ sender : Sender,
          (∀ plaintext : Bytes,
            Frame.checkSize (plaintext.length + Aead.tagSize) sender.limit = .ok () →
            sender.send after plaintext =
              (.error (.session .counterExhausted), sender, after)) ∧
          ∀ {ν ε : Type} (codec : Codec ν ε) (node : ν) (plaintext : Bytes),
            codec.encode node = .ok plaintext →
            Frame.checkSize (plaintext.length + Aead.tagSize) sender.limit = .ok () →
            sender.sendNode after codec node =
              (.error (.send (.session .counterExhausted)), sender, after)) := by
  obtain ⟨place, bounded, stands⟩ := start.writeCounter.exists_eq_ofNat
  obtain ⟨uses, watched, -, stands', bounded'⟩ := watchAll_takes stands bounded calls
  rw [watched] at run
  obtain ⟨same, rfl⟩ := Prod.mk.inj run
  rw [same] at stands'
  refine ⟨same.symm, Watch.nodup_nonces bounded', fun before key nonce later => ?_, fun last => ?_⟩
  · exact Watch.before_used bounded'
  · have exhausted := Watch.exhausted_of_last_number bounded' last
    refine ⟨SessionKeys.takeWrite_of_le stands' exhausted, fun sender => ⟨?_, ?_⟩⟩
    · intro plaintext checked
      exact Sender.send_of_exhausted (Frame.checkSize_eq_ok_iff.1 checked) stands' exhausted
    · intro ν ε codec node plaintext encoded checked
      rw [Sender.sendNode, encoded]
      dsimp only
      rw [Sender.send_of_exhausted (Frame.checkSize_eq_ok_iff.1 checked) stands' exhausted]
      rfl

theorem watchAll_nonces_fresh_up_to_last_number :
    let start : SessionKeys :=
      { SessionKeys.sampleClient with writeCounter := .startAt 0xFFFFFFFFFFFFFFFE }
    let calls : List Call :=
      [.send { config := { maxFrameSize := 20 } } [1, 2, 3, 4, 5],
        .sendNode {} (Codec.raw Empty) [6], .takeRead, .takeWrite, .sealAll []]
    let events : List Event :=
      [.number 0xFFFFFFFFFFFFFFFE, .used start.writeKey (.ofCounter 0xFFFFFFFFFFFFFFFE),
        .number 0xFFFFFFFFFFFFFFFF]
    ∃ answers after, watchAll start calls [] = ((answers, after), events) ∧
      (answers, after) = runAll start calls ∧
      Sender.send {} after [7] = (.error (.session .counterExhausted), {}, after) := by
  intro start calls events
  have run : watchAll start calls [] = ((watchAll start calls []).1, events) :=
    Prod.ext rfl (by decide +kernel)
  obtain ⟨same, -, -, exhausted⟩ := watchAll_nonces_fresh run
  obtain ⟨-, refused⟩ := exhausted (by decide)
  exact ⟨_, _, run, same, (refused {}).1 [7] rfl⟩

end Call

end SealedChat
