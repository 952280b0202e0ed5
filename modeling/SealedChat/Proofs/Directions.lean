import SealedChat.Proofs.Receiving
import SealedChat.Proofs.Sending

/-!
The two directions of a session do not notice each other.

A session is joined from what its reading works with and what its writing works with. A call changes
one of the two and gives the same result whatever the other one is (`run_join`), so that a run is
made of the run of its reading calls and the run of its writing calls (`runAll_join`).
-/

namespace SealedChat

inductive Direction where
  | inbound
  | outbound
  deriving DecidableEq, Repr

structure Session where
  keys : SessionKeys
  senders : Nat → Sender

namespace Session

inductive Action : Type 1
  | receive {ν ε : Type} (codec : Codec ν ε) (body : Bytes)
  | receiveAll {ν ε : Type} (codec : Codec ν ε) (bodies : List Bytes)
  | receiveRead {ν ε : Type} (codec : Codec ν ε) (read : TransportRead)
  | takeRead
  | send (sender : Nat) (plaintext : Bytes)
  | sendNode {ν ε : Type} (sender : Nat) (codec : Codec ν ε) (node : ν)
  | sealAll (plaintexts : List Bytes)
  | takeWrite

namespace Action

def direction : Action → Direction
  | receive .. | receiveAll .. | receiveRead .. | takeRead => .inbound
  | send .. | sendNode .. | sealAll .. | takeWrite => .outbound

def Result : Action → Type
  | @receive ν ε _ _ => Except (ReceiveError ε) ν
  | @receiveAll ν ε _ _ | @receiveRead ν ε _ _ => List (Except (ReceiveError ε) ν)
  | send .. | sealAll _ => Except SendError Bytes
  | @sendNode _ ε _ _ _ => Except (SendNodeError ε) Bytes
  | takeRead | takeWrite => Except SessionError UInt64

end Action

variable {α : Type}

def onKeys (session : Session) (call : SessionKeys → α × SessionKeys) : α × Session :=
  let done := call session.keys
  (done.1, { session with keys := done.2 })

def onSender (session : Session) (number : Nat)
    (call : Sender → SessionKeys → α × Sender × SessionKeys) : α × Session :=
  let done := call (session.senders number) session.keys
  (done.1, {
    keys := done.2.2
    senders := fun other => if other = number then done.2.1 else session.senders other })

def run (session : Session) : (action : Action) → action.Result × Session
  | .receive codec body => session.onKeys (·.receive codec body)
  | .receiveAll codec bodies => session.onKeys (·.receiveAll codec bodies)
  | .receiveRead codec read => session.onKeys (·.receiveRead codec read)
  | .takeRead => session.onKeys (·.takeRead)
  | .send sender plaintext => session.onSender sender (·.send · plaintext)
  | .sendNode sender codec node => session.onSender sender (·.sendNode · codec node)
  | .sealAll plaintexts => session.onKeys (·.seal plaintexts)
  | .takeWrite => session.onKeys (·.takeWrite)

abbrev Answer : Type 1 :=
  (action : Action) × action.Result

def runAll (session : Session) : List Action → List Answer × Session
  | [] => ([], session)
  | action :: actions =>
    let first := session.run action
    let others := first.2.runAll actions
    (⟨action, first.1⟩ :: others.1, others.2)

end Session

def SessionKeys.join (reading writing : SessionKeys) : SessionKeys where
  readKey := reading.readKey
  writeKey := writing.writeKey
  readCounter := reading.readCounter
  writeCounter := writing.writeCounter

section Join

variable {ν ε : Type} (reading writing : SessionKeys)

namespace SessionKeys

theorem takeRead_join :
    (join reading writing).takeRead =
      (reading.takeRead.1, join reading.takeRead.2 writing) := by
  have same : (join reading writing).readCounter = reading.readCounter := rfl
  rw [takeRead, takeRead, same]
  cases reading.readCounter.take <;> rfl

theorem takeWrite_join :
    (join reading writing).takeWrite =
      (writing.takeWrite.1, join reading writing.takeWrite.2) := by
  have same : (join reading writing).writeCounter = writing.writeCounter := rfl
  rw [takeWrite, takeWrite, same]
  cases writing.writeCounter.take <;> rfl

theorem receive_join (codec : Codec ν ε) (body : Bytes) :
    (join reading writing).receive codec body =
      ((reading.receive codec body).1, join (reading.receive codec body).2 writing) := by
  rw [receive, receive, takeRead_join]
  rcases reading.takeRead with ⟨_ | n, keys⟩ <;> rfl

theorem receiveAll_join (codec : Codec ν ε) (bodies : List Bytes) :
    (join reading writing).receiveAll codec bodies =
      ((reading.receiveAll codec bodies).1, join (reading.receiveAll codec bodies).2 writing) := by
  induction bodies generalizing reading with
  | nil => rfl
  | cons body bodies ih => simp only [receiveAll, receive_join, ih]

end SessionKeys

open SessionKeys (join takeWrite_join)

namespace Sender

theorem send_join (sender : Sender) (plaintext : Bytes) :
    sender.send (join reading writing) plaintext =
      ((sender.send writing plaintext).1, (sender.send writing plaintext).2.1,
        join reading (sender.send writing plaintext).2.2) := by
  rw [send, send]
  cases Frame.checkSize (plaintext.length + Aead.tagSize) sender.limit with
  | error e => rfl
  | ok _ =>
    dsimp only
    rw [takeWrite_join]
    rcases writing.takeWrite with ⟨_ | n, keys⟩
    · rfl
    · have same : (join reading keys).writeKey = keys.writeKey := rfl
      dsimp only
      rw [same]
      split <;> rfl

theorem sendNode_join (sender : Sender) (codec : Codec ν ε) (node : ν) :
    sender.sendNode (join reading writing) codec node =
      ((sender.sendNode writing codec node).1, (sender.sendNode writing codec node).2.1,
        join reading (sender.sendNode writing codec node).2.2) := by
  rw [sendNode, sendNode]
  cases codec.encode node with
  | error e => rfl
  | ok plaintext => simp only [send_join]

theorem sendAll_join (sender : Sender) (plaintexts : List Bytes) :
    sender.sendAll (join reading writing) plaintexts =
      ((sender.sendAll writing plaintexts).1, (sender.sendAll writing plaintexts).2.1,
        join reading (sender.sendAll writing plaintexts).2.2) := by
  induction plaintexts generalizing sender writing with
  | nil => rfl
  | cons plaintext plaintexts ih =>
    rw [sendAll, sendAll, send_join]
    rcases sender.send writing plaintext with ⟨_ | output, after, keys⟩
    · rfl
    · simp only [ih]

end Sender

theorem SessionKeys.seal_join (plaintexts : List Bytes) :
    (join reading writing).seal plaintexts =
      ((writing.seal plaintexts).1, join reading (writing.seal plaintexts).2) := by
  simp only [SessionKeys.seal, Sender.sendAll_join]

end Join

section Keys

variable {ν ε : Type}

namespace SessionKeys

variable (keys : SessionKeys)

theorem takeRead_readKey : keys.takeRead.2.readKey = keys.readKey := by
  rw [takeRead]
  split <;> rfl

theorem takeWrite_writeKey : keys.takeWrite.2.writeKey = keys.writeKey := by
  rw [takeWrite]
  split <;> rfl

theorem receive_readKey (codec : Codec ν ε) (body : Bytes) :
    (keys.receive codec body).2.readKey = keys.readKey := by
  obtain ⟨place, -, stands⟩ := keys.readCounter.exists_eq_ofNat
  rw [receive_eq stands]

theorem receiveAll_readKey (codec : Codec ν ε) (bodies : List Bytes) :
    (keys.receiveAll codec bodies).2.readKey = keys.readKey := by
  obtain ⟨place, -, stands⟩ := keys.readCounter.exists_eq_ofNat
  rw [receiveAll_eq stands]

end SessionKeys

namespace Sender

variable (sender : Sender) (keys : SessionKeys)

theorem send_writeKey (plaintext : Bytes) :
    (sender.send keys plaintext).2.2.writeKey = keys.writeKey := by
  obtain ⟨place, -, stands⟩ := keys.writeCounter.exists_eq_ofNat
  rcases sender.send_cases stands plaintext with ⟨e, refused⟩ | ⟨-, -, sent⟩
  · rw [refused]
  · rw [sent]

theorem sendNode_writeKey (codec : Codec ν ε) (node : ν) :
    (sender.sendNode keys codec node).2.2.writeKey = keys.writeKey := by
  rw [sendNode]
  cases codec.encode node with
  | error e => rfl
  | ok plaintext => exact send_writeKey sender keys plaintext

theorem sendAll_writeKey (plaintexts : List Bytes) :
    (sender.sendAll keys plaintexts).2.2.writeKey = keys.writeKey := by
  induction plaintexts generalizing sender keys with
  | nil => rfl
  | cons plaintext plaintexts ih =>
    have first := send_writeKey sender keys plaintext
    rw [sendAll]
    generalize sender.send keys plaintext = sent at first ⊢
    obtain ⟨_ | output, after, keysAfter⟩ := sent
    · exact first
    · exact (ih after keysAfter).trans first

end Sender

end Keys

namespace Session

def join (reading writing : Session) : Session where
  keys := reading.keys.join writing.keys
  senders := writing.senders

theorem join_self (session : Session) : session.join session = session := rfl

variable {action : Action} (reading writing : Session)

theorem run_join_of_inbound (h : action.direction = .inbound) :
    (reading.join writing).run action =
      ((reading.run action).1, (reading.run action).2.join writing) := by
  cases action with
  | receive codec body =>
    simp only [run, onKeys, join, SessionKeys.receive_join]
  | receiveAll codec bodies =>
    simp only [run, onKeys, join, SessionKeys.receiveAll_join]
  | receiveRead codec read =>
    simp only [run, onKeys, join, SessionKeys.receiveRead, SessionKeys.receiveAll_join]
  | takeRead =>
    simp only [run, onKeys, join, SessionKeys.takeRead_join]
  | send | sendNode | sealAll | takeWrite => cases h

theorem run_join_of_outbound (h : action.direction = .outbound) :
    (reading.join writing).run action =
      ((writing.run action).1, reading.join (writing.run action).2) := by
  cases action with
  | send sender plaintext =>
    simp only [run, onSender, join, Sender.send_join]
  | sendNode sender codec node =>
    simp only [run, onSender, join, Sender.sendNode_join]
  | sealAll plaintexts =>
    simp only [run, onKeys, join, SessionKeys.seal_join]
  | takeWrite =>
    simp only [run, onKeys, join, SessionKeys.takeWrite_join]
  | receive | receiveAll | receiveRead | takeRead => cases h

-- A call of the other direction needs no look at the call: it leaves its half of a join alone.
theorem run_readKey (session : Session) (action : Action) :
    (session.run action).2.keys.readKey = session.keys.readKey := by
  cases h : action.direction with
  | inbound =>
    cases action with
    | receive codec body => exact session.keys.receive_readKey codec body
    | receiveAll codec bodies => exact session.keys.receiveAll_readKey codec bodies
    | receiveRead codec read => exact session.keys.receiveAll_readKey codec read.frames
    | takeRead => exact session.keys.takeRead_readKey
    | send | sendNode | sealAll | takeWrite => cases h
  | outbound =>
    have whole := run_join_of_outbound session session h
    rw [join_self] at whole
    rw [whole]
    rfl

theorem run_writeKey (session : Session) (action : Action) :
    (session.run action).2.keys.writeKey = session.keys.writeKey := by
  cases h : action.direction with
  | inbound =>
    have whole := run_join_of_inbound session session h
    rw [join_self] at whole
    rw [whole]
    rfl
  | outbound =>
    cases action with
    | send sender plaintext => exact Sender.send_writeKey _ session.keys plaintext
    | sendNode sender codec node => exact Sender.sendNode_writeKey _ session.keys codec node
    | sealAll plaintexts => exact Sender.sendAll_writeKey _ session.keys plaintexts
    | takeWrite => exact session.keys.takeWrite_writeKey
    | receive | receiveAll | receiveRead | takeRead => cases h

theorem runAll_keys (session : Session) (actions : List Action) :
    (session.runAll actions).2.keys.readKey = session.keys.readKey ∧
      (session.runAll actions).2.keys.writeKey = session.keys.writeKey := by
  induction actions generalizing session with
  | nil => exact ⟨rfl, rfl⟩
  | cons action actions ih =>
    obtain ⟨readKey, writeKey⟩ := ih (session.run action).2
    exact ⟨readKey.trans (run_readKey session action), writeKey.trans (run_writeKey session action)⟩

def only (direction : Direction) (actions : List Action) : List Action :=
  actions.filter fun action => action.direction = direction

def answersOf (direction : Direction) (answers : List Answer) : List Answer :=
  answers.filter fun answer => answer.1.direction = direction

section Cons

variable {direction : Direction} {actions : List Action} {session : Session}

theorem only_cons_of_eq (h : action.direction = direction) :
    only direction (action :: actions) = action :: only direction actions :=
  List.filter_cons_of_pos (decide_eq_true h)

theorem only_cons_of_ne (h : action.direction ≠ direction) :
    only direction (action :: actions) = only direction actions :=
  List.filter_cons_of_neg (by simpa using h)

theorem answersOf_runAll_cons_of_eq (h : action.direction = direction) :
    answersOf direction (session.runAll (action :: actions)).1 =
      ⟨action, (session.run action).1⟩ ::
        answersOf direction ((session.run action).2.runAll actions).1 :=
  List.filter_cons_of_pos (decide_eq_true h)

theorem answersOf_runAll_cons_of_ne (h : action.direction ≠ direction) :
    answersOf direction (session.runAll (action :: actions)).1 =
      answersOf direction ((session.run action).2.runAll actions).1 :=
  List.filter_cons_of_neg (by simpa using h)

end Cons

theorem runAll_cons_snd (session : Session) (action : Action) (actions : List Action) :
    (session.runAll (action :: actions)).2 = ((session.run action).2.runAll actions).2 := rfl

-- The induction changes one half of the join at each call, so both halves are general.
theorem runAll_join (actions : List Action) :
    let inbound := reading.runAll (only .inbound actions)
    let outbound := writing.runAll (only .outbound actions)
    let whole := (reading.join writing).runAll actions
    answersOf .inbound whole.1 = inbound.1 ∧ answersOf .outbound whole.1 = outbound.1 ∧
      whole.2 = inbound.2.join outbound.2 := by
  induction actions generalizing reading writing with
  | nil => exact ⟨rfl, rfl, rfl⟩
  | cons action actions ih =>
    cases h : action.direction with
    | inbound =>
      have other : action.direction ≠ .outbound := by simp [h]
      have step := run_join_of_inbound reading writing h
      obtain ⟨inbound, outbound, after⟩ := ih (reading.run action).2 writing
      rw [only_cons_of_eq h, only_cons_of_ne other]
      refine ⟨?_, ?_, ?_⟩
      · rw [answersOf_runAll_cons_of_eq h, step, inbound]
        rfl
      · rw [answersOf_runAll_cons_of_ne other, step, outbound]
      · rw [runAll_cons_snd, runAll_cons_snd, step, after]
    | outbound =>
      have other : action.direction ≠ .inbound := by simp [h]
      have step := run_join_of_outbound reading writing h
      obtain ⟨inbound, outbound, after⟩ := ih reading (writing.run action).2
      rw [only_cons_of_eq h, only_cons_of_ne other]
      refine ⟨?_, ?_, ?_⟩
      · rw [answersOf_runAll_cons_of_ne other, step, inbound]
      · rw [answersOf_runAll_cons_of_eq h, step, outbound]
        rfl
      · rw [runAll_cons_snd, runAll_cons_snd, step, after]

/-- Whatever is called on a session in whatever order, each direction goes on as if the calls of the
other one had never been made, and both keys stay. -/
theorem runAll_directions (session : Session) (actions : List Action) :
    let whole := session.runAll actions
    let inbound := session.runAll (only .inbound actions)
    let outbound := session.runAll (only .outbound actions)
    (answersOf .inbound whole.1 = inbound.1 ∧
      whole.2.keys.readCounter = inbound.2.keys.readCounter) ∧
    (answersOf .outbound whole.1 = outbound.1 ∧
      whole.2.keys.writeCounter = outbound.2.keys.writeCounter ∧
      whole.2.senders = outbound.2.senders) ∧
    ∀ n,
      (session.runAll (actions.take n)).2.keys.readKey = session.keys.readKey ∧
      (session.runAll (actions.take n)).2.keys.writeKey = session.keys.writeKey := by
  intro whole inbound outbound
  obtain ⟨inboundAnswers, outboundAnswers, after⟩ := runAll_join session session actions
  have joined : whole.2 = inbound.2.join outbound.2 := after
  refine ⟨⟨inboundAnswers, ?_⟩, ⟨outboundAnswers, ?_, ?_⟩, fun n => runAll_keys session _⟩
  · rw [joined]
    rfl
  · rw [joined]
    rfl
  · rw [joined]
    rfl

end Session

end SealedChat
