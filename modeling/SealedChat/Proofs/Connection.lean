import SealedChat.Session.Receiver
import SealedChat.Session.Sender

namespace SealedChat

inductive Side where
  | left
  | right
  deriving DecidableEq, Repr

def Side.other : Side → Side
  | .left => .right
  | .right => .left

theorem Side.other_ne (side : Side) : side.other ≠ side := by
  cases side <;> nofun

theorem Side.other_other (side : Side) : side.other.other = side := by
  cases side <;> rfl

theorem Side.eq_or_eq_other (side s : Side) : s = side ∨ s = side.other := by
  cases side <;> cases s <;> simp [other]

inductive Payload (ν : Type) where
  | node (node : ν)
  | plaintext (plaintext : Bytes)

def Payload.result {ν ε : Type} (codec : Codec ν ε) :
    Payload ν → Except (ReceiveError ε) ν
  | .node n => .ok n
  | .plaintext p => (codec.decode p).mapError .codec

structure Endpoint where
  sender : Sender
  keys : SessionKeys
  inbox : List Bytes := []

abbrev Connection := Side → Endpoint

namespace Connection

def afterCall (c : Connection) (side : Side) (sender : Sender) (keys : SessionKeys)
    (outputs : List Bytes) : Connection := fun s =>
  if s = side then { c s with sender, keys }
  else { c s with inbox := (c s).inbox ++ outputs }

def afterRead (c : Connection) (side : Side) (keys : SessionKeys) (outputs : Nat) : Connection :=
  fun s => if s = side then { c s with keys, inbox := (c s).inbox.drop outputs } else c s

section After

variable (c : Connection) (side : Side) (sender : Sender) (keys : SessionKeys)

theorem afterCall_self (outputs : List Bytes) :
    c.afterCall side sender keys outputs side = { c side with sender, keys } := if_pos rfl

theorem afterCall_other (outputs : List Bytes) :
    c.afterCall side sender keys outputs side.other =
      { c side.other with inbox := (c side.other).inbox ++ outputs } := if_neg side.other_ne

theorem afterCall_nothing : c.afterCall side (c side).sender (c side).keys [] = c := by
  funext s
  by_cases h : s = side
  · subst h
    rw [afterCall_self]
  · rw [afterCall, if_neg h, List.append_nil]

theorem afterRead_self (outputs : Nat) :
    c.afterRead side keys outputs side =
      { c side with keys, inbox := (c side).inbox.drop outputs } := if_pos rfl

theorem afterRead_other (outputs : Nat) :
    c.afterRead side keys outputs side.other = c side.other := if_neg side.other_ne

end After

inductive Event (ν ε : Type) where
  | sent (payloads : List (Payload ν))
  | refused
  | read (outputs : Nat) (results : List (Except (ReceiveError ε) ν))

variable {ν ε : Type}

/-- One call or one read at one end. There is no step for a call of `seal` that fails. -/
inductive Step (codec : Codec ν ε) (c : Connection) (side : Side) :
    Event ν ε → Connection → Prop
  | node {node : ν} {output : Bytes} {sender : Sender} {keys : SessionKeys}
      (h : (c side).sender.sendNode (c side).keys codec node = (.ok output, sender, keys)) :
      Step codec c side (.sent [.node node]) (c.afterCall side sender keys [output])
  | nodeRefused {node : ν} {e : SendNodeError ε} {sender : Sender} {keys : SessionKeys}
      (h : (c side).sender.sendNode (c side).keys codec node = (.error e, sender, keys)) :
      Step codec c side .refused (c.afterCall side sender keys [])
  | plaintext {plaintext output : Bytes} {sender : Sender} {keys : SessionKeys}
      (h : (c side).sender.send (c side).keys plaintext = (.ok output, sender, keys)) :
      Step codec c side (.sent [.plaintext plaintext]) (c.afterCall side sender keys [output])
  | plaintextRefused {plaintext : Bytes} {e : SendError} {sender : Sender} {keys : SessionKeys}
      (h : (c side).sender.send (c side).keys plaintext = (.error e, sender, keys)) :
      Step codec c side .refused (c.afterCall side sender keys [])
  | frames {plaintexts : List Bytes} {output : Bytes} {keys : SessionKeys}
      (h : (c side).keys.seal plaintexts = (.ok output, keys)) :
      Step codec c side (.sent (plaintexts.map .plaintext))
        (c.afterCall side (c side).sender keys [output])
  | read {outputs : Nat} {results : List (Except (ReceiveError ε) ν)} {keys : SessionKeys}
      (arrived : outputs ≤ (c side).inbox.length)
      (h : (c side).keys.receiveRead codec { raw := ((c side).inbox.take outputs).flatten } =
        (results, keys)) :
      Step codec c side (.read outputs results) (c.afterRead side keys outputs)

inductive Run (codec : Codec ν ε) : Connection → List (Side × Event ν ε) → Connection → Prop
  | nil (c : Connection) : Run codec c [] c
  | cons {c next last : Connection} {side : Side} {event : Event ν ε}
      {trace : List (Side × Event ν ε)} (first : Step codec c side event next)
      (others : Run codec next trace last) : Run codec c ((side, event) :: trace) last

def sentBy (side : Side) (trace : List (Side × Event ν ε)) : List (List (Payload ν)) :=
  trace.filterMap fun
    | (s, .sent payloads) => if s = side then some payloads else none
    | _ => none

def readBy (side : Side) : List (Side × Event ν ε) → Nat
  | [] => 0
  | (s, .read outputs _) :: trace => (if s = side then outputs else 0) + readBy side trace
  | _ :: trace => readBy side trace

def resultsOf (side : Side) (trace : List (Side × Event ν ε)) :
    List (Except (ReceiveError ε) ν) :=
  trace.flatMap fun
    | (s, .read _ results) => if s = side then results else []
    | _ => []

section Trace

variable (side : Side) (first second : List (Side × Event ν ε))

theorem sentBy_append : sentBy side (first ++ second) = sentBy side first ++ sentBy side second :=
  List.filterMap_append

theorem readBy_append : readBy side (first ++ second) = readBy side first + readBy side second := by
  induction first with
  | nil => exact (Nat.zero_add _).symm
  | cons entry first ih =>
    obtain ⟨s, _ | _ | ⟨outputs, results⟩⟩ := entry
    · exact ih
    · exact ih
    · rw [List.cons_append, readBy, readBy, ih, Nat.add_assoc]

theorem resultsOf_append :
    resultsOf side (first ++ second) = resultsOf side first ++ resultsOf side second :=
  List.flatMap_append

end Trace

section Entry

variable {side s : Side} {payloads : List (Payload ν)} {outputs : Nat}
  {results : List (Except (ReceiveError ε) ν)}

theorem sentBy_refused : sentBy side [(s, (.refused : Event ν ε))] = [] := rfl

theorem sentBy_read : sentBy side [(s, .read outputs results)] = [] := rfl

theorem sentBy_sent_self : sentBy side [(side, (.sent payloads : Event ν ε))] = [payloads] := by
  simp [sentBy]

theorem sentBy_sent_of_ne (h : s ≠ side) :
    sentBy side [(s, (.sent payloads : Event ν ε))] = [] := by
  simp [sentBy, h]

theorem readBy_read_self : readBy side [(side, .read outputs results)] = outputs := by
  simp [readBy]

theorem readBy_read_of_ne (h : s ≠ side) : readBy side [(s, .read outputs results)] = 0 := by
  simp [readBy, h]

theorem resultsOf_read_self : resultsOf side [(side, .read outputs results)] = results := by
  simp [resultsOf]

theorem resultsOf_read_of_ne (h : s ≠ side) : resultsOf side [(s, .read outputs results)] = [] := by
  simp [resultsOf, h]

end Entry

structure Matched (c : Connection) : Prop where
  keys (side : Side) : (c side).keys.readKey = (c side.other).keys.writeKey
  counters (side : Side) : (c side).keys.readCounter = (c side.other).keys.writeCounter
  noIntro (side : Side) : (c side).sender.config.introHeader = none
  nothingSent (side : Side) : (c side).inbox = []

def sample : Connection
  | .left => { sender := {}, keys := .sampleClient }
  | .right => { sender := { config := { maxFrameSize := 20 } }, keys := .sampleServer }

theorem sample_matched : sample.Matched where
  keys side := by cases side <;> rfl
  counters side := by cases side <;> rfl
  noIntro side := by cases side <;> rfl
  nothingSent side := by cases side <;> rfl

end Connection

end SealedChat
