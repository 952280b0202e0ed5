import SealedChat.Bytes

namespace SealedChat

structure MessageId where
  text : String
  deriving DecidableEq, Repr

instance : Ord MessageId := ⟨fun a b => compare a.text b.text⟩

instance : ToString MessageId := ⟨MessageId.text⟩

structure MessageKey where
  chat : String
  id : MessageId
  fromMe : Bool
  sender : Option String
  deriving DecidableEq, Repr

structure Message where
  key : MessageKey
  timestamp : UInt64
  pushName : Option String := none
  starred : Bool := false
  payload : Bytes := []
  deriving DecidableEq, Repr

class Stamped (μ : Type) (ι : outParam Type) where
  id : μ → ι
  timestamp : μ → UInt64

instance : Stamped Message MessageId where
  id message := message.key.id
  timestamp := Message.timestamp

structure Entry (μ : Type) where
  message : μ
  order : Int64
  deriving DecidableEq, Repr

namespace Entry

def noOrder : Int64 := -1

def ofMessage {μ : Type} (message : μ) : Entry μ :=
  ⟨message, noOrder⟩

variable {μ ι : Type} [Stamped μ ι]

def id (entry : Entry μ) : ι :=
  Stamped.id entry.message

def timestamp (entry : Entry μ) : UInt64 :=
  Stamped.timestamp entry.message

end Entry

end SealedChat
