import SealedChat.History.Message

namespace SealedChat

structure MessageKey.Fields where
  chat : Option String := none
  id : Option String := none
  fromMe : Option Bool := none
  sender : Option (Option String) := none

structure Message.Fields where
  key : Option MessageKey := none
  timestamp : Option UInt64 := none
  pushName : Option (Option String) := none
  starred : Option Bool := none
  payload : Option Bytes := none

structure Entry.Fields where
  message : Option Message := none
  order : Option Int64 := none

end SealedChat
