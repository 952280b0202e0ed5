import SealedChat.Frame
import SealedChat.Aead
import SealedChat.Utf8
import SealedChat.FloatingPoint
import SealedChat.Cbor.Container
import SealedChat.Node.Markup
import SealedChat.Node.Cbor
import SealedChat.Session.Sender
import SealedChat.Session.Receiver
import SealedChat.History.Cbor
import SealedChat.History.Cursor
import SealedChat.History.Json
import SealedChat.Proofs.Framing
import SealedChat.Proofs.Numbering
import SealedChat.Proofs.Receiving
import SealedChat.Proofs.Connection
import SealedChat.Proofs.Damage
import SealedChat.Proofs.Delivery
import SealedChat.Proofs.Ordered
import SealedChat.Proofs.Persistence
import SealedChat.Proofs.Changes
import SealedChat.Proofs.Merging
import SealedChat.Proofs.Outbound
import SealedChat.Proofs.Nonces
import SealedChat.Proofs.Characters
import SealedChat.Proofs.Reading
import SealedChat.Proofs.Nesting
import SealedChat.Proofs.Plaintexts
import SealedChat.Proofs.Sequential
import SealedChat.Proofs.OneValue
import SealedChat.Proofs.Tokens
import SealedChat.Proofs.Parsing
import SealedChat.Proofs.Restoring
import SealedChat.Proofs.Archiving
import SealedChat.Proofs.Ties
import SealedChat.Proofs.Adding
import SealedChat.Proofs.Refusals
import SealedChat.Proofs.Directions
import SealedChat.Proofs.Hints
import SealedChat.Proofs.Runs
import SealedChat.Proofs.Sorting
import SealedChat.Proofs.Collecting
import SealedChat.Proofs.Removing
import SealedChat.Proofs.Finding
import SealedChat.Proofs.Walking
import SealedChat.Proofs.Normalizing
import SealedChat.Proofs.Configuring
