import DidCrdt.Sync.Live

/-!
# Messages as bytes

A message is sent as the bytes that are encoded of it. Bytes that do not decode to a message are dropped.
-/

set_option autoImplicit false
set_option relaxedAutoImplicit false

namespace DidCrdt

/-- The JSON encoding of messages. -/
class MessageCodec where
  Bytes : Type
  encode : SyncMessage → Bytes
  decode : Bytes → Option SyncMessage

/-- The message is decoded again from what is encoded of it. -/
def MessageCodec.ReadsBack [MessageCodec] (msg : SyncMessage) : Prop :=
  MessageCodec.decode (MessageCodec.encode msg) = some msg

/-- What is encoded of the message is decoded to that message, if it is decoded. -/
def MessageCodec.Faithful [MessageCodec] (msg : SyncMessage) : Prop :=
  ∀ read, MessageCodec.decode (MessageCodec.encode msg) = some read → read = msg

/-- The encoding that keeps messages as they are, among bytes that are no message. -/
@[reducible]
def MessageCodec.verbatim : MessageCodec := ⟨Option SyncMessage, some, id⟩

/-- The receive path of a node: bytes that are no message are dropped, and what is sent is encoded. -/
def LiveNode.receiveBytes [MessageCodec] [Primitives] (policy : BootstrapPolicy) (node : LiveNode)
    (bytes : MessageCodec.Bytes) : LiveNode × List MessageCodec.Bytes :=
  match MessageCodec.decode bytes with
  | none => (node, [])
  | some msg =>
    let (node, outgoing) := node.receive policy msg
    (node, outgoing.map MessageCodec.encode)

end DidCrdt
