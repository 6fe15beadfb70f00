import Coedit.Channel.Phase
import Coedit.Identifier
import Coedit.Json.Inspect
import Coedit.Kind

/-!
# Faults

Why an operation could not be composed, transformed or applied, why the queue or the channel refused a
call, and what the transport, a codec or a file reported.  A fault holds its cause; `Fault.message` is
the only place where causes become text.  Every fault ends a session except a transport fault that is
marked as recoverable.
-/

namespace Coedit

/-- A run of elements, as far as messages are concerned. -/
inductive Fragment where
  | text (s : List Char)
  | items (l : List Value)

namespace Fragment

def inspect : Fragment → String
  | .text s => Text.quoted s
  | .items l => Value.inspectList l

end Fragment

/-- A key as shown in a message. -/
def inspectKey (key : String) : String := Text.quoted key.toList

namespace UserId
def inspect (u : UserId) : String := "UserId(" ++ Text.quoted u.text.toList ++ ")"
end UserId

namespace SessionId
def inspect (s : SessionId) : String := "SessionId(" ++ Text.quoted s.text.toList ++ ")"
end SessionId

namespace Origin
def inspect (o : Origin) : String :=
  inspectOption UserId.inspect o.user ++ "/" ++ inspectOption SessionId.inspect o.session
end Origin

private def combination (a b : Kind) : String :=
  a.tag ++ " operation cannot be combined with " ++ b.tag ++ " operation"

private def differentObjects (a b : ObjectId) : String :=
  "shifts point into different objects " ++ a.text ++ " and " ++ b.text

/-- Why two operations do not follow one another. -/
inductive ComposeFault where
  /-- The first operation produces elements that the second does not cover. -/
  | uncovered (length : Nat)
  /-- The second operation reaches beyond the result of the first. -/
  | beyond (length : Nat)
  /-- The second operation deletes something else than the first inserted. -/
  | content (deleted inserted : Fragment)
  | keys (first second : String)
  /-- The second update of a key expects something else than the first writes. -/
  | values (key : String) (written expected : Option Value)
  | objects (first second : ObjectId)
  | indices (stop start : Int64)
  | kinds (first second : Kind)
  | origins (first second : Origin)
  | reported (message : String)

namespace ComposeFault

def message : ComposeFault → String
  | .uncovered n => s!"first operation leaves {n} element(s) the second does not cover"
  | .beyond n => s!"second operation expects {n} element(s) beyond the first operation's result"
  | .content d i =>
    "second operation deletes " ++ d.inspect ++ " where the first inserted " ++ i.inspect
  | .keys a b => "cannot chain updates to different keys " ++ inspectKey a ++ " and " ++ inspectKey b
  | .values k w e =>
    "update to " ++ inspectKey k ++ " writes " ++ inspectOption Value.inspect w
      ++ " but the next one expects " ++ inspectOption Value.inspect e
  | .objects a b => differentObjects a b
  | .indices a b => s!"shift ends at {a.toInt} but the next one starts at {b.toInt}"
  | .kinds a b => combination a b
  | .origins a b => "operations from different origins (" ++ a.inspect ++ " and " ++ b.inspect ++ ")"
  | .reported m => m

end ComposeFault

/-- Why two operations were not made against one state. -/
inductive TransformFault where
  | lengths (server client : Nat)
  /-- One operation ended while the other still consumes elements. -/
  | residual (length : Nat)
  /-- Both delete the same region and name different content. -/
  | content (server client : Fragment)
  | values (key : String) (server client : Option Value)
  | objects (server client : ObjectId)
  | indices (server client : Int64)
  | kinds (server client : Kind)
  | reported (message : String)

namespace TransformFault

def message : TransformFault → String
  | .lengths s c => s!"operations expect different base lengths: server {s} vs client {c}"
  | .residual n => s!"residual component consuming {n} element(s) after the other operation ended"
  | .content s c =>
    "concurrent deletes disagree: server removed " ++ s.inspect ++ ", client removed " ++ c.inspect
  | .values k s c =>
    "concurrent updates to " ++ inspectKey k ++ " expect different values "
      ++ inspectOption Value.inspect s ++ " and " ++ inspectOption Value.inspect c
  | .objects s c => differentObjects s c
  | .indices s c => s!"concurrent shifts start from different indices {s.toInt} and {c.toInt}"
  | .kinds s c => combination s c
  | .reported m => m

end TransformFault

/-- Why an operation does not fit the value it was applied to. -/
inductive ApplyFault where
  /-- The operation covers another number of elements than the target has. -/
  | coverage (covered size : Nat)
  /-- A delete names content that is not there. -/
  | content (expected : Fragment) (position : Nat) (found : Fragment)
  | value (key : String) (current expected : Option Value)
  | object (held expected : ObjectId)
  | index (held expected : Int64)
  | kind (operation object : Kind)
  /-- The component for one object of a document does not apply. -/
  | inObject (target : ObjectId) (cause : ApplyFault)
  | repeatedObject (target : ObjectId)
  | reported (message : String)

namespace ApplyFault

def message : ApplyFault → String
  | .coverage c n => s!"operation covers {c} elements but target has {n}"
  | .content e p f =>
    "delete expected " ++ e.inspect ++ s!" at {p} but found " ++ f.inspect
  | .value k c e =>
    "key " ++ inspectKey k ++ " holds " ++ inspectOption Value.inspect c
      ++ " but the update expects " ++ inspectOption Value.inspect e
  | .object h e => "reference points into " ++ h.text ++ " but the shift targets " ++ e.text
  | .index h e => s!"reference is at {h.toInt} but the shift expects {e.toInt}"
  | .kind o v => o.tag ++ " operation cannot apply to a " ++ v.tag ++ " object"
  | .inObject t c => t.text ++ ": " ++ c.message
  | .repeatedObject t => "object " ++ t.text ++ " appears twice in the snapshot"
  | .reported m => m

end ApplyFault

/-- How a queue was driven out of sequence. -/
inductive QueueFault where
  /-- A batch is still in flight. -/
  | inFlight (count : Nat)
  /-- An operation of another session, while echoes of acknowledged operations are due. -/
  | serverOpBeforeEcho (revision expected : Nat)
  /-- An acknowledgement, while echoes of acknowledged operations are due. -/
  | ackBeforeEcho (revision expected : Nat)
  /-- An acknowledgement with nothing in flight. -/
  | nothingInFlight (revision : Nat)
  | outOfSequence (revision current : Nat)
  | unexpectedEcho (expected revision : Nat)
  /-- The server sent an operation of this very session while none is in flight. -/
  | ownEcho (revision : Nat)
  | reported (message : String)
  deriving DecidableEq

namespace QueueFault

def message : QueueFault → String
  | .inFlight n => s!"{n} operation(s) still in flight"
  | .serverOpBeforeEcho r n => s!"server operation at {r} while {n} ack(s) are expected"
  | .ackBeforeEcho r n => s!"explicit ack at {r} while {n} ack(s) are expected"
  | .nothingInFlight r => s!"ack at {r} with nothing in flight"
  | .outOfSequence r c => s!"revision {r} does not follow {c}"
  | .unexpectedEcho e r => s!"expected the echo of revision {e} but got {r}"
  | .ownEcho r => s!"echo of own operation at revision {r} with nothing in flight"
  | .reported m => m

end QueueFault

/-- Why a channel or a session refuses a call. -/
inductive ChannelFault where
  | alreadyConnected (phase : Phase)
  | submitDisconnected
  | editDisconnected
  /-- A compound edit was closed that nobody opened. -/
  | noCompound
  | reported (message : String)

namespace ChannelFault

def message : ChannelFault → String
  | .alreadyConnected p => "connect called while " ++ p.name
  | .submitDisconnected => "cannot submit operations while disconnected"
  | .editDisconnected => "cannot edit a disconnected document"
  | .noCompound => "end_compound without begin_compound"
  | .reported m => m

end ChannelFault

/-- Anything that can go wrong while editing together. -/
inductive Fault where
  | compose (cause : ComposeFault)
  | transform (cause : TransformFault)
  | apply (cause : ApplyFault)
  | queue (cause : QueueFault)
  | channel (cause : ChannelFault)
  /-- The network layer reported a failure. -/
  | transport (message : String) (fatal : Bool)
  | serialization (message : String)
  | io (message : String)

namespace Fault

def message : Fault → String
  | .compose c => "Compose error: " ++ c.message
  | .transform c => "Transform error: " ++ c.message
  | .apply c => "Apply error: " ++ c.message
  | .queue c => "Queue invariant violated: " ++ c.message
  | .channel c => "Channel error: " ++ c.message
  | .transport m _ => "Transport error: " ++ m
  | .serialization m => "Serialization error: " ++ m
  | .io m => "IO error: " ++ m

/-- Whether the fault ends the session: local state can no longer be trusted. -/
def isFatal : Fault → Bool
  | .transport _ fatal => fatal
  | _ => true

end Fault
end Coedit
