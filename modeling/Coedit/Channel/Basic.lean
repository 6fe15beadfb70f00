import Coedit.Composite
import Coedit.Config
import Coedit.Message
import Coedit.Queue

/-!
# The channel of one document

A channel is the client's side of the synchronization of one document.  It decides when local operations
are sent, interprets acknowledgements, and catches up with the server after failures.  It performs no
effect itself: what is to be done it lists as commands, and what the document has to know as events, both
in order.  `Coedit.Channel.Phase` shows the phases it goes through.

Replies carry the retry version of the request that caused them.  Every failure and every disconnect
raises the version, so replies to abandoned requests are recognised and dropped.

Revisions are counted as `Revisions` says, and the floor of an acknowledgement wraps around below zero in
words.
-/

namespace Coedit

/-- An effect that is to be carried out for a channel. -/
inductive Command where
  /-- Start receiving deltas of the document. -/
  | subscribe (document : DocumentId)
  /-- Stop receiving deltas of the document. -/
  | unsubscribe (document : DocumentId)
  /-- Submit the batch in flight. -/
  | submit (version : Nat) (request : DeltaRequest)
  /-- Ask for the head revision and every delta after `since`. -/
  | requestRevision (version since : Nat)
  /-- Flush after a delay. -/
  | scheduleSend (delay : Nat)
  /-- Try to catch up after a delay. -/
  | scheduleResync (version delay : Nat)

/-- Something the document has to know. -/
inductive Event where
  /-- A remote operation is ready for delivery. -/
  | remoteOp (revision : Nat)
  /-- A local operation was acknowledged; `clean` if nothing local remains unsent or unacknowledged. -/
  | ack (op : Composite) (clean : Bool)
  /-- Whether a batch is in flight, and whether any local operation is not yet acknowledged. -/
  | saveState (saving pending : Bool)
  /-- A failure. A fatal one has already disconnected the channel. -/
  | error (fault : Fault) (fatal : Bool)

/-- The client's side of the synchronization of one document. -/
structure Channel where
  document : DocumentId
  user : UserId
  session : SessionId
  config : Config
  phase : Phase
  queue : Queue Composite
  /-- Stamps requests and, in turn, their replies. -/
  retryVersion : Nat
  /-- How many attempts failed since everything was last acknowledged. -/
  retryAttempt : Nat
  /-- The highest revision that the server is known to have reached. -/
  knownHead : Nat
  /-- Deltas that arrived ahead of a gap, by revision. -/
  buffered : Table Nat Composite
  sendScheduled : Bool
  /-- How many compound edits are open. -/
  compoundDepth : Nat
  /-- Effects not yet carried out, the oldest first. -/
  commands : List Command
  /-- Notifications not yet delivered, the oldest first. -/
  events : List Event

namespace Channel

def new (document : DocumentId) (user : UserId) (session : SessionId) (config : Config) : Channel where
  document
  user
  session
  config
  phase := .uninitialized
  queue := .new 0
  retryVersion := 0
  retryAttempt := 0
  knownHead := 0
  buffered := .empty
  sendScheduled := false
  compoundDepth := 0
  commands := []
  events := []

/-- The last revision accounted for locally. -/
def revision (c : Channel) : Nat := c.queue.revision

def isConnected (c : Channel) : Bool := c.phase != .uninitialized

/-- No local operation waits to be sent or acknowledged. -/
def isClean (c : Channel) : Bool := c.queue.isClean

def command (c : Channel) (x : Command) : Channel := { c with commands := c.commands ++ [x] }

def event (c : Channel) (x : Event) : Channel := { c with events := c.events ++ [x] }

/-- Takes the oldest remote operation that is not yet delivered. It applies to the local state as it is
now. -/
def receive (c : Channel) : Option Composite × Channel :=
  let (op, queue) := c.queue.pop
  (op, { c with queue })

def peek? (c : Channel) : Option Composite := c.queue.peek?

/-! ## Steps that several calls share -/

/-- Tells whether a batch is in flight and whether anything is unacknowledged. -/
def emitSaveState (c : Channel) : Channel :=
  c.event (.saveState (!c.queue.unacked.isEmpty) (!c.queue.isClean))

/-- Enters a phase. The save state is told on entering and leaving `waitingAck`, and on returning to
`allAcked` after a failure. -/
def enter (c : Channel) (phase : Phase) : Channel :=
  if c.phase = phase then c
  else
    let savingChanged := (c.phase == .waitingAck) != (phase == .waitingAck)
    let recovered := phase == .allAcked && (c.phase == .delayResync || c.phase == .waitingSync)
    let entered := { c with phase }
    if savingChanged || recovered then entered.emitSaveState else entered

/-- Whether queued operations may be put in flight. -/
def maySend (c : Channel) : Bool :=
  c.phase == .allAcked && c.compoundDepth == 0 && c.queue.unacked.isEmpty && !c.queue.queued.isEmpty

/-- Schedules a send, unless one is scheduled or there is nothing to send. -/
def scheduleSend (c : Channel) : Channel :=
  if c.maySend && !c.sendScheduled then
    { c with sendScheduled := true }.command (.scheduleSend c.config.sendDelay)
  else c

/-- Submits the batch in flight under the current revision and retry version. -/
def submitBatch (c : Channel) : Channel :=
  c.command (.submit c.retryVersion ⟨c.document, c.session, c.queue.revision, c.queue.unacked⟩)

/-- Everything in flight was acknowledged. -/
def settle (c : Channel) : Channel :=
  ({ c with retryAttempt := 0 }.enter .allAcked).scheduleSend

/-- Drops the connection. Replies to open requests will be ignored, and local operations that were not
sent are lost. -/
def disconnect (c : Channel) : Channel :=
  if c.isConnected then
    { c with
      retryVersion := c.retryVersion + 1
      buffered := .empty
      sendScheduled := false
      compoundDepth := 0
      phase := .uninitialized }.command (.unsubscribe c.document)
  else c

def fail (c : Channel) (fault : Fault) : Channel := (c.event (.error fault true)).disconnect

/-- The attempt counter stops here. -/
def attemptLimit : Nat := UInt32.size - 1

/-- A request failed: a fatal fault ends the connection, after any other the channel waits before it
catches up. -/
def handleFailure (c : Channel) (fault : Fault) : Channel :=
  if fault.isFatal then c.fail fault
  else
    let delay := c.config.retry.delay c.retryAttempt
    let c :=
      { c with
        retryAttempt := min (c.retryAttempt + 1) attemptLimit
        retryVersion := c.retryVersion + 1 }
    ((c.event (.error fault false)).enter .delayResync).command (.scheduleResync c.retryVersion delay)

/-- Whether a reply with this retry version answers the current request. -/
def isCurrent (c : Channel) (version : Nat) : Bool := c.isConnected && version == c.retryVersion

end Channel
end Coedit
