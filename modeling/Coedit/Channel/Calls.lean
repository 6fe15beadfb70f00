import Coedit.Channel.Basic

/-!
# Calls of a channel

What a channel does when it is connected, handed a local edit, answered by the server or woken by a timer.
-/

namespace Coedit.Channel

variable [L : Lengths] [R : Revisions]

/-! ## Local calls -/

/-- Connects to a document that was loaded at `revision`. -/
def connect (c : Channel) (revision : Nat) : Except ChannelFault Channel :=
  if c.isConnected then .error (.alreadyConnected c.phase)
  else
    let c := { c with queue := .new revision, knownHead := revision, retryAttempt := 0 }
    .ok ((c.command (.subscribe c.document)).enter .allAcked)

/-- Records a local operation that has already been applied to the local state, under this session's
origin. It is sent with the next batch. An operation that does not fit what is undelivered is fatal. -/
def submit (c : Channel) (op : Composite) : Except ChannelFault Channel :=
  if !c.isConnected then .error .submitDisconnected
  else
    match c.queue.record (op.withOrigin c.user c.session) with
    | (.error e, queue) => .ok ({ c with queue }.fail e)
    | (.ok (), queue) => .ok { c with queue }.scheduleSend

/-- Holds sends until the matching `endCompound`, so that the edits in between leave in one batch. -/
def beginCompound (c : Channel) : Channel := { c with compoundDepth := c.compoundDepth + 1 }

/-- Closes a compound edit. At the outermost level held operations may be sent. -/
def endCompound (c : Channel) : Except ChannelFault Channel :=
  if c.compoundDepth = 0 then .error .noCompound
  else
    let c := { c with compoundDepth := c.compoundDepth - 1 }
    .ok (if c.compoundDepth = 0 then c.scheduleSend else c)

/-- Sends the queued operations, if that may be done now. Operations that cancelled out are not sent. -/
def flush (c : Channel) : Channel :=
  let c := { c with sendScheduled := false }
  if c.maySend then
    match c.queue.send with
    | (.error e, queue) => { c with queue }.fail e
    | (.ok batch, queue) =>
      let c := { c with queue }
      if batch.isEmpty then c.emitSaveState else c.submitBatch.enter .waitingAck
  else c

/-! ## Deltas -/

/-- Keeps the deltas of a message until their turn; of two deltas for one revision the first counts. A
message that claims more deltas than there are revisions is dropped. -/
def buffer (c : Channel) (m : DeltaMessage) : Channel :=
  m.revisions.foldl
    (fun c (revision, op) =>
      { c with
        knownHead := max c.knownHead revision
        buffered := if c.buffered.contains revision then c.buffered else c.buffered.insert revision op })
    c

/-- The last revision accounted for, apart from echoes that are still expected. -/
def floor (c : Channel) : Nat := R.arithmetic.sub c.queue.revision c.queue.expectedAcks

/-- Takes in the delta that follows the floor: an expected echo, the echo of the oldest operation in flight,
or an operation of another session. -/
def applyDelta (c : Channel) (revision : Nat) (op : Composite) : Channel :=
  match c.queue.takeEcho revision with
  | (.error e, _) => c.fail e
  | (.ok true, queue) => { c with queue }
  | (.ok false, _) =>
    if op.origin.session = some c.session then
      match c.queue.unacked.head? with
      | none => c.fail (.queue (.ownEcho revision))
      | some acked =>
        match c.queue.ackFirst revision with
        | (.error e, queue) => { c with queue }.fail e
        | (.ok done, queue) =>
          let c := { c with queue }
          let c := c.event (.ack (acked.withRevision revision) c.isClean)
          if done && (c.phase == .waitingAck || c.phase == .delayResync) then c.settle else c
    else
      match c.queue.receive revision op with
      | (.error e, queue) => { c with queue }.fail e
      | (.ok (), queue) => { c with queue }.event (.remoteOp revision)

/-- Goes through buffered deltas by ascending revision: drops what is accounted for, takes in what follows
the floor, and stops at a gap or once the channel is disconnected. -/
def drainEntries : List (Nat × Composite) → Channel → Channel
  | [], c => c
  | (revision, op) :: rest, c =>
    if !c.isConnected || c.floor + 1 < revision then c
    else
      let taken := { c with buffered := c.buffered.erase revision }
      drainEntries rest (if revision ≤ c.floor then taken else taken.applyDelta revision op)

/-- Takes in buffered deltas up to the first gap. -/
def drain (c : Channel) : Channel := drainEntries c.buffered.entries c

/-- Leaves `waitingSync` once everything up to the known head is accounted for. A batch that is still in
flight is submitted again. -/
def checkSynced (c : Channel) : Channel :=
  if c.phase != .waitingSync || c.queue.revision < c.knownHead then c
  else if c.queue.unacked.isEmpty then c.settle
  else c.submitBatch.enter .waitingAck

def delta (c : Channel) (m : DeltaMessage) : Channel :=
  if c.isConnected then (c.buffer m).drain.checkSynced else c

/-! ## Replies and timers -/

/-- The events that acknowledge a batch whose first operation has revision `first`; the last of them is
`clean` if nothing else is left. -/
def ackEvents (clean : Bool) (first : Nat) : List Composite → List Event
  | [] => []
  | [op] => [.ack (op.withRevision first) clean]
  | op :: rest => .ack (op.withRevision first) false :: ackEvents clean (R.arithmetic.wrap (first + 1)) rest

/-- The server took the batch submitted under `version`, and its head is now at `head`. If nothing came in
between, the batch is acknowledged at once; otherwise the echoes tell. -/
def submitAcked (c : Channel) (version head : Nat) : Channel :=
  if c.isCurrent version && c.phase == .waitingAck then
    let base := c.queue.revision
    let c := { c with knownHead := max c.knownHead head }
    match c.queue.ackAll? head with
    | (none, _) => c
    | (some acked, queue) =>
      let c := { c with queue }
      ({ c with events := c.events ++ ackEvents c.isClean (R.arithmetic.wrap (base + 1)) acked }).settle.drain
  else c

def submitFailed (c : Channel) (version : Nat) (fault : Fault) : Channel :=
  if c.isCurrent version && c.phase == .waitingAck then c.handleFailure fault else c

/-- The backoff set under `version` ran out. Echoes that are still expected may have been lost with the
connection, so they are asked for again. -/
def resyncTimer (c : Channel) (version : Nat) : Channel :=
  if c.isCurrent version && c.phase == .delayResync then
    (c.enter .waitingSync).command (.requestRevision c.retryVersion c.floor)
  else c

/-- The reply to a request for the head revision: the head and the deltas up to it. -/
def revisionReply (c : Channel) (version : Nat) (m : DeltaMessage) : Channel :=
  if c.isCurrent version && c.phase == .waitingSync then
    ({ c with knownHead := max c.knownHead m.revision }.buffer m).drain.checkSynced
  else c

def revisionFailed (c : Channel) (version : Nat) (fault : Fault) : Channel :=
  if c.isCurrent version && c.phase == .waitingSync then c.handleFailure fault else c

end Coedit.Channel
