import Coedit.Arithmetic
import Coedit.Operation

/-!
# The transform queue

A queue keeps three lists for one document: local operations not yet sent, the batch in flight, and
operations of others that were received but not yet delivered.  Each list is kept so that it applies to
the state that the client would see next: what others did is transformed past the local operations that
the server has not seen, and local operations past what is not yet delivered.

Every call answers and gives the next queue.  A call that fails has rewritten its lists as far as it came.

Revisions are counted as `Revisions` says.
-/

namespace Coedit

variable {ω τ : Type} [Operation ω τ]

/-! ## Compaction -/

/-- Composes neighbours pairwise, where they may be composed. -/
def mergeNeighbours : List ω → Except ComposeFault (List ω)
  | a :: b :: rest =>
    if Operation.canCompose a b then
      match Operation.compose a b with
      | .ok c => (mergeNeighbours rest).map (c :: ·)
      | .error e => .error e
    else (mergeNeighbours (b :: rest)).map (a :: ·)
  | ops => .ok ops

/-- Merges level by level until nothing merges. -/
def mergeLevels (ops : List ω) : Except ComposeFault (List ω) :=
  match mergeNeighbours ops with
  | .error e => .error e
  | .ok merged => if merged.length < ops.length then mergeLevels merged else .ok merged
termination_by ops.length

/-- Composes a run of operations into as few as possible and drops those that change nothing. -/
def compact (ops : List ω) : Except ComposeFault (List ω) :=
  (mergeLevels ops).map fun ops => ops.filter fun op => !Operation.isNoop op

/-! ## Passing operations by one another -/

/-- Transforms an operation of the server past each of `clients`. Gives these as they apply after it, up to
the first that cannot be transformed, and the operation as it applies after them all. -/
def passClients (server : ω) : List ω → List ω × Except TransformFault ω
  | [] => ([], .ok server)
  | c :: clients =>
    match Operation.transform server c with
    | .error e => (c :: clients, .error e)
    | .ok (server, c) =>
      let (clients, result) := passClients server clients
      (c :: clients, result)

/-- Transforms an operation of the client past each of `servers`, in the same way. -/
def passServers (client : ω) : List ω → List ω × Except TransformFault ω
  | [] => ([], .ok client)
  | s :: servers =>
    match Operation.transform s client with
    | .error e => (s :: servers, .error e)
    | .ok (s, client) =>
      let (servers, result) := passServers client servers
      (s :: servers, result)

/-! ## The queue -/

/-- Local and remote operations of one document. -/
structure Queue (ω : Type) where
  /-- The last revision accounted for. -/
  revision : Nat
  /-- Local operations not yet sent. -/
  queued : List ω
  /-- The batch in flight. -/
  unacked : List ω
  /-- Operations of others that are not yet delivered. -/
  serverOps : List ω
  /-- Acknowledged operations whose echoes are still to come. -/
  expectedAcks : Nat
  /-- Whether a local operation was recorded since the queued ones were last compacted or passed. -/
  fresh : Bool

namespace Queue

def new (revision : Nat) : Queue ω := ⟨revision, [], [], [], 0, false⟩

/-- No local operation waits to be sent or acknowledged. -/
def isClean (q : Queue ω) : Bool := q.queued.isEmpty && q.unacked.isEmpty

/-- Records a local operation made against the current local state. -/
def record (q : Queue ω) (op : ω) : Except Fault Unit × Queue ω :=
  let (serverOps, result) := passServers op q.serverOps
  match result with
  | .error e => (.error (.transform e), { q with serverOps })
  | .ok op => (.ok (), { q with serverOps, queued := q.queued ++ [op], fresh := true })

/-- Puts the queued operations, compacted, in flight. The batch is empty if they cancelled out. -/
def send (q : Queue ω) : Except Fault (List ω) × Queue ω :=
  if !q.unacked.isEmpty then (.error (.queue (.inFlight q.unacked.length)), q)
  else
    match if q.fresh then compact q.queued else .ok q.queued with
    | .error e => (.error (.compose e), { q with queued := [] })
    | .ok batch => (.ok batch, { q with queued := [], unacked := batch, fresh := false })

variable [R : Revisions]

def checkNext (q : Queue ω) (revision : Nat) : Except Fault Unit :=
  if revision = R.arithmetic.wrap (q.revision + 1) then .ok () else .error (.queue (.outOfSequence revision q.revision))

/-- Puts an operation that passed all local ones up for delivery. -/
def deliverable (q : Queue ω) (revision : Nat) (op : ω) : Queue ω :=
  { q with revision, serverOps := q.serverOps ++ [op] }

/-- Passes an operation of another session by the queued operations, which are compacted before. -/
def passQueued (q : Queue ω) (revision : Nat) (op : ω) : Except Fault Unit × Queue ω :=
  if q.queued.isEmpty then (.ok (), q.deliverable revision op)
  else
    match if q.fresh then compact q.queued else .ok q.queued with
    | .error e => (.error (.compose e), { q with queued := [] })
    | .ok queued =>
      let (queued, result) := passClients op queued
      let q := { q with queued, fresh := false }
      match result with
      | .error e => (.error (.transform e), q)
      | .ok op => (.ok (), q.deliverable revision op)

/-- Takes in an operation of another session, which the server applied at `revision`. -/
def receive (q : Queue ω) (revision : Nat) (op : ω) : Except Fault Unit × Queue ω :=
  if q.expectedAcks ≠ 0 then (.error (.queue (.serverOpBeforeEcho revision q.expectedAcks)), q)
  else
    match q.checkNext revision with
    | .error e => (.error e, q)
    | .ok () =>
      let (unacked, result) := passClients op q.unacked
      match result with
      | .error e => (.error (.transform e), { q with unacked })
      | .ok op => { q with unacked }.passQueued revision op

/-- Acknowledges the oldest operation in flight, which the server applied at `revision`. Answers whether
nothing is left in flight. -/
def ackFirst (q : Queue ω) (revision : Nat) : Except Fault Bool × Queue ω :=
  if q.expectedAcks ≠ 0 then (.error (.queue (.ackBeforeEcho revision q.expectedAcks)), q)
  else
    match q.unacked with
    | [] => (.error (.queue (.nothingInFlight revision)), q)
    | _ :: unacked =>
      match q.checkNext revision with
      | .error e => (.error e, q)
      | .ok () => (.ok unacked.isEmpty, { q with revision, unacked })

/-- Acknowledges the whole batch at once if the server's head shows that nothing came in between, and
expects the echoes of its operations. -/
def ackAll? (q : Queue ω) (head : Nat) : Option (List ω) × Queue ω :=
  if q.unacked.isEmpty || head != R.arithmetic.wrap (q.revision + q.unacked.length) then (none, q)
  else
    (some q.unacked,
      { q with revision := head, unacked := [], expectedAcks := q.expectedAcks + q.unacked.length })

/-- Whether the operation at `revision` is the echo of one that was acknowledged with its whole batch; such
an echo is expected no more. -/
def takeEcho (q : Queue ω) (revision : Nat) : Except Fault Bool × Queue ω :=
  if q.expectedAcks = 0 then (.ok false, q)
  else
    let expected := R.arithmetic.wrap (q.revision + 1) - q.expectedAcks
    if revision = expected then (.ok true, { q with expectedAcks := q.expectedAcks - 1 })
    else (.error (.queue (.unexpectedEcho expected revision)), q)

def peek? (q : Queue ω) : Option ω := q.serverOps.head?

/-- Takes the oldest undelivered operation for delivery. -/
def pop (q : Queue ω) : Option ω × Queue ω := (q.serverOps.head?, { q with serverOps := q.serverOps.tail })

end Queue
end Coedit
