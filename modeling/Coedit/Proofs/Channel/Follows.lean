import Coedit.Channel.Calls
import Coedit.Proofs.Queue.Batch

/-!
# Channels that follow the server

What ties a connected channel to the history of the server, while no request fails.  The queue is balanced between
the local document and the server's at the revision of the queue.  At most one operation is in flight, and it is in
one of two places: on its way to the server, or in the history, where it stands as transformed past what the channel
has still to take in.

* `Channel.Flight` — where the operation in flight is;
* `Channel.Follows` — the invariant;
* `Channel.Follows.settle` and others — calls that only list commands and events keep it.
-/

namespace Coedit

def Composite.IsFrom (session : SessionId) (op : Composite) : Prop := op.origin.session = some session

instance (session : SessionId) (op : Composite) : Decidable (op.IsFrom session) :=
  inferInstanceAs (Decidable (op.origin.session = some session))

def Foreign (session : SessionId) (ops : List Composite) : Prop := ∀ op ∈ ops, ¬ op.IsFrom session

/-- The operation of the history that made the revision, under that revision. -/
def Records (history : List Composite) (revision : Nat) (op : Composite) : Prop :=
  ∃ k h, history[k]? = some h ∧ revision = k + 1 ∧ op = h.withRevision revision

theorem Records.append {history : List Composite} {revision : Nat} {op : Composite}
    (h : Records history revision op) (later : List Composite) : Records (history ++ later) revision op := by
  obtain ⟨k, c, hk, hr, hop⟩ := h
  refine ⟨k, c, ?_, hr, hop⟩
  rw [List.getElem?_append_left (List.getElem?_eq_some_iff.1 hk).1, hk]

def Event.isFault : Event → Bool
  | .error .. => true
  | _ => false

def Event.isRemote : Event → Bool
  | .remoteOp _ => true
  | _ => false

def Command.submission? : Command → Option DeltaRequest
  | .submit _ request => some request
  | _ => none

/-- The command belongs to a run without failures. -/
def Command.isRoutine : Command → Bool
  | .subscribe _ | .submit .. | .scheduleSend _ => true
  | _ => false

namespace Channel

/-- What is around a channel. -/
structure Setting where
  user : UserId
  session : SessionId
  /-- What the server applied, the oldest first. -/
  history : List Composite
  /-- The heads told in replies to the session. -/
  heads : List Nat
  /-- The requests of the session that the server has not received. -/
  mail : List DeltaRequest
  /-- The local document. -/
  document : Document
  /-- How many elements the edits made here may still add to the server's document. -/
  pending : Nat

/-- What the operations of the session add that the server applied after the revision. -/
def Setting.ahead (w : Setting) (revision : Nat) : Nat :=
  Composite.insertLengths ((w.history.drop revision).filter fun op => op.IsFrom w.session)

/-- What was added, locally or to the server's document, by the time the channel has accounted for the revision. -/
def Setting.added (w : Setting) (revision : Nat) : Nat :=
  Composite.insertLengths (w.history.take revision) + w.ahead revision + w.pending

/-- What the history adds, with the edits made here. -/
def Setting.total (w : Setting) : Nat := Composite.insertLengths w.history + w.pending

def submissions (c : Channel) : List DeltaRequest := c.commands.filterMap Command.submission?

/-- Where the operation in flight is, by the phase and the requests that the server has not received. -/
inductive Flight [Lengths] (w : Setting) (q : Queue Composite) : Phase → List DeltaRequest → Prop where
  /-- Nothing is in flight. -/
  | idle (unacked : q.unacked = []) (later : Foreign w.session (w.history.drop q.revision))
      (heads : ∀ n ∈ w.heads, n ≤ q.revision) : Flight w q .allAcked []
  /-- It is on its way to the server. Since it was made the channel took in the operations of `between`. -/
  | sent {request : DeltaRequest} {made u : Composite} {between : List Composite} (unacked : q.unacked = [u])
      (deltas : request.deltas = [made]) (revision : request.revision ≤ q.revision)
      (span : w.history.drop request.revision = between ++ w.history.drop q.revision)
      (passed : (passServers made between).2 = .ok u) (later : Foreign w.session (w.history.drop q.revision))
      (heads : ∀ n ∈ w.heads, n ≤ q.revision) : Flight w q .waitingAck [request]
  /-- The server applied it as `echo`, after the operations of `ahead`. -/
  | served {u echo : Composite} {ahead rest : List Composite} (unacked : q.unacked = [u])
      (span : w.history.drop q.revision = ahead ++ echo :: rest) (passed : (passServers u ahead).2 = .ok echo)
      (own : echo.IsFrom w.session) (before : Foreign w.session ahead) (later : Foreign w.session rest)
      (heads : ∀ n ∈ w.heads, n ≤ q.revision ∨ n = q.revision + ahead.length + 1) : Flight w q .waitingAck []

/-- What holds of a channel whatever is in flight. -/
structure Holds [Lengths] (σ : Schema) (w : Setting) (c : Channel) : Prop where
  user : c.user = w.user
  session : c.session = w.session
  echoes : c.queue.expectedAcks ≤ c.queue.revision
  head : c.queue.revision ≤ w.history.length
  buffered : ∀ revision op, c.buffered.get? revision = some op → Records w.history revision op
  stamped : c.queue.Stamped ⟨some w.user, some w.session⟩
  /-- The queue is balanced between the local document and the server's at the revision of the queue. -/
  balanced : ∃ y, (Composite.calculus σ).Chain (w.history.take c.queue.revision) .empty y ∧
    (Composite.calculus σ).Balanced (w.added c.queue.revision) c.queue w.document y
  /-- What is not acknowledged is pending, or was applied and not yet heard of. -/
  owed : Composite.insertLengths (c.queue.unacked ++ c.queue.queued) ≤ w.pending + w.ahead c.queue.revision
  faultless : ∀ e ∈ c.events, e.isFault = false
  /-- Every undelivered operation is announced. -/
  announced : c.events.countP Event.isRemote = c.queue.serverOps.length
  routine : ∀ x ∈ c.commands, x.isRoutine = true

/-- The channel follows the server. -/
structure Follows [Lengths] (σ : Schema) (w : Setting) (c : Channel) : Prop extends Holds σ w c where
  flight : Flight w c.queue c.phase (w.mail ++ c.submissions)

variable {σ : Schema} {w : Setting} {c : Channel} {q q' : Queue Composite} {phase : Phase}
  {requests : List DeltaRequest}

section flight
variable [Lengths]

theorem Flight.of_eq (h : Flight w q phase requests) (hu : q'.unacked = q.unacked) (hr : q'.revision = q.revision) :
    Flight w q' phase requests := by
  cases h with
  | idle unacked later heads => exact .idle (hu.trans unacked) (hr ▸ later) (hr ▸ heads)
  | sent unacked deltas revision span passed later heads =>
    exact .sent (hu.trans unacked) deltas (hr ▸ revision) (hr ▸ span) passed (hr ▸ later) (hr ▸ heads)
  | served unacked span passed own before later heads =>
    exact .served (hu.trans unacked) (hr ▸ span) passed own before later (hr ▸ heads)

/-- Where the operation in flight is does not depend on the local document, nor on how requests are on their way. -/
theorem Flight.of_setting {w' : Setting} (h : Flight w q phase requests) (hs : w'.session = w.session)
    (hh : w'.history = w.history) (hn : w'.heads = w.heads) : Flight w' q phase requests := by
  obtain ⟨user, session, history, heads, mail, document, pending⟩ := w'
  subst hs hh hn
  cases h with
  | idle unacked later heads => exact .idle unacked later heads
  | sent unacked deltas revision span passed later heads =>
    exact .sent unacked deltas revision span passed later heads
  | served unacked span passed own before later heads => exact .served unacked span passed own before later heads

theorem Flight.phase_eq (h : Flight w q phase requests) : phase = .allAcked ∨ phase = .waitingAck := by
  cases h with
  | idle => exact .inl rfl
  | sent => exact .inr rfl
  | served => exact .inr rfl

theorem Flight.isConnected (h : Flight w q c.phase requests) : c.isConnected = true := by
  unfold Channel.isConnected
  rcases h.phase_eq with hp | hp <;> rw [hp] <;> rfl

end flight

/-! ## What was added -/

section added
variable {h : Composite} {revision : Nat}

theorem drop_of_getElem? {history : List Composite} (hr : history[revision]? = some h) :
    history.drop revision = h :: history.drop (revision + 1) := by
  obtain ⟨hlt, rfl⟩ := List.getElem?_eq_some_iff.1 hr
  exact List.drop_eq_getElem_cons hlt

theorem take_of_getElem? {history : List Composite} (hr : history[revision]? = some h) :
    history.take (revision + 1) = history.take revision ++ [h] := by
  obtain ⟨hlt, rfl⟩ := List.getElem?_eq_some_iff.1 hr
  exact List.take_succ_eq_append_getElem hlt

/-- The next operation comes from the session: it was ahead. -/
theorem Setting.ahead_own (hr : w.history[revision]? = some h) (own : h.IsFrom w.session) :
    w.ahead revision = h.insertLength + w.ahead (revision + 1) := by
  rw [ahead, drop_of_getElem? hr, List.filter_cons_of_pos (by simpa using own)]
  rfl

theorem Setting.ahead_foreign (hr : w.history[revision]? = some h) (foreign : ¬ h.IsFrom w.session) :
    w.ahead revision = w.ahead (revision + 1) := by
  rw [ahead, drop_of_getElem? hr, List.filter_cons_of_neg (by simpa using foreign), ahead]

theorem Setting.added_own (hr : w.history[revision]? = some h) (own : h.IsFrom w.session) :
    w.added (revision + 1) = w.added revision := by
  simp only [added, ahead_own hr own, take_of_getElem? hr, Composite.insertLengths_append,
    Composite.insertLengths_cons, Composite.insertLengths_nil]
  omega

theorem Setting.added_foreign (hr : w.history[revision]? = some h) (foreign : ¬ h.IsFrom w.session) :
    w.added (revision + 1) = w.added revision + h.insertLength := by
  simp only [added, ahead_foreign hr foreign, take_of_getElem? hr, Composite.insertLengths_append,
    Composite.insertLengths_cons, Composite.insertLengths_nil]
  omega

/-- Nothing of the session is ahead. -/
theorem Setting.ahead_eq_zero (h : Foreign w.session (w.history.drop revision)) : w.ahead revision = 0 := by
  have hnone : (w.history.drop revision).filter (fun op => op.IsFrom w.session) = [] :=
    List.filter_eq_nil_iff.2 fun op hop => by simpa using h op hop
  rw [ahead, hnone, Composite.insertLengths_nil]

/-- What is ahead has still to be added. -/
theorem Setting.added_add_drop (h : Foreign w.session (w.history.drop revision)) :
    w.added revision + Composite.insertLengths (w.history.drop revision) = w.total := by
  have hall := Composite.insertLengths_append (w.history.take revision) (w.history.drop revision)
  rw [List.take_append_drop] at hall
  rw [added, total, ahead_eq_zero h]
  omega

theorem Setting.added_le_total (w : Setting) (revision : Nat) : w.added revision ≤ w.total := by
  have hall := Composite.insertLengths_append (w.history.take revision) (w.history.drop revision)
  rw [List.take_append_drop] at hall
  have := Composite.insertLengths_filter_le (fun op => op.IsFrom w.session) (w.history.drop revision)
  unfold added total ahead
  omega

end added

/-! ## Phases and timers -/

theorem floor_eq (c : Channel) : c.floor = c.queue.revision - c.queue.expectedAcks := rfl

/-- Entering a phase changes nothing else, but may tell the save state. -/
theorem enter_eq (c : Channel) (phase : Phase) : ∃ events, c.enter phase = { c with phase, events } := by
  unfold enter
  split
  next hsame => exact ⟨c.events, by rw [← hsame]⟩
  next =>
    dsimp only
    split
    next => exact ⟨_, rfl⟩
    next => exact ⟨_, rfl⟩

@[simp] theorem enter_phase (c : Channel) (phase : Phase) : (c.enter phase).phase = phase := by
  obtain ⟨_, h⟩ := c.enter_eq phase
  rw [h]

@[simp] theorem enter_queue (c : Channel) (phase : Phase) : (c.enter phase).queue = c.queue := by
  obtain ⟨_, h⟩ := c.enter_eq phase
  rw [h]

@[simp] theorem enter_buffered (c : Channel) (phase : Phase) : (c.enter phase).buffered = c.buffered := by
  obtain ⟨_, h⟩ := c.enter_eq phase
  rw [h]

@[simp] theorem enter_submissions (c : Channel) (phase : Phase) : (c.enter phase).submissions = c.submissions := by
  obtain ⟨_, h⟩ := c.enter_eq phase
  rw [submissions, h]
  rfl

@[simp] theorem scheduleSend_phase (c : Channel) : c.scheduleSend.phase = c.phase := by
  unfold scheduleSend
  split <;> rfl

@[simp] theorem scheduleSend_queue (c : Channel) : c.scheduleSend.queue = c.queue := by
  unfold scheduleSend
  split <;> rfl

@[simp] theorem scheduleSend_buffered (c : Channel) : c.scheduleSend.buffered = c.buffered := by
  unfold scheduleSend
  split <;> rfl

@[simp] theorem scheduleSend_submissions (c : Channel) : c.scheduleSend.submissions = c.submissions := by
  unfold scheduleSend
  split
  next =>
    show (c.commands ++ [_]).filterMap Command.submission? = _
    rw [List.filterMap_append]
    exact List.append_nil _
  next => rfl

theorem settle_queue (c : Channel) : c.settle.queue = c.queue := by simp [settle]

theorem settle_buffered (c : Channel) : c.settle.buffered = c.buffered := by simp [settle]

/-! ## Listing commands and events -/

variable [Lengths]

theorem event_holds {e : Event} (h : c.Holds σ w) (hf : e.isFault = false) (hr : e.isRemote = false) :
    (c.event e).Holds σ w :=
  { h with
    faultless := fun x hx => by
      rcases List.mem_append.1 hx with hx | hx
      · exact h.faultless x hx
      · rw [List.mem_singleton.1 hx]
        exact hf
    announced := by
      show (c.events ++ [e]).countP Event.isRemote = _
      rw [List.countP_append, List.countP_singleton, hr]
      exact h.announced }

theorem command_holds {x : Command} (h : c.Holds σ w) (hx : x.isRoutine = true) : (c.command x).Holds σ w :=
  { h with
    routine := fun y hy => by
      rcases List.mem_append.1 hy with hy | hy
      · exact h.routine y hy
      · rw [List.mem_singleton.1 hy]
        exact hx }

theorem emitSaveState_holds (h : c.Holds σ w) : c.emitSaveState.Holds σ w := event_holds h rfl rfl

theorem enter_holds (h : c.Holds σ w) (phase : Phase) : (c.enter phase).Holds σ w := by
  have hp : Holds σ w { c with phase } := { h with }
  unfold enter
  split
  next => exact h
  next =>
    dsimp only
    split
    next => exact emitSaveState_holds hp
    next => exact hp

theorem scheduleSend_holds (h : c.Holds σ w) : c.scheduleSend.Holds σ w := by
  have hs : Holds σ w { c with sendScheduled := true } := { h with }
  unfold scheduleSend
  split
  next => exact command_holds hs rfl
  next => exact h

theorem Follows.scheduleSend (h : c.Follows σ w) : c.scheduleSend.Follows σ w where
  toHolds := scheduleSend_holds h.toHolds
  flight := by simpa using h.flight

/-- Once nothing is in flight any more, the channel settles. -/
theorem settle_follows (h : c.Holds σ w) (hf : Flight w c.queue .allAcked (w.mail ++ c.submissions)) :
    c.settle.Follows σ w where
  toHolds := scheduleSend_holds (enter_holds (c := { c with retryAttempt := 0 }) { h with } _)
  flight := by
    unfold settle
    simp only [scheduleSend_phase, scheduleSend_queue, scheduleSend_submissions, enter_phase, enter_queue,
      enter_submissions]
    exact hf

end Channel
end Coedit
