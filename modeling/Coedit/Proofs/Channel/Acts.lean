import Coedit.Channel.Run
import Coedit.Proofs.Channel.Steps
import Coedit.Proofs.Queue.Rewriting

/-!
# What a channel does, one act at a time

A call of a channel is a chain of acts.  Each of them changes the phase, the queue or the deltas at hand at most once,
and has a guard that says when it is due; between two acts a channel does no more than tell its save state and schedule
a send.

* `Channel.Act`, `Channel.Step` — the acts, with their guards, and what may follow each of them;
* `Channel.Orderly` — what holds of a channel whatever it was given;
* `Channel.new_orderly`, `Channel.Step.orderly` — it holds at first, and every act keeps it.
-/

namespace Coedit

def Event.isSaveState : Event → Bool
  | .saveState .. => true
  | _ => false

def Command.isScheduleSend : Command → Bool
  | .scheduleSend _ => true
  | _ => false

theorem Command.eq_scheduleSend {y : Command} (h : y.isScheduleSend = true) : ∃ delay, y = .scheduleSend delay := by
  cases y with
  | scheduleSend delay => exact ⟨delay, rfl⟩
  | _ => cases h

def Call.reported? : Call → Option Fault
  | .submitFailed _ fault | .revisionFailed _ fault => some fault
  | _ => none

namespace Channel

open Composite (Rewritten)

variable {c c' c'' m : Channel} {x : Call} {q : Queue Composite} {op : Composite} {revision head : Nat} {phase : Phase}

theorem isConnected_iff : c.isConnected = true ↔ c.phase ≠ .uninitialized := by
  unfold isConnected
  exact bne_iff_ne

/-- The channel may raise the fault itself. Of the faults of a queue this is only the one that an operation of its own
session comes next though nothing is in flight. -/
def MayRaise (c : Channel) (fault : Fault) : Prop :=
  ∀ cause, fault = .queue cause → c.queue.unacked = [] ∧ cause = .ownEcho (c.queue.revision + 1)

theorem mayRaise_of_queue? {fault : Fault} (c : Channel) (h : fault.queue? = none) : c.MayRaise fault := by
  rintro cause rfl
  cases h

/-! ## Between two acts -/

/-- Only the save state was told and sends scheduled. -/
inductive Quiet (c : Channel) : Channel → Prop where
  | mk {scheduled : Bool} {depth : Nat} {es : List Event} {xs : List Command}
      (told : ∀ e ∈ es, e.isSaveState = true) (timed : ∀ y ∈ xs, y.isScheduleSend = true)
      (due : xs ≠ [] → c.phase ≠ .uninitialized) :
      Quiet c { c with
        sendScheduled := scheduled
        compoundDepth := depth
        events := c.events ++ es
        commands := c.commands ++ xs }

theorem quiet_of_eq (hscheduled : c' = { c with sendScheduled := c'.sendScheduled, compoundDepth := c'.compoundDepth }) :
    c.Quiet c' := by
  have h : c.Quiet { c with
      sendScheduled := c'.sendScheduled
      compoundDepth := c'.compoundDepth
      events := c.events ++ []
      commands := c.commands ++ [] } :=
    .mk (fun _ he => absurd he List.not_mem_nil) (fun _ hy => absurd hy List.not_mem_nil) fun h => absurd rfl h
  rw [List.append_nil, List.append_nil] at h
  rw [hscheduled]
  exact h

theorem Quiet.phase_eq (h : c.Quiet c') : c'.phase = c.phase := by
  cases h
  rfl

theorem Quiet.refl (c : Channel) : c.Quiet c := quiet_of_eq rfl

theorem Quiet.trans (h : c.Quiet c') (h' : c'.Quiet c'') : c.Quiet c'' := by
  cases h with
  | @mk _ _ es xs told timed due =>
    cases h' with
    | @mk _ _ es' xs' told' timed' due' =>
      dsimp only
      rw [List.append_assoc, List.append_assoc]
      refine .mk (List.forall_mem_append.2 ⟨told, told'⟩) (List.forall_mem_append.2 ⟨timed, timed'⟩) fun hne => ?_
      by_cases hxs : xs = []
      · exact due' fun hxs' => hne (by rw [hxs, hxs', List.append_nil])
      · exact due hxs

theorem emitSaveState_quiet (c : Channel) : c.Quiet c.emitSaveState := by
  have h : c.Quiet { c.emitSaveState with commands := c.commands ++ [] } :=
    .mk (List.forall_mem_singleton.2 rfl) (fun _ hy => absurd hy List.not_mem_nil) fun h => absurd rfl h
  rw [List.append_nil] at h
  exact h

theorem enter_quiet (c : Channel) (phase : Phase) : Quiet { c with phase } (c.enter phase) := by
  unfold enter
  split
  next hsame =>
    rw [← hsame]
    exact .refl c
  next =>
    dsimp only
    split
    next => exact emitSaveState_quiet _
    next => exact .refl _

theorem scheduleSend_quiet (c : Channel) : c.Quiet c.scheduleSend := by
  unfold scheduleSend
  split
  next hdue =>
    simp only [maySend, Bool.and_eq_true, beq_iff_eq] at hdue
    have hphase : c.phase = .allAcked := hdue.1.1.1.1
    have h : c.Quiet { c with
        sendScheduled := true
        events := c.events ++ []
        commands := c.commands ++ [.scheduleSend c.config.sendDelay] } :=
      .mk (fun _ he => absurd he List.not_mem_nil) (by simp [Command.isScheduleSend]) fun _ => by simp [hphase]
    rw [List.append_nil] at h
    exact h
  next => exact .refl c

theorem settle_quiet (c : Channel) : Quiet { c with retryAttempt := 0, phase := .allAcked } c.settle :=
  (enter_quiet { c with retryAttempt := 0 } .allAcked).trans (scheduleSend_quiet _)

/-! ## Acts -/

/-- The channel once it lost its connection, after telling of faults. -/
def cut (c : Channel) (queue : Queue Composite) (faults : List Fault) : Channel :=
  { c with
    queue
    retryVersion := c.retryVersion + 1
    buffered := .empty
    sendScheduled := false
    compoundDepth := 0
    phase := .uninitialized
    events := c.events ++ faults.map (.error · true)
    commands := c.commands ++ [.unsubscribe c.document] }

/-- The request that submits what is in flight. -/
def request (c : Channel) : DeltaRequest := ⟨c.document, c.session, c.queue.revision, c.queue.unacked⟩

/-- What a channel can do in the course of a call. -/
inductive Act [Lengths] (x : Call) (c : Channel) : Channel → Prop where
  | stayed : Act x c c
  | connected {revision : Nat} (call : x = .connect revision) (phase : c.phase = .uninitialized) :
      Act x c { c with
        queue := .new revision
        knownHead := revision
        retryAttempt := 0
        phase := .allAcked
        commands := c.commands ++ [.subscribe c.document] }
  /-- The connection ends, on demand or by a fatal fault. -/
  | ended {queue : Queue Composite} {faults : List Fault} (phase : c.phase ≠ .uninitialized)
      (spoils : c.queue.Spoils queue) (cause : ∀ fault ∈ faults, x.reported? = some fault ∨ c.MayRaise fault) :
      Act x c (c.cut queue faults)
  | recorded {op : Composite} {queue : Queue Composite} (call : x = .submit op) (phase : c.phase ≠ .uninitialized)
      (result : c.queue.record (op.withOrigin c.user c.session) = (.ok (), queue)) : Act x c { c with queue }
  /-- The queued operations cancelled out. -/
  | cancelled (call : x = .flush) (may : c.maySend = true) (compacted : c.queue.compacted = .ok []) :
      Act x c { c with queue := c.queue.sent [] }
  | sent {batch : List Composite} (call : x = .flush) (may : c.maySend = true)
      (compacted : c.queue.compacted = .ok batch) (some : batch ≠ []) :
      Act x c { c with
        queue := c.queue.sent batch
        phase := .waitingAck
        commands := c.commands ++ [.submit c.retryVersion ⟨c.document, c.session, c.queue.revision, batch⟩] }
  /-- The deltas at hand change, and the server may be known to be further. -/
  | heard {head : Nat} {buffered : Table Nat Composite} (phase : c.phase ≠ .uninitialized)
      (later : c.knownHead ≤ head)
      (told : ∀ r, buffered.contains r = true → c.buffered.contains r = true ∨ r ≤ head) :
      Act x c { c with knownHead := head, buffered }
  /-- An expected echo arrives. -/
  | echoed (phase : c.phase ≠ .uninitialized) (due : c.queue.expectedAcks ≠ 0) :
      Act x c { c with queue := { c.queue with expectedAcks := c.queue.expectedAcks - 1 } }
  /-- The echo of the oldest operation in flight arrives. -/
  | acked {u : Composite} {us : List Composite} {clean : Bool} (phase : c.phase ≠ .uninitialized)
      (due : c.queue.expectedAcks = 0) (flight : c.queue.unacked = u :: us) (known : c.queue.revision < c.knownHead)
      (waits : us ≠ [] ∨ ¬ (c.phase = .waitingAck ∨ c.phase = .delayResync)) :
      Act x c { c with
        queue := { c.queue with revision := c.queue.revision + 1, unacked := us }
        events := c.events ++ [.ack (u.withRevision (c.queue.revision + 1)) clean] }
  /-- The echo of the last operation in flight arrives before the channel asks for the head. -/
  | settled {u : Composite} {clean : Bool} (phase : c.phase = .waitingAck ∨ c.phase = .delayResync)
      (due : c.queue.expectedAcks = 0) (flight : c.queue.unacked = [u]) (known : c.queue.revision < c.knownHead) :
      Act x c { c with
        queue := { c.queue with revision := c.queue.revision + 1, unacked := [] }
        events := c.events ++ [.ack (u.withRevision (c.queue.revision + 1)) clean]
        retryAttempt := 0
        phase := .allAcked }
  | received {op : Composite} {queue : Queue Composite} (phase : c.phase ≠ .uninitialized)
      (due : c.queue.expectedAcks = 0) (result : c.queue.receive (c.queue.revision + 1) op = (.ok (), queue))
      (known : c.queue.revision < c.knownHead) :
      Act x c { c with queue, events := c.events ++ [.remoteOp (c.queue.revision + 1)] }
  /-- The reply to the submission shows that nothing came in between. -/
  | ackedAll {version : Nat} {clean : Bool}
      (call : x = .submitAcked version (c.queue.revision + c.queue.unacked.length)) (phase : c.phase = .waitingAck) :
      Act x c { c with
        knownHead := max c.knownHead (c.queue.revision + c.queue.unacked.length)
        queue := { c.queue with
          revision := c.queue.revision + c.queue.unacked.length
          unacked := []
          expectedAcks := c.queue.expectedAcks + c.queue.unacked.length }
        events := c.events ++ ackEvents clean (c.queue.revision + 1) c.queue.unacked
        retryAttempt := 0
        phase := .allAcked }
  /-- A request failed, but not for good. -/
  | delayed {fault : Fault} {attempt delay : Nat} (call : x.reported? = some fault) (mild : fault.isFatal = false)
      (phase : c.phase = .waitingAck ∨ c.phase = .waitingSync) :
      Act x c { c with
        retryAttempt := attempt
        retryVersion := c.retryVersion + 1
        events := c.events ++ [.error fault false]
        phase := .delayResync
        commands := c.commands ++ [.scheduleResync (c.retryVersion + 1) delay] }
  /-- The backoff ran out. -/
  | waited {version : Nat} (call : x = .resyncTimer version) (phase : c.phase = .delayResync) :
      Act x c { c with
        phase := .waitingSync
        commands := c.commands ++ [.requestRevision c.retryVersion c.floor] }
  /-- The channel is in step, with nothing in flight. -/
  | synced (phase : c.phase = .waitingSync) (caught : c.knownHead ≤ c.queue.revision) (flight : c.queue.unacked = []) :
      Act x c { c with retryAttempt := 0, phase := .allAcked }
  /-- The channel is in step, and a batch is in flight. -/
  | resumed (phase : c.phase = .waitingSync) (caught : c.knownHead ≤ c.queue.revision) (flight : c.queue.unacked ≠ []) :
      Act x c { c with phase := .waitingAck, commands := c.commands ++ [.submit c.retryVersion c.request] }
  | delivered (call : x = .receive) : Act x c { c with queue := { c.queue with serverOps := c.queue.serverOps.tail } }

/-- One act, and what is told and scheduled after it. -/
def Step [Lengths] (x : Call) (c c' : Channel) : Prop := ∃ m, Act x c m ∧ m.Quiet c'

theorem Act.step [Lengths] (h : Act x c c') : Step x c c' := ⟨c', h, .refl c'⟩

theorem Quiet.step [Lengths] (h : c.Quiet c') : Step x c c' := ⟨c, .stayed, h⟩

/-! ## What every act keeps -/

/-- What holds of a channel whatever it was given. -/
structure Orderly (c : Channel) : Prop where
  echoes : c.queue.expectedAcks ≤ c.queue.revision
  stamped : c.phase ≠ .uninitialized → c.queue.Stamped ⟨some c.user, some c.session⟩
  single : c.phase ≠ .uninitialized → c.queue.unacked.length ≤ 1
  idle : c.phase = .allAcked → c.queue.unacked = []
  flying : c.phase = .waitingAck → c.queue.unacked ≠ []
  /-- The server is known to have reached what was accounted for, -/
  head : c.phase ≠ .uninitialized → c.queue.revision ≤ c.knownHead
  /-- and what is at hand. -/
  ahead : ∀ r, c.buffered.contains r = true → r ≤ c.knownHead
  closed : c.phase = .uninitialized → ∀ r, c.buffered.contains r = false

theorem new_orderly (document : DocumentId) (user : UserId) (session : SessionId) (config : Config) :
    (new document user session config).Orderly where
  echoes := Nat.le_refl 0
  stamped h := absurd rfl h
  single h := absurd rfl h
  idle := nofun
  flying := nofun
  head h := absurd rfl h
  ahead _ hr := absurd hr Bool.false_ne_true
  closed _ _ := rfl

theorem Quiet.orderly (hc : c.Orderly) (h : c.Quiet c') : c'.Orderly := by
  obtain ⟨_, _, _⟩ := h
  exact { hc with }

/-- A connected channel may enter another phase, if what is in flight suits it. -/
theorem Orderly.rephase (phase : Phase) (hc : c.Orderly) (hphase : c.phase ≠ .uninitialized) (hopen : phase ≠ .uninitialized)
    (hidle : phase = .allAcked → c.queue.unacked = []) (hflying : phase = .waitingAck → c.queue.unacked ≠ []) :
    Orderly { c with phase } :=
  { hc with
    stamped := fun _ => hc.stamped hphase
    single := fun _ => hc.single hphase
    idle := hidle
    flying := hflying
    head := fun _ => hc.head hphase
    closed := fun h => absurd h hopen }

theorem maySend_iff : c.maySend = true ↔
    c.phase = .allAcked ∧ c.compoundDepth = 0 ∧ c.queue.unacked = [] ∧ c.queue.queued ≠ [] := by
  simp [maySend, and_assoc]

theorem Act.orderly [Lengths] (hc : c.Orderly) (h : Act x c c') : c'.Orderly := by
  cases h with
  | stayed => exact hc
  | connected call phase =>
    exact
      { echoes := Nat.zero_le _
        stamped := fun _ => Queue.stamped_new _ _
        single := fun _ => Nat.zero_le _
        idle := fun _ => rfl
        flying := nofun
        head := fun _ => Nat.le_refl _
        ahead := fun r hr => absurd hr (Bool.eq_false_iff.1 (hc.closed phase r))
        closed := nofun }
  | ended phase spoils =>
    exact
      { echoes := by
          have := hc.echoes
          simp only [cut, spoils.revision, spoils.expectedAcks, this]
        stamped := fun h => absurd rfl h
        single := fun h => absurd rfl h
        idle := nofun
        flying := nofun
        head := fun h => absurd rfl h
        ahead := fun _ hr => absurd hr Bool.false_ne_true
        closed := fun _ _ => rfl }
  | recorded call phase result =>
    have hstamped := (hc.stamped phase).record rfl result
    obtain ⟨serverOps, op', _, rfl⟩ := Queue.record_eq_ok result
    exact { hc with stamped := fun _ => hstamped }
  | cancelled call may compacted =>
    obtain ⟨phase, -, -, -⟩ := maySend_iff.1 may
    have hphase : c.phase ≠ .uninitialized := by simp [phase]
    exact
      { hc with
        stamped := fun _ => ((hc.stamped hphase).sent compacted).1
        single := fun _ => Nat.zero_le _
        idle := fun _ => rfl
        flying := fun h => by simp [phase] at h }
  | sent call may compacted some =>
    obtain ⟨phase, -, -, -⟩ := maySend_iff.1 may
    have hphase : c.phase ≠ .uninitialized := by simp [phase]
    obtain ⟨hstamped, hlen⟩ := (hc.stamped hphase).sent compacted
    exact
      { hc with
        stamped := fun _ => hstamped
        single := fun _ => hlen
        idle := nofun
        flying := fun _ => some
        head := fun _ => hc.head hphase
        closed := nofun }
  | heard phase later told =>
    exact
      { hc with
        head := fun _ => Nat.le_trans (hc.head phase) later
        ahead := fun r hr => by
          rcases told r hr with hr | hr
          · exact Nat.le_trans (hc.ahead r hr) later
          · exact hr
        closed := fun h => absurd h phase }
  | echoed phase due =>
    exact
      { hc with
        echoes := Nat.le_trans (Nat.sub_le ..) hc.echoes
        stamped := fun _ => (hc.stamped phase).acknowledge (fun _ hop => hop) _ _ }
  | acked phase due flight known waits =>
    have hsingle := hc.single phase
    rw [flight] at hsingle
    exact
      { hc with
        echoes := by simp [due]
        stamped := fun _ =>
          (hc.stamped phase).acknowledge (fun _ hop => flight ▸ List.mem_cons_of_mem _ hop) _ _
        single := fun _ => Nat.le_trans (Nat.le_succ _) hsingle
        idle := fun h => absurd (hc.idle h) (by simp [flight])
        flying := fun h => waits.resolve_right fun hn => hn (.inl h)
        head := fun _ => known }
  | settled phase due flight known =>
    have hphase : c.phase ≠ .uninitialized := by rcases phase with h | h <;> simp [h]
    exact
      { hc with
        echoes := by simp [due]
        stamped := fun _ => (hc.stamped hphase).acknowledge (fun _ hop => absurd hop List.not_mem_nil) _ _
        single := fun _ => Nat.zero_le _
        idle := fun _ => rfl
        flying := nofun
        head := fun _ => known
        closed := nofun }
  | received phase due result known =>
    obtain ⟨hacks, hrewritten⟩ := Queue.receive_keeps result
    obtain ⟨_, hrevision, _⟩ := Queue.receive_revision result
    exact
      { hc with
        echoes := by simp [hacks, due]
        stamped := fun _ => (hc.stamped phase).receive result
        single := fun h => hrewritten.length_eq ▸ hc.single h
        idle := fun h => hrewritten.eq_nil_iff.1 (hc.idle h)
        flying := fun h => mt hrewritten.eq_nil_iff.2 (hc.flying h)
        head := fun _ => by
          rw [hrevision]
          exact known }
  | ackedAll call phase =>
    have hphase : c.phase ≠ .uninitialized := by simp [phase]
    exact
      { echoes := Nat.add_le_add_right hc.echoes _
        stamped := fun _ => (hc.stamped hphase).acknowledge (fun _ hop => absurd hop List.not_mem_nil) _ _
        single := fun _ => Nat.zero_le _
        idle := fun _ => rfl
        flying := nofun
        head := fun _ => Nat.le_max_right ..
        ahead := fun r hr => Nat.le_trans (hc.ahead r hr) (Nat.le_max_left ..)
        closed := nofun }
  | delayed call _ phase =>
    have hphase : c.phase ≠ .uninitialized := by rcases phase with h | h <;> simp [h]
    exact { hc.rephase .delayResync hphase nofun nofun nofun with }
  | waited call phase => exact { hc.rephase .waitingSync (by simp [phase]) nofun nofun nofun with }
  | synced phase _ flight => exact { hc.rephase .allAcked (by simp [phase]) nofun (fun _ => flight) nofun with }
  | resumed phase _ flight =>
    exact { hc.rephase .waitingAck (by simp [phase]) nofun nofun (fun _ => flight) with }
  | delivered call =>
    exact { hc with stamped := fun h => ⟨(hc.stamped h).unacked, (hc.stamped h).queued, (hc.stamped h).single⟩ }

theorem Step.orderly [Lengths] (hc : c.Orderly) (h : Step x c c') : c'.Orderly := by
  obtain ⟨m, hact, hquiet⟩ := h
  exact hquiet.orderly (hact.orderly hc)

end Channel
end Coedit
