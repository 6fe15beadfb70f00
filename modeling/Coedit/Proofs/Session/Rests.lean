import Coedit.Proofs.Channel.Calls
import Coedit.Proofs.Channel.Counting
import Coedit.Session.Run

/-!
# Sessions that follow the server

Between calls a session has carried out all commands of its channel and delivered all events, so its channel follows
the server with nothing undelivered.  Whatever comes in, short of failures, leaves it so.

* `Session.pump_spec` — carrying out commands and delivering events;
* `Session.Rests` — what holds between calls;
* `Session.edit_resumes` and others — what comes in, and the timer.
-/

namespace Coedit

/-- The submission that a request to the transport makes. -/
def Outbound.submission? : Outbound → Option DeltaRequest
  | .submit _ request => some request
  | _ => none

namespace Session

open Channel

variable {σ : Schema} {s : Session Document} {x y : Document} {c' : Channel}

/-- The requests of the session that the server has not received. -/
def mail (s : Session Document) : List DeltaRequest := s.outbound.filterMap Outbound.submission?

/-! ## Carrying out commands -/

theorem request_open (ho : s.transportOpen = true) (x : Outbound) :
    s.request x = { s with outbound := s.outbound ++ [x] } := if_pos ho

theorem execute_spec {x : Command} (ho : s.transportOpen = true) (hx : x.isRoutine = true) :
    ∃ outbound sendDeadline, s.execute x = { s with outbound, sendDeadline } ∧
      outbound.filterMap Outbound.submission? = s.mail ++ [x].filterMap Command.submission? := by
  cases x with
  | subscribe document =>
    refine ⟨s.outbound ++ [.subscribe document], s.sendDeadline, by rw [execute, request_open ho], ?_⟩
    rw [List.filterMap_append]
    rfl
  | submit version request =>
    refine ⟨s.outbound ++ [.submit version request], s.sendDeadline, by rw [execute, request_open ho], ?_⟩
    rw [List.filterMap_append]
    rfl
  | scheduleSend delay => exact ⟨s.outbound, some (s.now + delay), rfl, (List.append_nil _).symm⟩
  | unsubscribe => cases hx
  | requestRevision => cases hx
  | scheduleResync => cases hx

theorem foldl_execute (commands : List Command) : ∀ {s : Session Document}, s.transportOpen = true →
    (∀ x ∈ commands, x.isRoutine = true) → ∃ outbound sendDeadline,
      commands.foldl execute s = { s with outbound, sendDeadline } ∧
        outbound.filterMap Outbound.submission? = s.mail ++ commands.filterMap Command.submission? := by
  induction commands with
  | nil => exact fun {s} _ _ => ⟨s.outbound, s.sendDeadline, rfl, (List.append_nil _).symm⟩
  | cons x rest ih =>
    intro s ho hr
    obtain ⟨outbound, deadline, hx, hm⟩ := execute_spec ho (hr x (List.mem_cons_self ..))
    obtain ⟨outbound', deadline', hf, hm'⟩ :=
      ih (s := { s with outbound, sendDeadline := deadline }) ho fun y hy => hr y (List.mem_cons_of_mem _ hy)
    refine ⟨outbound', deadline', by rw [List.foldl_cons, hx, hf], ?_⟩
    have hm : mail { s with outbound, sendDeadline := deadline } = _ := hm
    rw [hm', hm, List.append_assoc, ← List.filterMap_append]
    rfl

/-- The requests of routine commands join the others; a delay sets the send timer. -/
theorem runCommands_spec (ho : s.transportOpen = true) (hr : ∀ x ∈ s.channel.commands, x.isRoutine = true) :
    ∃ outbound sendDeadline,
      s.runCommands = { s with channel := { s.channel with commands := [] }, outbound, sendDeadline } ∧
        outbound.filterMap Outbound.submission? = s.mail ++ s.channel.submissions :=
  foldl_execute s.channel.commands (s := { s with channel := { s.channel with commands := [] } }) ho hr

theorem runCommands_nil (h : s.channel.commands = []) : s.runCommands = s := by
  unfold runCommands
  rw [h, List.foldl_nil, ← h]

/-! ## Delivering events -/

/-- The session once everything was delivered, which made its document `x`. -/
def delivered (s : Session Document) (x : Document) : Session Document :=
  { s with channel := { s.channel with queue := { s.channel.queue with serverOps := [] } }, target := x }

section follows
variable [L : Lengths] {length : Nat}

theorem dispatch_remote {revision : Nat} {op : Composite} {ops : List Composite}
    (hs : s.channel.queue.serverOps = op :: ops) (hx : op.apply s.target = .ok x) :
    s.dispatch (.remoteOp revision) =
      { s with channel := { s.channel with queue := { s.channel.queue with serverOps := ops } }, target := x } := by
  simp only [dispatch, Channel.receive, Queue.pop, hs, List.head?_cons, List.tail_cons, Target.consume, hx]

/-- Announced operations are delivered one after the other, and each applies. -/
theorem foldl_dispatch (events : List Event) : ∀ {s : Session Document}, (∀ e ∈ events, e.isFault = false) →
    events.countP Event.isRemote = s.channel.queue.serverOps.length → s.channel.commands = [] →
    (Composite.calculus σ).Balanced length s.channel.queue s.target y → ∃ x,
      events.foldl (fun s e => (s.dispatch e).runCommands) s = s.delivered x ∧
        (Composite.calculus σ).Balanced length (s.delivered x).channel.queue x y := by
  induction events with
  | nil =>
    intro s _ hcount _ hb
    have hs : s.channel.queue.serverOps = [] := List.length_eq_zero_iff.1 hcount.symm
    have hd : s.delivered s.target = s := by
      unfold delivered
      rw [← hs]
    refine ⟨s.target, hd.symm, ?_⟩
    rw [hd]
    exact hb
  | cons e rest ih =>
    intro s hf hcount hc hb
    have hrest : ∀ e' ∈ rest, e'.isFault = false := fun e' he' => hf e' (List.mem_cons_of_mem _ he')
    have hfault := hf e (List.mem_cons_self ..)
    rw [List.countP_cons] at hcount
    cases e with
    | remoteOp revision =>
      obtain ⟨op, ops, hs⟩ := List.exists_cons_of_length_pos (l := s.channel.queue.serverOps) (by
        rw [← hcount]
        exact Nat.succ_pos _)
      obtain ⟨x, hm, hb'⟩ := Queue.deliver_balanced hb hs
      obtain ⟨_, _, d, hd, hdx⟩ := hm
      have hb' := hb'.congr ((Composite.calculus σ).symm hdx) hb.same_server
      rw [hs, List.length_cons] at hcount
      have hrun : (s.dispatch (.remoteOp revision)).runCommands =
          { s with
            channel := { s.channel with queue := { s.channel.queue with serverOps := ops } }
            target := d } := by
        rw [dispatch_remote hs hd]
        exact runCommands_nil hc
      rw [List.foldl_cons, hrun]
      exact ih hrest (Nat.succ.inj hcount) hc hb'
    | ack op clean =>
      rw [List.foldl_cons, dispatch, runCommands_nil hc]
      exact ih hrest hcount hc hb
    | saveState saving pending =>
      have hsame : s.dispatch (.saveState saving pending) = s := rfl
      rw [List.foldl_cons, hsame, runCommands_nil hc]
      exact ih hrest hcount hc hb
    | error fault fatal => cases hfault

/-- What is around the channel of a session. -/
def around (w : Setting) (s : Session Document) : Setting := { w with mail := s.mail, document := s.target }

variable {w : Setting} {D : Document}

/-- Carrying out commands and delivering events changes only what these are about. -/
theorem pump_spec (ho : s.transportOpen = true) (h : s.channel.Holds σ (s.around w)) :
    ∃ outbound sendDeadline x,
      s.pump = delivered { s with
        channel := { s.channel with commands := [], events := [] }
        outbound := outbound
        sendDeadline := sendDeadline } x ∧
      outbound.filterMap Outbound.submission? = s.mail ++ s.channel.submissions ∧
      ∃ y, (Composite.calculus σ).Chain (w.history.take s.channel.queue.revision) .empty y ∧
        (Composite.calculus σ).Balanced (w.added s.channel.queue.revision) { s.channel.queue with serverOps := [] } x
          y := by
  obtain ⟨outbound, deadline, hrun, hmail⟩ := runCommands_spec ho h.routine
  obtain ⟨y, hy, hb⟩ := h.balanced
  obtain ⟨x, hfold, hb'⟩ := foldl_dispatch s.channel.events (s := { s with
    channel := { s.channel with commands := [], events := [] }
    outbound := outbound
    sendDeadline := deadline }) h.faultless h.announced rfl hb
  refine ⟨outbound, deadline, x, ?_, hmail, y, hy, hb'⟩
  unfold pump
  rw [hrun]
  exact hfold

/-! ## Between calls -/

/-- What holds of a session between calls: its channel follows the server, no delta at hand could be taken in, and
all commands are carried out and all events delivered. -/
structure Rests (σ : Schema) (w : Setting) (s : Session Document) : Prop where
  follows : s.channel.Follows σ (s.around w)
  drained : s.channel.Drained
  commands : s.channel.commands = []
  events : s.channel.events = []
  transport : s.transportOpen = true
  resync : s.resyncDeadline = none

/-- A session rests after a call that left its channel following the server, with the document as it is by then. -/
theorem after_rests (ho : s.transportOpen = true) (hr : s.resyncDeadline = none)
    (hf : c'.Follows σ { s.around w with document := x }) (hd : c'.Drained) :
    (after { s with target := x } c').Rests σ w ∧
      ∀ revision, c'.Knows revision → (after { s with target := x } c').channel.Knows revision := by
  have hf : c'.Follows σ (around w { s with target := x, channel := c' }) := hf
  obtain ⟨outbound, deadline, x', hpump, hmail, y, hy, hb⟩ :=
    pump_spec (s := { s with target := x, channel := c' }) ho hf.toHolds
  have hafter : after { s with target := x } c' = _ := hpump
  rw [hafter]
  refine ⟨⟨⟨?_, ?_⟩, hd, rfl, rfl, ho, hr⟩, fun _ hr => hr⟩
  · exact
      { hf with
        stamped := ⟨hf.stamped.unacked, hf.stamped.queued, hf.stamped.single⟩
        balanced := ⟨y, hy, hb⟩
        faultless := fun _ he => absurd he List.not_mem_nil
        announced := rfl
        routine := fun _ hx => absurd hx List.not_mem_nil }
  · have hset : Flight (around w (delivered { s with
        channel := { c' with commands := [], events := [] }
        outbound := outbound
        sendDeadline := deadline } x')) c'.queue c'.phase (s.mail ++ c'.submissions) :=
      hf.flight.of_setting rfl rfl rfl
    show Flight _ _ c'.phase (outbound.filterMap Outbound.submission? ++ [])
    rw [List.append_nil, hmail]
    exact hset.of_eq rfl rfl

/-- After a call a session rests again and knows all it knew. -/
structure Resumes (σ : Schema) (w : Setting) (s s' : Session Document) : Prop where
  rests : s'.Rests σ w
  knows : ∀ revision, s.channel.Knows revision → s'.channel.Knows revision

theorem after_resumes (ho : s.transportOpen = true) (hr : s.resyncDeadline = none)
    (hc : CatchesUp σ { s.around w with document := x } s.channel c') :
    Resumes σ w s (after { s with target := x } c') :=
  let ⟨hrests, hknows⟩ := after_rests ho hr hc.follows hc.drained
  ⟨hrests, fun r hr => hknows r (hc.knows r hr)⟩

/-- A call that leaves the document as it is. -/
theorem call_resumes (h : s.Rests σ w) (hc : CatchesUp σ (s.around w) s.channel c') :
    Resumes σ w s (s.after c') :=
  after_resumes h.transport h.resync hc

/-- The mail and the document of a setting do not count: the session has its own. -/
theorem Rests.of_around {w' : Setting} (h : s.Rests σ w) (he : s.around w' = s.around w) : s.Rests σ w' :=
  { h with
    follows := by
      rw [he]
      exact h.follows }

theorem Rests.hasEnded (h : s.Rests σ w) : s.hasEnded = false := by
  rw [Session.hasEnded, h.follows.flight.isConnected]
  rfl

theorem Rests.serverOps (h : s.Rests σ w) : s.channel.queue.serverOps = [] := by
  have hcount := h.follows.announced
  rw [h.events] at hcount
  exact List.length_eq_zero_iff.1 hcount.symm

theorem deliver_eq [R : Revisions] (h : s.Rests σ w) (x : Inbound) : s.deliver x = (s.handle x).2 := by
  rw [deliver, h.hasEnded]
  rfl

/-- A session is connected over the empty document, of which the server has no history. -/
theorem connect_rests (document : DocumentId) (user : UserId) (session : SessionId) (config : Config) :
    Rests σ ⟨user, session, [], [], [], .empty, 0⟩
      ((Session.new (.new document user session config) Document.empty).connect 0).2 := by
  obtain ⟨c', hc, hf, hd⟩ := connect_follows (σ := σ) document user session config
  have hrests := after_rests (s := Session.new (.new document user session config) Document.empty)
    (w := ⟨user, session, [], [], [], .empty, 0⟩) rfl rfl hf hd
  simp only [connect, Session.new, hc, called]
  exact hrests.1

/-! ## What comes in -/

variable [R : Revisions]

theorem handle_edit {op : Composite} (hopen : s.channel.isConnected = true)
    (hx : op.apply s.target = .ok x) : s.handle (.edit op) = called { s with target := x } (s.channel.submit op) := by
  simp only [handle, edit, hopen, Bool.not_true, Bool.false_eq_true, if_false, Target.consume, hx]

/-- A local edit that applies is accepted, and is pending from then on. -/
theorem edit_resumes {op : Composite} (h : s.Rests σ w) (hw : L.arithmetic.Fits (w.total + op.insertLength))
    (hf : ∀ t ∈ op.components, t.Fits σ) (hx : op.apply s.target = .ok x) :
    ∃ s', s.handle (.edit op) = (.ok (), s') ∧
      Resumes σ { w with pending := w.pending + op.insertLength } s s' := by
  obtain ⟨y, _, hb⟩ := h.follows.balanced
  have hm : (Composite.calculus σ).Maps op s.target x := Calculus.maps_of_apply hf hb.same_client hx
  obtain ⟨c', hsubmit, hc⟩ := submit_catchesUp h.follows h.drained hw hm
  refine ⟨after { s with target := x } c', ?_, after_resumes h.transport h.resync hc⟩
  rw [handle_edit h.follows.flight.isConnected hx, hsubmit]
  rfl

theorem beginCompound_resumes (h : s.Rests σ w) : Resumes σ w s (s.deliver .beginCompound) := by
  rw [deliver_eq h]
  exact call_resumes h (beginCompound_catchesUp h.follows h.drained)

theorem endCompound_resumes (h : s.Rests σ w) : Resumes σ w s (s.deliver .endCompound) := by
  rw [deliver_eq h, handle]
  cases he : s.channel.endCompound with
  | error e => exact ⟨h, fun _ hr => hr⟩
  | ok c' => exact call_resumes h (endCompound_catchesUp h.follows h.drained he)

/-- Broadcast deltas become known. -/
theorem delta_resumes {m : DeltaMessage} (h : s.Rests σ w) (hH : (Composite.calculus σ).Chain w.history .empty D)
    (hw : L.arithmetic.Fits w.total) (hR : R.arithmetic.Fits (w.history.length + 1))
    (hm : m.revision ≤ w.history.length) (hrecorded : ∀ e ∈ m.revisions (R := .exact), Records w.history e.1 e.2) :
    Resumes σ w s (s.deliver (.delta m)) ∧
      ∀ e ∈ m.revisions (R := .exact), (s.deliver (.delta m)).channel.Knows e.1 := by
  obtain ⟨hc, hknown⟩ := delta_catchesUp h.follows hH hw hrecorded
  rw [deliver_eq h, handle, delta_counted hR (fun _ => h.follows.counted) hm]
  have hknows := (after_rests h.transport h.resync hc.follows hc.drained).2
  exact ⟨call_resumes h hc, fun e he => hknows e.1 (hknown e he)⟩

theorem submitAcked_resumes {n : Nat} (h : s.Rests σ w) (hH : (Composite.calculus σ).Chain w.history .empty D)
    (hw : L.arithmetic.Fits w.total) (hR : R.arithmetic.Fits (w.history.length + 1)) (version : Nat)
    (hn : n ∈ w.heads) : Resumes σ w s (s.deliver (.submitAcked version n)) := by
  have hle : n ≤ w.history.length := h.follows.flight.heads_le h.follows.head hn
  rw [deliver_eq h, handle, submitAcked_counted hR (fun _ => h.follows.counted) h.follows.flight.single version n hle]
  exact call_resumes h (submitAcked_catchesUp h.follows h.drained hH hw version hn)

omit R in
theorem fireSend_resumes (h : s.Rests σ w) : Resumes σ w s s.fireSend := by
  have hoff : Rests σ w { s with sendDeadline := none } := { h with }
  obtain ⟨hrests, hknows⟩ := call_resumes hoff (flush_catchesUp hoff.follows hoff.drained)
  exact ⟨hrests, hknows⟩

theorem fireResyncIfDue_eq (h : s.resyncDeadline = none) : s.fireResyncIfDue = s := by
  rw [fireResyncIfDue, resyncAt, h]
  rfl

/-- Time passes, and the send timer may go off. -/
theorem wait_resumes (h : s.Rests σ w) (delay : Nat) : Resumes σ w s (s.wait delay) := by
  have hlater : Rests σ w { s with now := s.now + delay } := { h with }
  have hsend : Resumes σ w s (fireSendIfDue { s with now := s.now + delay }) := by
    unfold fireSendIfDue
    split
    next =>
      obtain ⟨hrests, hknows⟩ := fireSend_resumes hlater
      exact ⟨hrests, hknows⟩
    next => exact ⟨hlater, fun _ hr => hr⟩
  have hfirst : resyncFirst { s with now := s.now + delay } = false := by
    unfold resyncFirst
    rw [resyncAt, hlater.resync]
    split <;> simp_all
  rw [wait, fireTimers, hfirst, if_neg (by simp), fireResyncIfDue_eq hsend.rests.resync]
  exact hsend

end follows

end Session
end Coedit
