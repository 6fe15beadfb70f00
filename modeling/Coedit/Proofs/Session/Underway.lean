import Coedit.Proofs.Channel.Accounting
import Coedit.Proofs.Channel.Alarms
import Coedit.Proofs.Session.Moves

/-!
# No session is stranded

Whatever happens to a session, nothing is left undone when it is over, and what the session waits for is under way: the
timers that its channel relies on run, and the request whose answer it waits for was handed to the transport.

* `Session.execute_alarms` — carrying out commands;
* `Session.Poised` — what holds whenever all commands are carried out, also while events are being delivered;
* `Session.Idle`, `Session.move_idle` — what holds between moves;
* `Session.run_underway` — what may happen to a session never strands it.
-/

namespace Coedit

open Composite (Rewritten)

/-- What a request submits, and under which version. -/
def Outbound.submitted? : Outbound → Option (Nat × DeltaRequest)
  | .submit version request => some (version, request)
  | _ => none

/-- Under which version a request asks for the head, and after which revision. -/
def Outbound.asked? : Outbound → Option (Nat × Nat)
  | .requestRevision version _ since => some (version, since)
  | _ => none

namespace Session

variable {τ : Type} {s : Session τ} {x : Call}

/-- The timers that run, and the requests made last. -/
def alarms (s : Session τ) : Alarms where
  send := s.sendDeadline.isSome
  resync := s.resyncDeadline.map (·.1)
  submitted := (s.outbound.filterMap Outbound.submitted?).getLast?
  asked := (s.outbound.filterMap Outbound.asked?).getLast?

/-! ## Carrying out commands -/

theorem request_of_open (ho : s.transportOpen = true) (x : Outbound) :
    s.request x = { s with outbound := s.outbound ++ [x] } := if_pos ho

theorem execute_alarms (ho : s.transportOpen = true) (x : Command) : (s.execute x).alarms = s.alarms.after x := by
  cases x with
  | scheduleSend | scheduleResync => rfl
  | unsubscribe =>
    rw [execute, request_of_open (s := { s with sendDeadline := none, resyncDeadline := none }) ho]
    simp [alarms, Alarms.after, List.filterMap_append, Outbound.submitted?, Outbound.asked?]
  | _ =>
    rw [execute, request_of_open ho]
    simp [alarms, Alarms.after, List.filterMap_append, Outbound.submitted?, Outbound.asked?]

theorem request_keeps (s : Session τ) (x : Outbound) :
    (s.request x).channel = s.channel ∧ (s.request x).target = s.target ∧
      (s.request x).transportOpen = s.transportOpen := by
  unfold request
  split <;> exact ⟨rfl, rfl, rfl⟩

theorem execute_keeps (s : Session τ) (x : Command) :
    (s.execute x).channel = s.channel ∧ (s.execute x).target = s.target ∧
      (s.execute x).transportOpen = s.transportOpen := by
  cases x with
  | scheduleSend | scheduleResync => exact ⟨rfl, rfl, rfl⟩
  | unsubscribe => exact request_keeps { s with sendDeadline := none, resyncDeadline := none } _
  | _ => exact s.request_keeps _

theorem foldl_execute_keeps : ∀ (xs : List Command) (s : Session τ),
    (xs.foldl execute s).channel = s.channel ∧ (xs.foldl execute s).target = s.target ∧
      (xs.foldl execute s).transportOpen = s.transportOpen
  | [], _ => ⟨rfl, rfl, rfl⟩
  | x :: xs, s => by
    obtain ⟨hchannel, htarget, htransport⟩ := s.execute_keeps x
    obtain ⟨hchannel', htarget', htransport'⟩ := foldl_execute_keeps xs (s.execute x)
    exact ⟨hchannel'.trans hchannel, htarget'.trans htarget, htransport'.trans htransport⟩

theorem runCommands_keeps (s : Session τ) :
    s.runCommands.channel = { s.channel with commands := [] } ∧ s.runCommands.target = s.target ∧
      s.runCommands.transportOpen = s.transportOpen :=
  foldl_execute_keeps s.channel.commands { s with channel := { s.channel with commands := [] } }

theorem foldl_execute_alarms : ∀ (xs : List Command) {s : Session τ}, s.transportOpen = true →
    (xs.foldl execute s).alarms = xs.foldl Alarms.after s.alarms
  | [], _, _ => rfl
  | x :: xs, s, ho => by
    obtain ⟨-, -, htransport⟩ := s.execute_keeps x
    have halarms := foldl_execute_alarms xs (htransport.trans ho)
    rwa [execute_alarms ho] at halarms

/-- All commands are carried out, and the timers and requests suit the channel. -/
structure Poised (s : Session τ) : Prop where
  orderly : s.channel.Orderly
  dated : s.channel.Dated
  awake : s.channel.Awake
  armed : s.channel.Armed s.alarms
  send : s.alarms.send = s.channel.sendScheduled
  commands : s.channel.commands = []
  transport : s.transportOpen = true

/-- Carrying out the commands leaves the session poised, if they suit the channel that lists them. -/
theorem runCommands_poised (ho : s.transportOpen = true) (hc : s.channel.Orderly) (hd : s.channel.Dated)
    (ha : s.channel.Awake) (harmed : s.channel.Armed (s.channel.commands.foldl Alarms.after s.alarms))
    (hsend : (s.channel.commands.foldl Alarms.after s.alarms).send = s.channel.sendScheduled) :
    s.runCommands.Poised := by
  obtain ⟨hchannel, -, htransport⟩ := s.runCommands_keeps
  have halarms : s.runCommands.alarms = s.channel.commands.foldl Alarms.after s.alarms :=
    foldl_execute_alarms s.channel.commands (s := { s with channel := { s.channel with commands := [] } }) ho
  refine ⟨?_, ?_, ?_, ?_, ?_, ?_, htransport.trans ho⟩
  · rw [hchannel]
    exact { hc with }
  · rw [hchannel]
    exact hd
  · rw [hchannel]
    exact { ha with due := ha.due }
  · rw [halarms, hchannel]
    exact { harmed with }
  · rw [halarms, hchannel]
    exact hsend
  · rw [hchannel]

/-- A call leaves the session poised, if what it lists suits the timers and requests that the session has by then. -/
theorem perform_poised (ho : s.transportOpen = true) (hc : s.channel.Orderly) (hd : s.channel.Dated)
    (ha : s.channel.Awake) (hnone : s.channel.commands = [])
    (harmed : ∃ ys, (s.channel.perform x).2.commands = s.channel.commands ++ ys ∧
      (s.channel.perform x).2.Armed (ys.foldl Alarms.after s.alarms))
    (hsend : ∃ ys, (s.channel.perform x).2.commands = s.channel.commands ++ ys ∧
      (ys.foldl Alarms.after s.alarms).send = (s.channel.perform x).2.sendScheduled) (target : τ) :
    (runCommands { s with channel := (s.channel.perform x).2, target }).Poised := by
  obtain ⟨ys, hy, harmed⟩ := harmed
  obtain ⟨ys', hy', hsend⟩ := hsend
  rw [hnone, List.nil_append] at hy hy'
  obtain rfl := hy.symm.trans hy'
  refine runCommands_poised (s := { s with channel := (s.channel.perform x).2, target }) ho
    (Channel.perform_orderly hc x) (Channel.perform_dated hd x) (Channel.perform_awake ha x) ?_ ?_
  · rw [hy]
    exact harmed
  · rw [hy]
    exact hsend

/-- A call lists commands that leave the session poised. -/
theorem call_poised (h : s.Poised) (hx : x ≠ .flush) (target : τ) :
    (runCommands { s with channel := (s.channel.perform x).2, target }).Poised := by
  obtain ⟨ys, hy, harmed⟩ := Channel.perform_rearms h.orderly x
  obtain ⟨ys', hy', hsend⟩ := s.channel.perform_times hx
  exact perform_poised h.transport h.orderly h.dated h.awake h.commands ⟨ys, hy, harmed _ h.armed⟩
    ⟨ys', hy', hsend _ h.send⟩ target

theorem runCommands_of_nil (h : s.channel.commands = []) : s.runCommands = s := by
  unfold runCommands
  rw [h, List.foldl_nil, ← h]

/-! ## Between moves -/

/-- So many operations wait for delivery as the events announce. -/
def Announced (c : Channel) (es : List Event) : Prop :=
  c.queue.serverOps.length = (es.filterMap Event.announces?).length

/-- All commands are carried out while the events are still to be delivered. -/
structure Delivering (es : List Event) (s : Session τ) : Prop extends Poised s where
  events : s.channel.events = []
  announced : Announced s.channel es

/-- All commands are carried out, and all events are delivered. -/
def Idle (s : Session τ) : Prop := s.Delivering []

theorem Idle.delivered (h : s.Idle) : s.channel.queue.serverOps = [] := List.length_eq_zero_iff.1 h.announced

theorem new_idle (document : DocumentId) (user : UserId) (session : SessionId) (config : Config) (target : τ) :
    (new (.new document user session config) target).Idle where
  orderly := Channel.new_orderly document user session config
  dated := Channel.new_dated document user session config
  awake := Channel.new_awake document user session config
  armed := ⟨fun _ => rfl, nofun, nofun, nofun⟩
  send := rfl
  commands := rfl
  transport := rfl
  events := rfl
  announced := rfl

/-- Nothing is left undone, and what the session waits for is under way; `requests` are all that it made. -/
structure Underway (s : Session τ) (requests : List Outbound) : Prop where
  commands : s.channel.commands = []
  events : s.channel.events = []
  delivered : s.channel.queue.serverOps = []
  closed : s.channel.isConnected = false → s.sendDeadline = none ∧ s.resyncDeadline = none
  send : s.sendDeadline.isSome = s.channel.sendScheduled
  /-- What is queued will be sent, unless a compound edit is open. -/
  queued : s.channel.phase = .allAcked → s.channel.queue.queued ≠ [] →
    s.sendDeadline.isSome = true ∨ 0 < s.channel.compoundDepth
  delayed : s.channel.phase = .delayResync → ∃ due, s.resyncDeadline = some (s.channel.retryVersion, due)
  /-- The batch in flight was submitted last, as it was then. -/
  submitted : s.channel.phase = .waitingAck → ∃ request,
    (requests.filterMap Outbound.submitted?).getLast? = some (s.channel.retryVersion, request) ∧
      Rewritten request.deltas s.channel.queue.unacked
  asked : s.channel.phase = .waitingSync → ∃ since,
    (requests.filterMap Outbound.asked?).getLast? = some (s.channel.retryVersion, since)

theorem Idle.underway (h : s.Idle) : s.Underway s.outbound where
  commands := h.commands
  events := h.events
  delivered := h.delivered
  closed hclosed := by
    have hphase : s.channel.phase = .uninitialized := by simpa [Channel.isConnected] using hclosed
    have hsend : s.sendDeadline.isSome = false := h.send.trans (h.awake.closed hphase)
    exact ⟨Option.isNone_iff_eq_none.1 (Option.isSome_eq_false_iff.1 hsend),
      Option.map_eq_none_iff.1 (h.armed.closed hphase)⟩
  send := h.send
  queued hphase hqueued := by
    refine or_iff_not_imp_right.2 fun hdepth => h.send.trans (h.awake.due ?_)
    exact Channel.maySend_iff.2 ⟨hphase, Nat.eq_zero_of_not_pos hdepth, h.awake.idle hphase, hqueued⟩
  delayed hphase := by
    obtain ⟨⟨version, due⟩, hdue, rfl⟩ := Option.map_eq_some_iff.1 (h.armed.delayed hphase)
    exact ⟨due, hdue⟩
  submitted := h.armed.submitted
  asked := h.armed.asked

/-! ## Delivering events -/

theorem delivered?_of_ne (c : Channel) (hx : x ≠ .receive) : (c.perform x).1.delivered?.toList = [] := by
  have refusable (r : Except ChannelFault Channel) : (c.settled r).1.delivered?.toList = [] := by
    cases r <;> rfl
  cases x with
  | connect | submit | endCompound => exact refusable _
  | receive => exact absurd rfl hx
  | _ => rfl

/-- Whatever a call lists, it announces what it puts up for delivery. -/
theorem perform_announced {c : Channel} (hd : c.Dated) (he : c.events = []) (hs : c.queue.serverOps = [])
    (hx : x ≠ .receive) : Announced (c.perform x).2 (c.perform x).2.events := by
  have counted {out : List Composite} {d d' : Channel} (h : Channel.Advances out d d') (hout : out = [])
      (he : d.events = []) (hs : d.queue.serverOps = []) : Announced d' d'.events := by
    obtain ⟨es, hes, -, hannounced⟩ := h.listed
    rw [he, List.nil_append] at hes
    have hlength := congrArg List.length hannounced
    simp only [Queue.undelivered, hs, hout, List.map_nil, List.nil_append, List.length_map] at hlength
    rw [Announced, hes, hlength]
  cases x with
  | connect revision =>
    show Announced (c.settled (c.connect revision)).2 (c.settled (c.connect revision)).2.events
    cases hc : c.connect revision with
    | error e => exact counted (.refl c) rfl he hs
    | ok c' =>
      rw [Channel.connect_eq_ok hc]
      have hentered := Channel.enter_advances (Channel.command
        { c with queue := .new revision, knownHead := revision, retryAttempt := 0 } (.subscribe c.document)) .allAcked
      exact counted hentered rfl he rfl
  | receive => exact absurd rfl hx
  | _ => exact counted (Channel.perform_advances hd nofun) (delivered?_of_ne c hx) he hs

variable [Target τ] {e : Event} {es : List Event}

theorem dispatched_events (s : Session τ) (e : Event) : (s.dispatched e).events = s.channel.events := by
  unfold dispatched
  split
  next =>
    split
    next => exact Channel.disconnect_events _
    next => rfl
  next => rfl

/-- One of the operations that wait is taken out for an event that announces one, whether the target refuses it or
not. -/
theorem dispatched_announced (h : Announced s.channel (e :: es)) : Announced (s.dispatched e) es := by
  cases e with
  | remoteOp revision =>
    have hqueue : (s.dispatched (.remoteOp revision)).queue = s.channel.queue.pop.2 := by
      unfold dispatched
      dsimp only
      split
      next => exact Channel.disconnect_queue _
      next => rfl
    rw [Announced, List.filterMap_cons, Event.announces?, List.length_cons] at h
    rw [Announced, hqueue]
    show s.channel.queue.serverOps.tail.length = _
    rw [List.length_tail, h, Nat.add_sub_cancel]
  | _ => exact h

theorem dispatch_poised (h : s.Poised) (e : Event) : (s.dispatch e).runCommands.Poised := by
  have hreceived (target : τ) : Poised { s with channel := s.channel.receive.2, target } := by
    have hpoised := call_poised h (x := .receive) nofun target
    rwa [runCommands_of_nil (s := { s with channel := (s.channel.perform .receive).2, target }) h.commands] at hpoised
  obtain ⟨target, hdispatch⟩ := s.dispatch_eq e
  rw [hdispatch]
  unfold dispatched
  split
  next =>
    split
    next => exact call_poised (hreceived s.target) (x := .disconnect) nofun target
    next =>
      rw [runCommands_of_nil (s := { s with channel := s.channel.receive.2, target }) h.commands]
      exact hreceived target
  next =>
    rw [runCommands_of_nil (s := { s with target }) h.commands]
    exact { h with }

theorem dispatch_delivering (h : s.Delivering (e :: es)) : (s.dispatch e).runCommands.Delivering es := by
  obtain ⟨hchannel, -, -⟩ := (s.dispatch e).runCommands_keeps
  obtain ⟨target, hdispatch⟩ := s.dispatch_eq e
  refine ⟨dispatch_poised h.toPoised e, ?_, ?_⟩
  · rw [hchannel, hdispatch]
    exact (s.dispatched_events e).trans h.events
  · rw [hchannel, hdispatch]
    exact dispatched_announced h.announced

theorem foldl_dispatch_delivering : ∀ (es : List Event) {s : Session τ}, s.Delivering es →
    (es.foldl (fun s e => (s.dispatch e).runCommands) s).Delivering []
  | [], _, h => h
  | _ :: es, _, h => foldl_dispatch_delivering es (dispatch_delivering h)

/-! ## Moves -/

/-- After a call that left its channel with all operations announced the session is idle, once it is poised. -/
theorem after_idle {c : Channel} (h : (runCommands { s with channel := c }).Poised)
    (hann : Announced c c.events) : (s.after c).Idle := by
  obtain ⟨hchannel, -, -⟩ := runCommands_keeps { s with channel := c }
  have hevents : (runCommands { s with channel := c }).channel.events = c.events := by rw [hchannel]
  unfold after pump
  dsimp only
  rw [hevents]
  refine foldl_dispatch_delivering _ ⟨?_, rfl, ?_⟩
  · exact
      { h with
        orderly := { h.orderly with }
        awake := { h.awake with due := h.awake.due }
        armed := { h.armed with } }
  · show Announced (runCommands { s with channel := c }).channel c.events
    rw [hchannel]
    exact hann

theorem call_idle (h : s.Idle) (hflush : x ≠ .flush) (hreceive : x ≠ .receive) (target : τ) :
    (after { s with target } (s.channel.perform x).2).Idle :=
  after_idle (s := { s with target }) (call_poised h.toPoised hflush target)
    (perform_announced h.dated h.events h.delivered hreceive)

theorem flush_idle (h : s.Idle) : (after { s with sendDeadline := none } (s.channel.perform .flush).2).Idle := by
  have hoff : s.channel.Armed (alarms { s with sendDeadline := none }) := { h.armed with }
  obtain ⟨ys, hy, harmed⟩ := Channel.perform_rearms h.orderly .flush
  obtain ⟨ys', hy', hsend⟩ := s.channel.flush_times
  have hpoised := perform_poised (s := { s with sendDeadline := none }) (x := .flush) h.transport
    h.orderly h.dated h.awake h.commands ⟨ys, hy, harmed _ hoff⟩ ⟨ys', hy', hsend _ rfl⟩ s.target
  exact after_idle (s := { s with sendDeadline := none }) hpoised
    (perform_announced h.dated h.events h.delivered nofun)

theorem resyncTimer_idle {version due : Nat} (h : s.Idle) (hdue : s.resyncDeadline = some (version, due)) :
    (after { s with resyncDeadline := none } (s.channel.perform (.resyncTimer version)).2).Idle := by
  have hversion : s.alarms.resync = some version := by rw [alarms, hdue]; rfl
  obtain ⟨ys, hy, hsend⟩ := s.channel.perform_times (x := .resyncTimer version) nofun
  have hpoised := perform_poised (s := { s with resyncDeadline := none }) (x := .resyncTimer version)
    h.transport h.orderly h.dated h.awake h.commands (Channel.resyncTimer_rearms h.armed hversion)
    ⟨ys, hy, hsend _ h.send⟩ s.target
  exact after_idle (s := { s with resyncDeadline := none }) hpoised
    (perform_announced h.dated h.events h.delivered nofun)

theorem handle_idle (h : s.Idle) (x : Inbound) : (s.handle x).2.Idle := by
  obtain ⟨target, hsame | hcall⟩ := s.handle_cases x
  · rw [hsame]
    exact { h with }
  · rw [hcall]
    exact call_idle h (by cases x <;> nofun) (by cases x <;> nofun) target

/-- Every move but the closing of the transport leaves the session idle. -/
theorem move_idle (h : s.Idle) {x : Move} (hx : x.leavesTransport = true) : (s.move x).Idle := by
  cases x with
  | connect revision =>
    rcases s.connect_cases revision with hsame | ⟨-, hcall⟩
    · rw [move, hsame]
      exact h
    · rw [move, hcall]
      exact call_idle h (x := .connect revision) nofun nofun s.target
  | take x => exact handle_idle h x
  | pass delay => exact { h with }
  | fireSend =>
    rcases s.fireSendIfDue_cases with hsame | hcall
    · rw [move, hsame]
      exact h
    · rw [move, hcall]
      exact flush_idle h
  | fireResync =>
    rcases s.fireResyncIfDue_cases with hsame | ⟨version, due, hdue, hcall⟩
    · rw [move, hsame]
      exact h
    · rw [move, hcall]
      exact resyncTimer_idle h hdue
  | finish => exact call_idle h (x := .disconnect) nofun nofun s.target
  | closeTransport => cases hx

theorem run_idle : ∀ (moves : List Move) {s : Session τ}, s.Idle → (∀ x ∈ moves, x.leavesTransport = true) →
    (s.run moves).Idle
  | [], _, h, _ => h
  | x :: moves, _, h, hx =>
    run_idle moves (move_idle h (hx x (List.mem_cons_self ..))) fun y hy => hx y (List.mem_cons_of_mem _ hy)

/-- The requests are those of the session over a transport that never closed. -/
theorem shadows_underway (document : DocumentId) (user : UserId) (session : SessionId) (config : Config) (target : τ)
    (moves : List Move) :
    let fresh := new (.new document user session config) target
    (fresh.run moves).Underway (fresh.run (moves.filter Move.leavesTransport)).outbound := by
  intro fresh
  have hidle : (fresh.run (moves.filter Move.leavesTransport)).Idle :=
    run_idle _ (new_idle document user session config target) fun _ hx => (List.mem_filter.1 hx).2
  have hshadows : (fresh.run moves).Shadows (fresh.run (moves.filter Move.leavesTransport)) :=
    run_shadows moves (.refl rfl)
  have hunderway := hidle.underway
  generalize fresh.run (moves.filter Move.leavesTransport) = opened at hshadows hunderway ⊢
  obtain ⟨_, _⟩ := hshadows
  exact { hunderway with }

/-- **No session is stranded.** Whatever happens to a session, between two moves nothing is left undone, its timers are
set as its channel relies on, and the request whose answer it waits for is the last that was handed to the transport. If
the transport closed it took no more requests; those that were handed to it are the ones that it would have taken. -/
theorem run_underway (document : DocumentId) (user : UserId) (session : SessionId) (config : Config) (target : τ)
    (moves : List Move) :
    let fresh := new (.new document user session config) target
    let requests := (fresh.run (moves.filter Move.leavesTransport)).outbound
    (fresh.run moves).Underway requests ∧ (fresh.run moves).outbound <+: requests := by
  intro fresh requests
  exact ⟨shadows_underway document user session config target moves, (run_shadows moves (.refl rfl)).kept⟩

/-- A compound edit is made, and the send timer goes off when the delay is over. -/
def sending : List Move :=
  [.connect 0, .take .beginCompound, .take (.edit (Channel.typed 0 0 'a')), .take (.edit (Channel.typed 1 1 'b')),
    .take .endCompound, .pass 500, .fireSend]

/-- The edit is handed to the transport, and the timer no longer runs. -/
theorem run_underway_sent :
    let fresh := new (.new ⟨"doc"⟩ ⟨"me"⟩ ⟨"me"⟩ { sendDelay := 500 }) Document.empty
    let s := fresh.run sending
    (fresh.run sending.dropLast).sendDeadline = some 500 ∧ s.sendDeadline = none ∧ s.channel.phase = .waitingAck ∧
      (s.outbound.filterMap Outbound.submitted?).map (fun x => (x.1, x.2.revision, x.2.deltas.length)) = [(0, 0, 1)] ∧
      s.Underway (fresh.run (sending.filter Move.leavesTransport)).outbound :=
  ⟨by decide +kernel, by decide +kernel, by decide +kernel, by decide +kernel,
    (run_underway ⟨"doc"⟩ ⟨"me"⟩ ⟨"me"⟩ { sendDelay := 500 } Document.empty sending).1⟩

end Session
end Coedit
