import Coedit.Proofs.Channel.Backoff
import Coedit.Proofs.Session.Fatal

/-!
# Two timers that are due at once

A session that waits may find both of its timers due, and nothing says which of them goes off first.  It does not
matter: one of the two calls always finds the channel in a phase in which it has nothing to do, and what the other does
leaves the first as idle as it was.

* `Channel.flush_of_phase`, `Channel.resyncTimer_of_phase` — when a timer has nothing to do;
* `Session.after_of_unannounced` — a call after which nothing waits for delivery;
* `Session.fireSend_disarm`, `Session.fireResync_unscheduled` — what each timer leaves alone;
* `Session.run_fire_comm` — two timers that are due at once go off in either order.
-/

namespace Coedit

namespace Channel

variable {c c' : Channel} {x : Call}

theorem flush_of_phase (h : c.phase ≠ .allAcked) : c.flush = { c with sendScheduled := false } := by
  simp [flush, maySend, h]

theorem resyncTimer_of_phase (h : c.phase ≠ .delayResync) (version : Nat) : c.resyncTimer version = c :=
  if_neg (by simp [h])

/-- When its backoff ran out the channel asks for the head. -/
theorem resyncTimer_of_delayResync (h : c.phase = .delayResync) : c.resyncTimer c.retryVersion =
    { c with phase := .waitingSync, commands := c.commands ++ [.requestRevision c.retryVersion c.floor] } := by
  simp [resyncTimer, isCurrent, isConnected, enter, command, h]

/-- Nothing but a failure makes a channel wait before it catches up. -/
theorem Act.phase_ne_delayResync (h : Act x c c') (hx : x.reported? = none) (hc : c.phase ≠ .delayResync) :
    c'.phase ≠ .delayResync := by
  cases h with
  | delayed call => cases hx.symm.trans call
  | connected | ended | sent | settled | ackedAll | waited | synced | resumed => exact nofun
  | _ => exact hc

theorem flush_phase_ne_delayResync (hc : c.phase ≠ .delayResync) : c.flush.phase ≠ .delayResync := by
  obtain ⟨m, hact, hquiet⟩ := flush_step c
  rw [hquiet.phase_eq]
  exact hact.phase_ne_delayResync rfl hc

/-- A flush sets no timer for catching up. -/
theorem flush_backoff? (h : c.commands = []) : ∀ y ∈ c.flush.commands, y.backoff? = none := by
  have hbackoffs : c.flush.backoffs = c.backoffs := ((flush_step c).unfailing rfl).backoffs
  rw [backoffs, backoffs, h] at hbackoffs
  exact List.filterMap_eq_nil_iff.1 hbackoffs

end Channel

namespace Session

variable {τ : Type} {s : Session τ} {c : Channel} {e : Event}

def disarm (s : Session τ) : Session τ := { s with resyncDeadline := none }

/-- The session with no send scheduled. -/
def unscheduled (s : Session τ) : Session τ :=
  { s with channel := { s.channel with sendScheduled := false }, sendDeadline := none }

/-! ## Carrying out commands -/

theorem request_disarm (s : Session τ) (x : Outbound) : s.disarm.request x = (s.request x).disarm := by
  unfold request
  rw [show s.disarm.transportOpen = s.transportOpen from rfl]
  split <;> rfl

theorem request_unscheduled (s : Session τ) (x : Outbound) : s.unscheduled.request x = (s.request x).unscheduled := by
  unfold request
  rw [show s.unscheduled.transportOpen = s.transportOpen from rfl]
  split <;> rfl

theorem execute_disarm {x : Command} (hx : x.backoff? = none) : s.disarm.execute x = (s.execute x).disarm := by
  cases x with
  | scheduleResync => cases hx
  | scheduleSend => rfl
  | unsubscribe => exact request_disarm { s with sendDeadline := none, resyncDeadline := none } _
  | _ => exact s.request_disarm _

theorem foldl_execute_disarm : ∀ (xs : List Command) {s : Session τ}, (∀ x ∈ xs, x.backoff? = none) →
    xs.foldl execute s.disarm = (xs.foldl execute s).disarm
  | [], _, _ => rfl
  | x :: xs, s, h => by
    rw [List.foldl_cons, List.foldl_cons, execute_disarm (h x (List.mem_cons_self ..))]
    exact foldl_execute_disarm xs fun y hy => h y (List.mem_cons_of_mem _ hy)

/-- The timer for catching up stays as it is, or is switched off. -/
structure KeepsAlarm (s t : Session τ) : Prop where
  now : t.now = s.now
  alarm : t.resyncDeadline = s.resyncDeadline ∨ t.resyncDeadline = none

theorem request_keepsAlarm (s : Session τ) (x : Outbound) : s.KeepsAlarm (s.request x) := by
  unfold request
  split <;> exact ⟨rfl, .inl rfl⟩

theorem execute_keepsAlarm {x : Command} (hx : x.backoff? = none) : s.KeepsAlarm (s.execute x) := by
  cases x with
  | scheduleResync => cases hx
  | scheduleSend => exact ⟨rfl, .inl rfl⟩
  | unsubscribe =>
    have h := request_keepsAlarm { s with sendDeadline := none, resyncDeadline := none } (.unsubscribe ‹_›)
    exact ⟨h.now, .inr (h.alarm.elim id id)⟩
  | _ => exact s.request_keepsAlarm _

theorem foldl_execute_keepsAlarm : ∀ (xs : List Command) {s : Session τ}, (∀ x ∈ xs, x.backoff? = none) →
    s.KeepsAlarm (xs.foldl execute s)
  | [], _, _ => ⟨rfl, .inl rfl⟩
  | x :: xs, s, h => by
    have hfirst := execute_keepsAlarm (s := s) (h x (List.mem_cons_self ..))
    have hrest := foldl_execute_keepsAlarm xs (s := s.execute x) fun y hy => h y (List.mem_cons_of_mem _ hy)
    refine ⟨hrest.now.trans hfirst.now, ?_⟩
    rcases hrest.alarm with hsame | hoff
    · rw [List.foldl_cons, hsame]
      exact hfirst.alarm
    · exact .inr hoff

variable [Target τ]

/-! ## A call after which nothing waits for delivery -/

/-- What the target learns from an event that puts up nothing for delivery. -/
def informed (t : τ) : Event → τ
  | .saveState saving pending => Target.saveStateChanged t saving pending
  | .error fault fatal => Target.faultRaised t fault fatal
  | _ => t

theorem dispatch_of_unannounced (h : e.announces? = none) :
    s.dispatch e = { s with target := informed s.target e } := by
  cases e with
  | remoteOp => cases h
  | _ => rfl

theorem foldl_dispatch_of_unannounced : ∀ (es : List Event) {s : Session τ}, s.channel.commands = [] →
    (∀ e ∈ es, e.announces? = none) →
    es.foldl (fun s e => (s.dispatch e).runCommands) s = { s with target := es.foldl informed s.target }
  | [], _, _, _ => rfl
  | e :: es, s, hs, h => by
    rw [List.foldl_cons, dispatch_of_unannounced (h e (List.mem_cons_self ..)),
      runCommands_of_nil (s := { s with target := informed s.target e }) hs,
      foldl_dispatch_of_unannounced es (s := { s with target := informed s.target e }) hs
        fun e' he' => h e' (List.mem_cons_of_mem _ he')]
    rfl

/-- The session over `c` once its commands are carried out and its target has learned of its events. -/
def conclude (s : Session τ) (c : Channel) : Session τ :=
  { s with channel := c.drained, target := c.events.foldl informed s.target }

theorem conclude_request (s : Session τ) (x : Outbound) (c : Channel) :
    (s.request x).conclude c = (s.conclude c).request x := by
  unfold request
  rw [show (s.conclude c).transportOpen = s.transportOpen from rfl]
  split <;> rfl

theorem after_of_unannounced (h : ∀ e ∈ c.events, e.announces? = none) :
    s.after c = (c.commands.foldl execute { s with channel := { c with commands := [] } }).conclude c := by
  obtain ⟨hchannel, -, -⟩ := runCommands_keeps { s with channel := c }
  have hevents : (runCommands { s with channel := c }).channel.events = c.events := by rw [hchannel]
  unfold after pump
  dsimp only
  rw [hevents, foldl_dispatch_of_unannounced _ (by rw [hchannel]) h, hchannel]
  rfl

theorem after_of_nothing (hcommands : c.commands = []) (hevents : c.events = []) :
    s.after c = { s with channel := c } := by
  have hnone : ∀ e ∈ c.events, e.announces? = none := by
    rw [hevents]
    exact fun _ he => absurd he List.not_mem_nil
  rw [after_of_unannounced hnone, conclude, hcommands, hevents]
  show ({ s with channel := c.drained } : Session τ) = _
  rw [Channel.drained, ← hcommands, ← hevents]

/-! ## What the timers leave alone -/

/-- Nothing is left undone. -/
structure Bare (c : Channel) : Prop extends Delivered c where
  commands : c.commands = []

omit [Target τ] in
theorem flush_unannounced (h : Bare c) : ∀ e ∈ c.flush.events, e.announces? = none := by
  have hannounced : Announced c.flush c.flush.events :=
    perform_announced (x := .flush) h.dated h.events h.serverOps nofun
  rw [Announced, c.flush_serverOps, h.serverOps] at hannounced
  exact List.filterMap_eq_nil_iff.1 (List.length_eq_zero_iff.1 hannounced.symm)

/-- Sending is the same whether the timer for catching up is set or not. -/
theorem fireSend_disarm (h : Bare s.channel) : s.disarm.fireSend = s.fireSend.disarm := by
  have hfold := foldl_execute_disarm s.channel.flush.commands
    (s := { s with channel := { s.channel.flush with commands := [] }, sendDeadline := none })
    (Channel.flush_backoff? h.commands)
  unfold fireSend
  rw [show s.disarm.channel = s.channel from rfl, after_of_unannounced (flush_unannounced h),
    after_of_unannounced (flush_unannounced h)]
  exact congrArg (conclude · s.channel.flush) hfold

theorem fireSend_keepsAlarm (h : Bare s.channel) : s.KeepsAlarm s.fireSend := by
  have hfold := foldl_execute_keepsAlarm s.channel.flush.commands
    (s := { s with channel := { s.channel.flush with commands := [] }, sendDeadline := none })
    (Channel.flush_backoff? h.commands)
  unfold fireSend
  rw [after_of_unannounced (flush_unannounced h)]
  exact ⟨hfold.now, hfold.alarm⟩

theorem fireSend_channel (h : Bare s.channel) : s.fireSend.channel = s.channel.flush.drained := by
  unfold fireSend
  rw [after_of_unannounced (flush_unannounced h)]
  rfl

/-- While the channel does not send, the send timer does no more than go off. -/
theorem fireSend_of_phase (h : Bare s.channel) (hphase : s.channel.phase ≠ .allAcked) : s.fireSend = s.unscheduled := by
  unfold fireSend
  rw [Channel.flush_of_phase hphase]
  exact after_of_nothing h.commands h.events

/-- While the channel does not wait to catch up, the timer for it does no more than go off. -/
theorem fireResync_of_phase (h : Bare s.channel) (hphase : s.channel.phase ≠ .delayResync) :
    s.fireResync = s.disarm := by
  unfold fireResync
  split
  next hnone =>
    unfold disarm
    rw [← hnone]
  next version due hdue =>
    rw [Channel.resyncTimer_of_phase hphase, after_of_nothing h.commands h.events]
    rfl

/-- When its backoff ran out the session asks for the head. -/
theorem fireResync_of_delayResync {due : Nat} (h : Bare s.channel) (hphase : s.channel.phase = .delayResync)
    (hdue : s.resyncDeadline = some (s.channel.retryVersion, due)) :
    s.fireResync = request { s.disarm with channel := { s.channel with phase := .waitingSync } }
      (.requestRevision s.channel.retryVersion s.channel.document s.channel.floor) := by
  have hevents : ∀ e ∈ (s.channel.resyncTimer s.channel.retryVersion).events, e.announces? = none := by
    rw [Channel.resyncTimer_of_delayResync hphase, h.events]
    exact fun _ he => absurd he List.not_mem_nil
  unfold fireResync
  rw [hdue]
  dsimp only
  rw [after_of_unannounced hevents, Channel.resyncTimer_of_delayResync hphase]
  simp only [h.commands, List.nil_append, List.foldl_cons, List.foldl_nil, execute, conclude_request]
  simp only [conclude, Channel.drained, h.events, List.foldl_nil, disarm]

/-! ## Two timers that are due at once -/

inductive Timer where
  | send
  | resync

/-- A timer goes off, if the session still runs and the timer is due. -/
def fire (s : Session τ) (t : Timer) : Session τ :=
  if s.hasEnded then s
  else
    match t with
    | .send => s.fireSendIfDue
    | .resync => s.fireResyncIfDue

theorem fire_send (hrun : s.hasEnded = false) (hdue : s.isDue s.sendDeadline = true) : s.fire .send = s.fireSend := by
  rw [fire, hrun, if_neg Bool.false_ne_true]
  exact if_pos hdue

theorem fire_resync (hrun : s.hasEnded = false) (hdue : s.isDue s.resyncAt = true) :
    s.fire .resync = s.fireResync := by
  rw [fire, hrun, if_neg Bool.false_ne_true]
  exact if_pos hdue

theorem fire_resync_of_alarm (hphase : s.channel.phase ≠ .delayResync) (hb : Bare s.channel)
    (halarm : s.resyncDeadline = none ∨ s.isDue s.resyncAt = true)
    (hended : s.hasEnded = true → s.resyncDeadline = none) : s.fire .resync = s.disarm := by
  have hoff (h : s.resyncDeadline = none) : s.disarm = s := by
    unfold disarm
    rw [← h]
  unfold fire
  split
  next hend => exact (hoff (hended hend)).symm
  next =>
    show s.fireResyncIfDue = s.disarm
    unfold fireResyncIfDue
    split
    next => exact fireResync_of_phase hb hphase
    next hdue => exact (hoff (halarm.resolve_right hdue)).symm

theorem Bare.flush (h : Bare c) : Bare c.flush.drained where
  dated := Channel.perform_dated h.dated .flush
  events := rfl
  serverOps := c.flush_serverOps.trans h.serverOps
  commands := rfl

theorem fire_comm_of_phase (hb : Bare s.channel) (hphase : s.channel.phase ≠ .delayResync)
    (hend : s.fireSend.hasEnded = true → s.fireSend.resyncDeadline = none) (hrun : s.hasEnded = false)
    (hsend : s.isDue s.sendDeadline = true) (hresync : s.isDue s.resyncAt = true) :
    (s.fire .send).fire .resync = (s.fire .resync).fire .send := by
  rw [fire_send hrun hsend, fire_resync hrun hresync, fireResync_of_phase hb hphase,
    fire_send (s := s.disarm) hrun hsend, fireSend_disarm hb]
  have hchannel := fireSend_channel hb
  obtain ⟨hnow, halarm⟩ := fireSend_keepsAlarm hb
  refine fire_resync_of_alarm ?_ ?_ ?_ hend
  · rw [hchannel]
    exact Channel.flush_phase_ne_delayResync hphase
  · rw [hchannel]
    exact hb.flush
  · rcases halarm with hsame | hoff
    · refine .inr ?_
      rw [resyncAt, isDue, hsame, hnow]
      exact hresync
    · exact .inl hoff

/-- A channel that does not send goes on asking for the head when its send timer goes off. -/
theorem fire_send_request (x : Outbound) (hb : Bare s.channel) (hphase : s.channel.phase = .waitingSync)
    (hsend : s.isDue s.sendDeadline = true) : (s.request x).fire .send = s.unscheduled.request x := by
  have hrun : s.hasEnded = false := by simp [hasEnded, Channel.isConnected, hphase]
  have hsame (outbound : List Outbound) :
      fire { s with outbound } .send = unscheduled { s with outbound } := by
    rw [fire_send (s := { s with outbound }) hrun hsend]
    exact fireSend_of_phase (s := { s with outbound }) hb (by simp [hphase])
  rw [request_unscheduled]
  unfold request
  split
  next => exact hsame _
  next => exact hsame s.outbound

theorem fire_comm_of_delayResync {due : Nat} (hb : Bare s.channel) (hphase : s.channel.phase = .delayResync)
    (hdue : s.resyncDeadline = some (s.channel.retryVersion, due)) (hrun : s.hasEnded = false)
    (hsend : s.isDue s.sendDeadline = true) (hresync : s.isDue s.resyncAt = true) :
    (s.fire .send).fire .resync = (s.fire .resync).fire .send := by
  have hsync : Bare { s.channel with phase := .waitingSync } := { hb with dated := hb.dated }
  have hoff : Bare s.unscheduled.channel := { hb with dated := hb.dated }
  rw [fire_send hrun hsend, fire_resync hrun hresync, fireSend_of_phase hb (by simp [hphase]),
    fire_resync (s := s.unscheduled) hrun hresync, fireResync_of_delayResync hb hphase hdue,
    fireResync_of_delayResync hoff hphase hdue,
    fire_send_request (s := { s.disarm with channel := { s.channel with phase := .waitingSync } }) _ hsync rfl hsend]
  rfl

/-- **Two timers that are due at once go off in either order.** Whatever happened to a session, once both of its timers
are due it does not matter which goes off first: the channel, the requests made, the deadlines and what became of the
target, whatever it makes of what it is told, are the same, also if the first ends the session. -/
theorem run_fire_comm (document : DocumentId) (user : UserId) (session : SessionId) (config : Config) (target : τ)
    (moves : List Move) :
    let s := (new (.new document user session config) target).run moves
    s.hasEnded = false → s.isDue s.sendDeadline = true → s.isDue s.resyncAt = true →
      (s.fire .send).fire .resync = (s.fire .resync).fire .send := by
  intro s hrun hsend hresync
  have hreached := shadows_underway document user session config target
  have hb : Bare s.channel := ⟨run_delivered document user session config target moves, (hreached moves).commands⟩
  by_cases hphase : s.channel.phase = .delayResync
  · obtain ⟨due, hdue⟩ := (hreached moves).delayed hphase
    exact fire_comm_of_delayResync hb hphase hdue hrun hsend hresync
  · refine fire_comm_of_phase hb hphase (fun hend => ?_) hrun hsend hresync
    have hsent : (new (.new document user session config) target).run (moves ++ [.fireSend]) = s.fireSend := by
      rw [run_concat]
      exact if_pos hsend
    have hclosed := (hreached (moves ++ [.fireSend])).closed
    rw [hsent] at hclosed
    exact (hclosed (by simpa [hasEnded] using hend)).2

/-- Sending an edit fails, its echo arrives before the backoff ran out, and by then another edit is to be sent. -/
def overtaken : List Move :=
  [.connect 0, .take (.edit (Channel.typed 0 0 'a')), .pass 500, .fireSend,
    .take (.submitFailed 0 (.transport "timeout" false)),
    .take (.delta (Channel.told "me" 1 ((Channel.typed 0 0 'a').withOrigin ⟨"me"⟩ ⟨"me"⟩))),
    .take (.edit (Channel.typed 1 1 'b')), .pass 500]

/-- Both timers are due, and the edit is sent. -/
theorem overtaken_fire_comm :
    let fresh := new (.new ⟨"doc"⟩ ⟨"me"⟩ ⟨"me"⟩ { sendDelay := 500 }) Document.empty
    let s := fresh.run overtaken
    s.sendDeadline = some s.now ∧ s.resyncAt = some s.now ∧ (s.fire .send).channel.phase = .waitingAck ∧
      (s.fire .send).fire .resync = (s.fire .resync).fire .send :=
  ⟨by decide +kernel, by decide +kernel, by decide +kernel,
    run_fire_comm ⟨"doc"⟩ ⟨"me"⟩ ⟨"me"⟩ { sendDelay := 500 } Document.empty overtaken (by decide +kernel)
      (by decide +kernel) (by decide +kernel)⟩

end Session
end Coedit
