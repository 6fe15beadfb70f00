import Coedit.Proofs.Channel.Pieces

/-!
# Timers and requests

A channel has no timers and sends nothing itself.  It lists commands, and relies on what is left of them once they are
carried out: a timer for sending, one for catching up, and the requests made last.

* `Alarms`, `Alarms.after` — what is left of commands;
* `Channel.Armed`, `Channel.perform_rearms` — the timer for catching up and the requests suit the phase;
* `Channel.Times`, `Channel.perform_times` — the send timer runs if the channel has scheduled a send;
* `Channel.Awake`, `Channel.perform_awake` — a send is scheduled if there is something to send.
-/

namespace Coedit

open Composite (Rewritten)

/-- The timers that run, and the requests made last. -/
structure Alarms where
  send : Bool
  /-- The retry version that the timer for catching up was set under. -/
  resync : Option Nat
  /-- What was submitted last, and under which version. -/
  submitted : Option (Nat × DeltaRequest)
  /-- The version under which the head was asked for last, and the revision after which. -/
  asked : Option (Nat × Nat)

/-- One more command is carried out. Unsubscribing stops both timers. -/
def Alarms.after (a : Alarms) : Command → Alarms
  | .subscribe _ => a
  | .unsubscribe _ => { a with send := false, resync := none }
  | .submit version request => { a with submitted := some (version, request) }
  | .requestRevision version since => { a with asked := some (version, since) }
  | .scheduleSend _ => { a with send := true }
  | .scheduleResync version _ => { a with resync := some version }

namespace Queue

variable {q q' : Queue Composite} {revision : Nat}

/-- The last operation in flight was acknowledged. -/
theorem ackFirst_eq_true (h : q.ackFirst revision = (.ok true, q')) : q'.unacked = [] := by
  unfold ackFirst at h
  split at h
  next => cases h
  next =>
    split at h
    next => cases h
    next =>
      split at h
      next => cases h
      next =>
        obtain ⟨hdone, rfl⟩ := Prod.mk.inj h
        exact List.isEmpty_iff.1 (Except.ok.inj hdone)

theorem passQueued_queued (hq : q.queued = []) (revision : Nat) (op : Composite) :
    (q.passQueued revision op).2.queued = [] := by
  rw [passQueued, if_pos (List.isEmpty_iff.2 hq)]
  exact hq

theorem receive_queued (hq : q.queued = []) (revision : Nat) (op : Composite) :
    (q.receive revision op).2.queued = [] := by
  unfold receive
  split
  next => exact hq
  next =>
    split
    next => exact hq
    next =>
      dsimp only
      split
      next => exact hq
      next => exact passQueued_queued (q := { q with unacked := (passClients op q.unacked).1 }) hq revision _

end Queue

namespace Channel

variable {c c' m : Channel} {a : Alarms} {x : Call} {op : Composite} {revision : Nat}

/-! ## Catching up -/

/-- The timer for catching up and the requests suit the phase. -/
structure Armed (c : Channel) (a : Alarms) : Prop where
  closed : c.phase = .uninitialized → a.resync = none
  delayed : c.phase = .delayResync → a.resync = some c.retryVersion
  submitted : c.phase = .waitingAck →
    ∃ request, a.submitted = some (c.retryVersion, request) ∧ Rewritten request.deltas c.queue.unacked
  asked : c.phase = .waitingSync → ∃ since, a.asked = some (c.retryVersion, since)

/-- The channel lists commands that suit the phase afterwards, if those before suited the phase before. -/
def Rearms (c c' : Channel) : Prop :=
  ∃ ys, c'.commands = c.commands ++ ys ∧ ∀ a, c.Armed a → c'.Armed (ys.foldl Alarms.after a)

theorem Rearms.trans (h : c.Rearms m) (h' : m.Rearms c') : c.Rearms c' := by
  obtain ⟨ys, hy, ha⟩ := h
  obtain ⟨ys', hy', ha'⟩ := h'
  refine ⟨ys ++ ys', by rw [hy', hy, List.append_assoc], fun a harmed => ?_⟩
  rw [List.foldl_append]
  exact ha' _ (ha a harmed)

theorem armed_of_allAcked (h : c.phase = .allAcked) (a : Alarms) : c.Armed a where
  closed hp := by simp [h] at hp
  delayed hp := by simp [h] at hp
  submitted hp := by simp [h] at hp
  asked hp := by simp [h] at hp

theorem rearms_of_allAcked {ys : List Command} (h : c'.phase = .allAcked) (hy : c'.commands = c.commands ++ ys) :
    c.Rearms c' :=
  ⟨ys, hy, fun _ _ => armed_of_allAcked h _⟩

/-- The phase and the version stay, and so does a batch that is waited for. -/
theorem rearms_of_eq (hy : c'.commands = c.commands) (hp : c'.phase = c.phase) (hv : c'.retryVersion = c.retryVersion)
    (hu : c.phase = .waitingAck → Rewritten c.queue.unacked c'.queue.unacked) : c.Rearms c' := by
  refine ⟨[], by rw [hy, List.append_nil], fun a ha => ?_⟩
  refine ⟨fun h => ha.closed (hp ▸ h), fun h => ?_, fun h => ?_, fun h => ?_⟩
  · rw [hv]
    exact ha.delayed (hp ▸ h)
  · rw [hp] at h
    obtain ⟨request, hlast, hflight⟩ := ha.submitted h
    exact ⟨request, hv ▸ hlast, hflight.trans (hu h)⟩
  · rw [hv]
    exact ha.asked (hp ▸ h)

theorem Act.rearms (hc : c.Orderly) (h : Act x c c') : c.Rearms c' := by
  cases h with
  | stayed | heard | echoed | delivered => exact rearms_of_eq rfl rfl rfl fun _ => .refl _
  | connected => exact rearms_of_allAcked rfl rfl
  | ended => exact ⟨[_], rfl, fun _ _ => ⟨fun _ => rfl, nofun, nofun, nofun⟩⟩
  | recorded _ _ result =>
    obtain ⟨serverOps, op', _, rfl⟩ := Queue.record_eq_ok result
    exact rearms_of_eq rfl rfl rfl fun _ => .refl _
  | cancelled _ may => exact rearms_of_eq rfl rfl rfl fun h => by simp [(maySend_iff.1 may).1] at h
  | @sent batch => exact ⟨[_], rfl, fun _ _ => ⟨nofun, nofun, fun _ => ⟨_, rfl, .refl batch⟩, nofun⟩⟩
  | @acked u us _ phase _ flight _ waits =>
    -- a single operation is in flight, so nothing is left of a batch that is waited for
    have hsingle := hc.single phase
    rw [flight] at hsingle
    have hnone : us = [] := List.length_eq_zero_iff.1 (Nat.le_zero.1 (Nat.le_of_succ_le_succ hsingle))
    exact rearms_of_eq rfl rfl rfl fun h => absurd (.inl h) (waits.resolve_left (not_not.2 hnone))
  | received _ _ result => exact rearms_of_eq rfl rfl rfl fun _ => (Queue.receive_keeps result).2
  | settled | ackedAll | synced => exact rearms_of_allAcked rfl (List.append_nil _).symm
  | delayed => exact ⟨[_], rfl, fun _ _ => ⟨nofun, fun _ => rfl, nofun, nofun⟩⟩
  | waited => exact ⟨[_], rfl, fun _ _ => ⟨nofun, nofun, nofun, fun _ => ⟨_, rfl⟩⟩⟩
  | resumed => exact ⟨[_], rfl, fun _ _ => ⟨nofun, nofun, fun _ => ⟨_, rfl, .refl c.queue.unacked⟩, nofun⟩⟩

theorem Armed.scheduleSend (ha : c.Armed a) : ∀ ys : List Command, (∀ y ∈ ys, y.isScheduleSend = true) →
    c.Armed (ys.foldl Alarms.after a) := by
  intro ys
  induction ys generalizing a with
  | nil => exact fun _ => ha
  | cons y ys ih =>
    intro hys
    obtain ⟨_, rfl⟩ := Command.eq_scheduleSend (hys y (List.mem_cons_self ..))
    have hset : c.Armed { a with send := true } := { ha with }
    exact ih hset fun y hy => hys y (List.mem_cons_of_mem _ hy)

theorem Quiet.rearms (h : c.Quiet c') : c.Rearms c' := by
  obtain @⟨_, _, _, ys, _, timed, _⟩ := h
  exact ⟨ys, rfl, fun a ha => { ha.scheduleSend ys timed with }⟩

theorem perform_rearms (hc : c.Orderly) (x : Call) : c.Rearms (c.perform x).2 :=
  perform_lift (fun _ => (Quiet.refl _).rearms) Rearms.trans hc fun hc ⟨_, hact, hquiet⟩ =>
    (hact.rearms hc).trans hquiet.rearms

/-- The timer for catching up has gone off before the channel is told. -/
theorem resyncTimer_rearms {version : Nat} (ha : c.Armed a) (hv : a.resync = some version) :
    ∃ ys, (c.resyncTimer version).commands = c.commands ++ ys ∧
      (c.resyncTimer version).Armed (ys.foldl Alarms.after { a with resync := none }) := by
  unfold resyncTimer
  split
  next hdue =>
    rw [enter_command]
    obtain ⟨ys, hy, harmed⟩ := (enter_quiet (c.command (.requestRevision c.retryVersion c.floor)) .waitingSync).rearms
    refine ⟨.requestRevision c.retryVersion c.floor :: ys, hy.trans (List.append_assoc ..), harmed _ ?_⟩
    exact ⟨nofun, nofun, nofun, fun _ => ⟨c.floor, rfl⟩⟩
  next hno =>
    -- a timer that is due while the channel waits for it was set under the present version
    have hphase : c.phase ≠ .delayResync := fun hphase => by
      have hversion : version = c.retryVersion := Option.some.inj (hv.symm.trans (ha.delayed hphase))
      simp [isCurrent, isConnected, hphase, hversion] at hno
    exact ⟨[], (List.append_nil _).symm, { ha with closed := fun _ => rfl, delayed := fun h => absurd h hphase }⟩

/-! ## The send timer -/

/-- The channel lists commands that leave the send timer running just if a send is scheduled afterwards. -/
def Times (c c' : Channel) : Prop :=
  ∃ ys, c'.commands = c.commands ++ ys ∧
    ∀ a : Alarms, a.send = c.sendScheduled → (ys.foldl Alarms.after a).send = c'.sendScheduled

theorem Times.trans (h : c.Times m) (h' : m.Times c') : c.Times c' := by
  obtain ⟨ys, hy, ha⟩ := h
  obtain ⟨ys', hy', ha'⟩ := h'
  refine ⟨ys ++ ys', by rw [hy', hy, List.append_assoc], fun a hsend => ?_⟩
  rw [List.foldl_append]
  exact ha' _ (ha a hsend)

theorem times_of_eq (hy : c'.commands = c.commands) (hs : c'.sendScheduled = c.sendScheduled) : c.Times c' :=
  ⟨[], by rw [hy, List.append_nil], fun _ ha => ha.trans hs.symm⟩

theorem listed_times (c : Channel) {y : Command} (h : y.setsSendTimer = false) : c.Times (c.command y) := by
  refine ⟨[y], rfl, fun a ha => ?_⟩
  cases y with
  | scheduleSend | unsubscribe => cases h
  | _ => exact ha

theorem scheduleSend_times (c : Channel) : c.Times c.scheduleSend := by
  unfold scheduleSend
  split
  next => exact ⟨[_], rfl, fun _ _ => rfl⟩
  next => exact times_of_eq rfl rfl

theorem disconnect_times (c : Channel) : c.Times c.disconnect := by
  unfold disconnect
  split
  next => exact ⟨[_], rfl, fun _ _ => rfl⟩
  next => exact times_of_eq rfl rfl

theorem piecewise_times : Piecewise Times Times where
  trans := Times.trans
  same _ := times_of_eq
  told _ _ _ := times_of_eq rfl rfl
  listed := listed_times
  scheduleSend := scheduleSend_times
  lift := id
  before := Times.trans
  after h _ h' := h.trans h'
  disconnect := disconnect_times
  fail c fault := (times_of_eq rfl rfl).trans (disconnect_times (c.event (.error fault true)))

theorem perform_times (c : Channel) (hx : x ≠ .flush) : c.Times (c.perform x).2 := piecewise_times.perform c hx

/-- The send timer has gone off before a flush. -/
theorem flush_times (c : Channel) : Times { c with sendScheduled := false } c.flush := piecewise_times.flush c

/-! ## Something to send -/

/-- A send is scheduled whenever queued operations may be put in flight. -/
structure Awake (c : Channel) : Prop where
  closed : c.phase = .uninitialized → c.sendScheduled = false
  idle : c.phase = .allAcked → c.queue.unacked = []
  due : c.maySend = true → c.sendScheduled = true

theorem new_awake (document : DocumentId) (user : UserId) (session : SessionId) (config : Config) :
    (new document user session config).Awake := ⟨fun _ => rfl, fun _ => rfl, nofun⟩

/-- Nothing is sent in the other phases. -/
theorem awake_of_phase (hopen : c.phase ≠ .uninitialized) (hbusy : c.phase ≠ .allAcked) : c.Awake :=
  ⟨fun h => absurd h hopen, fun h => absurd h hbusy, fun h => absurd (maySend_iff.1 h).1 hbusy⟩

/-- The same is scheduled, and no more is to be sent. -/
theorem Awake.of_eq (h : c.Awake) (hp : c'.phase = c.phase) (hs : c'.sendScheduled = c.sendScheduled)
    (hd : c'.compoundDepth = c.compoundDepth) (hu : c.queue.unacked = [] → c'.queue.unacked = [])
    (hq : c.queue.queued = [] → c'.queue.queued = []) : c'.Awake where
  closed hphase := hs.trans (h.closed (hp ▸ hphase))
  idle hphase := hu (h.idle (hp ▸ hphase))
  due hmay := by
    obtain ⟨hphase, hdepth, -, hqueued⟩ := maySend_iff.1 hmay
    have hphase : c.phase = .allAcked := hp ▸ hphase
    rw [hs]
    exact h.due (maySend_iff.2 ⟨hphase, hd ▸ hdepth, h.idle hphase, mt hq hqueued⟩)

theorem scheduleSend_awake (hclosed : c.phase = .uninitialized → c.sendScheduled = false)
    (hidle : c.phase = .allAcked → c.queue.unacked = []) : c.scheduleSend.Awake := by
  unfold scheduleSend
  split
  next hdue =>
    have hphase := (maySend_iff.1 (Bool.and_eq_true_iff.1 hdue).1).1
    exact ⟨fun h => absurd (hphase.symm.trans h) nofun, hidle, fun _ => rfl⟩
  next hno => exact ⟨hclosed, hidle, fun hmay => by simpa [hmay] using hno⟩

theorem settle_awake (hu : c.queue.unacked = []) : c.settle.Awake := by
  refine scheduleSend_awake (fun h => ?_) fun _ => by rw [enter_queue, hu]
  rw [enter_phase] at h
  cases h

theorem disconnect_awake (hclosed : c.phase = .uninitialized → c.sendScheduled = false) : c.disconnect.Awake := by
  unfold disconnect
  split
  next => exact ⟨fun _ => rfl, nofun, nofun⟩
  next hno =>
    have hphase : c.phase = .uninitialized := by simpa [isConnected] using hno
    have hbusy : c.phase ≠ .allAcked := by simp [hphase]
    exact ⟨hclosed, fun h => absurd h hbusy, fun h => absurd (maySend_iff.1 h).1 hbusy⟩

theorem fail_awake (hclosed : c.phase = .uninitialized → c.sendScheduled = false) (fault : Fault) :
    (c.fail fault).Awake :=
  disconnect_awake hclosed

theorem handleFailure_awake (h : c.Awake) (fault : Fault) : (c.handleFailure fault).Awake := by
  unfold handleFailure
  split
  next => exact fail_awake h.closed fault
  next =>
    dsimp only
    rw [enter_command]
    exact awake_of_phase (by simp) (by simp)

theorem Taken.awake (h : c.Awake) (ht : c.Taken revision op c') : c'.Awake := by
  cases ht with
  | refused fault => exact fail_awake h.closed fault
  | @conflict _ q => exact fail_awake (c := { c with queue := q }) h.closed _
  | echo result =>
    obtain ⟨-, rfl⟩ := Queue.takeEcho_eq_true result
    exact h.of_eq rfl rfl rfl id id
  | acked _ first =>
    -- with an operation in flight nothing is sent
    have hbusy : c.phase ≠ .allAcked := fun hphase => by simp [h.idle hphase] at first
    exact ⟨h.closed, fun hphase => absurd hphase hbusy, fun hmay => absurd (maySend_iff.1 hmay).1 hbusy⟩
  | settled _ _ result => exact settle_awake (Queue.ackFirst_eq_true result)
  | received _ result =>
    refine h.of_eq rfl rfl rfl (fun hu => ?_) fun hq => ?_
    · exact (Queue.receive_keeps result).2.eq_nil_iff.1 hu
    · have hnone := Queue.receive_queued hq revision op
      rwa [result] at hnone

theorem drain_awake (h : c.Awake) : c.drain.Awake :=
  drain_lift (R := fun c c' => c.Awake → c'.Awake) (fun _ => id) (fun h h' ha => h' (h ha))
    (fun _ _ ha => { ha with due := ha.due }) (fun _ _ _ _ ht ha => ht.awake ha) h

theorem buffer_awake (h : c.Awake) (m : DeltaMessage) : (c.buffer m).Awake :=
  buffer_lift (R := fun c c' => c.Awake → c'.Awake) (fun _ => id) (fun h h' ha => h' (h ha)) c m
    (fun _ _ _ ha => { ha with due := ha.due }) h

theorem checkSynced_awake (h : c.Awake) : c.checkSynced.Awake := by
  unfold checkSynced
  split
  next => exact h
  next =>
    split
    next hnone => exact settle_awake (List.isEmpty_iff.1 hnone)
    next => exact awake_of_phase (by simp) (by simp)

theorem flush_awake (h : c.Awake) : c.flush.Awake := by
  unfold flush
  dsimp only
  split
  next may =>
    have may : c.maySend = true := may
    split
    next => exact fail_awake (fun _ => rfl) _
    next result =>
      obtain ⟨-, rfl⟩ := Queue.send_eq_ok result
      split
      next hempty =>
        refine ⟨fun _ => rfl, fun _ => List.isEmpty_iff.1 hempty, fun hmay => ?_⟩
        exact absurd rfl (maySend_iff.1 hmay).2.2.2
      next => exact awake_of_phase (by simp) (by simp)
  next hno => exact ⟨fun _ => rfl, h.idle, fun hmay => absurd hmay hno⟩

theorem connect_awake (hc : c.connect revision = .ok c') : c'.Awake := by
  rw [connect_eq_ok hc]
  refine ⟨fun hp => ?_, fun _ => by rw [enter_queue]; rfl, fun hmay => ?_⟩
  · rw [enter_phase] at hp
    cases hp
  · have hqueued := (maySend_iff.1 hmay).2.2.2
    rw [enter_queue] at hqueued
    exact absurd rfl hqueued

theorem submit_awake (h : c.Awake) (hc : c.submit op = .ok c') : c'.Awake := by
  obtain ⟨result, q, hq, rfl | ⟨fault, rfl⟩⟩ := submit_eq_ok hc
  · refine scheduleSend_awake h.closed fun hp => ?_
    have hu := Queue.record_unacked c.queue (op.withOrigin c.user c.session)
    rw [hq] at hu
    exact hu.trans (h.idle hp)
  · exact fail_awake (c := { c with queue := q }) h.closed fault

theorem endCompound_awake (h : c.Awake) (hc : c.endCompound = .ok c') : c'.Awake := by
  unfold endCompound at hc
  split at hc
  next => cases hc
  next =>
    obtain rfl := Except.ok.inj hc
    split
    next => exact scheduleSend_awake h.closed h.idle
    next hdepth => exact ⟨h.closed, h.idle, fun hmay => absurd (maySend_iff.1 hmay).2.1 hdepth⟩

theorem Opens.awake (h : c.Awake) (ho : Opens c x m) : m.Awake := by
  cases ho with
  | delta => exact buffer_awake h _
  | @replied _ message =>
    have hknown : Awake { c with knownHead := max c.knownHead message.revision } := { h with due := h.due }
    exact buffer_awake hknown message
  | acked => exact settle_awake rfl

theorem Direct.awake (h : c.Awake) (hd : Direct c x c') : c'.Awake := by
  cases hd with
  | ignored => exact h
  | connected result => exact connect_awake result
  | disconnected => exact disconnect_awake h.closed
  | submitted result => exact submit_awake h result
  | began => exact ⟨h.closed, h.idle, fun hmay => absurd (maySend_iff.1 hmay).2.1 (Nat.succ_ne_zero _)⟩
  | ended result => exact endCompound_awake h result
  | flushed => exact flush_awake h
  | heard => exact { h with due := h.due }
  | failed => exact handleFailure_awake h _
  | waited =>
    rw [enter_command]
    exact awake_of_phase (by simp) (by simp)
  | received => exact h.of_eq rfl rfl rfl id id

theorem perform_awake (h : c.Awake) (x : Call) : (c.perform x).2.Awake := by
  cases hd : c.drains? x with
  | none => exact (perform_direct hd).awake h
  | some m =>
    obtain ⟨hopens, hresult⟩ := drains?_opens hd
    have hdrained : m.drain.Awake := drain_awake (hopens.awake h)
    rcases hresult with hsame | hsynced
    · rwa [hsame]
    · rw [hsynced]
      exact checkSynced_awake hdrained

end Channel
end Coedit
