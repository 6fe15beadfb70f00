import Coedit.Proofs.Channel.Closing
import Coedit.Proofs.Session.Underway
import Coedit.Session.Journal

/-!
# After a fatal fault

A session ends with a fatal fault, and tells its target nothing more until it is connected again.  There is one
exception.  A call may put several operations up for delivery, and when the target refuses one of them, the session ends
there but goes on to deliver what the call has listed behind it.

* `Witnessed` — a target and what its session told it;
* `Session.endsAtRefusal` — nothing but acknowledgements is listed behind an operation that the target refuses;
* `Session.run_hushed_iff` — the runs in which nothing follows a fatal fault;
* `Session.not_hushed_refused` — a run in which something does.
-/

namespace Coedit

/-- A target and what its session told it, the oldest first. -/
structure Witnessed (τ : Type) where
  target : τ
  notices : List Notice

instance {τ : Type} [Target τ] : Target (Witnessed τ) where
  consume w op :=
    let (result, target) := Target.consume w.target op
    (result, ⟨target, w.notices ++ [.consumed op result.isOk]⟩)
  initialization w := Target.initialization w.target
  saveStateChanged w saving pending :=
    ⟨Target.saveStateChanged w.target saving pending, w.notices ++ [.saveState saving pending]⟩
  faultRaised w fault fatal := ⟨Target.faultRaised w.target fault fatal, w.notices ++ [.fault fault fatal]⟩

def Notice.isFatal : Notice → Bool
  | .fault _ fatal => fatal
  | _ => false

def Event.isAck : Event → Bool
  | .ack .. => true
  | _ => false

/-- Nothing follows a fatal fault. -/
def Hushed (ns : List Notice) : Prop := ns.Pairwise fun n _ => n.isFatal = false

instance (ns : List Notice) : Decidable (Hushed ns) :=
  inferInstanceAs (Decidable (ns.Pairwise fun n _ => n.isFatal = false))

section Hushed

variable {ns ns' : List Notice}

theorem hushed_of_mild (h : ∀ n ∈ ns, n.isFatal = false) : Hushed ns :=
  List.pairwise_of_forall_mem_list fun n hn _ _ => h n hn

/-- Before a fatal fault anything may be told. -/
theorem hushed_append_iff (h : ∀ n ∈ ns, n.isFatal = false) : Hushed (ns ++ ns') ↔ Hushed ns' := by
  refine List.pairwise_append.trans ⟨fun hall => hall.2.1, fun hlast => ⟨hushed_of_mild h, hlast, ?_⟩⟩
  exact fun n hn _ _ => h n hn

/-- After a fatal fault nothing may be told. -/
theorem hushed_fatal_iff {n : Notice} (hn : n.isFatal = true) : Hushed (n :: ns) ↔ ns = [] := by
  refine ⟨fun h => List.eq_nil_iff_forall_not_mem.2 fun m hm => ?_, ?_⟩
  · exact absurd (hn.symm.trans ((List.pairwise_cons.1 h).1 m hm)) nofun
  · rintro rfl
    exact List.pairwise_singleton _ _

end Hushed

/-! ## Calls that take in no deltas -/

namespace Queue

theorem send_serverOps (q : Queue Composite) : q.send.2.serverOps = q.serverOps := by
  unfold send
  split
  next => rfl
  next => split <;> rfl

theorem record_serverOps {q : Queue Composite} (h : q.serverOps = []) (op : Composite) :
    (q.record op).2.serverOps = [] := by
  unfold record
  rw [h]
  rfl

end Queue

namespace Channel

variable {c : Channel}

theorem flush_serverOps (c : Channel) : c.flush.queue.serverOps = c.queue.serverOps := by
  have hsend := c.queue.send_serverOps
  unfold flush
  dsimp only
  split
  next =>
    split
    next q hq =>
      rw [hq] at hsend
      rw [fail_queue]
      exact hsend
    next q hq =>
      rw [hq] at hsend
      split
      next => exact hsend
      next =>
        rw [enter_queue]
        exact hsend
  next => rfl

theorem submit_serverOps (h : c.queue.serverOps = []) (op : Composite) :
    (c.perform (.submit op)).2.queue.serverOps = [] := by
  refine settled_lift (p := fun d => d.queue.serverOps = []) h fun c' hc => ?_
  obtain ⟨result, q, hq, hc'⟩ := submit_eq_ok hc
  have hrecord := Queue.record_serverOps h (op.withOrigin c.user c.session)
  rw [hq] at hrecord
  rcases hc' with rfl | ⟨fault, rfl⟩
  · rw [scheduleSend_queue]
    exact hrecord
  · rw [fail_queue]
    exact hrecord

theorem connect_serverOps (h : c.queue.serverOps = []) (revision : Nat) :
    (c.perform (.connect revision)).2.queue.serverOps = [] := by
  refine settled_lift (p := fun d => d.queue.serverOps = []) h fun c' hc => ?_
  rw [connect_queue hc]
  rfl

theorem resyncTimer_serverOps (c : Channel) (version : Nat) :
    (c.resyncTimer version).queue.serverOps = c.queue.serverOps := by
  unfold resyncTimer
  split
  next => exact congrArg Queue.serverOps (enter_queue c .waitingSync)
  next => rfl

end Channel

namespace Session

/-! ## One event -/

variable {τ : Type} [Target τ]

/-- What the target is told of an event. -/
def noticesOf (s : Session τ) : Event → List Notice
  | .remoteOp _ =>
    match s.channel.receive.1 with
    | none => []
    | some op =>
      match (Target.consume s.target op).1 with
      | .ok () => [.consumed op true]
      | .error e => [.consumed op false, .fault e true]
  | .ack _ _ => []
  | .saveState saving pending => [.saveState saving pending]
  | .error e fatal => [.fault e fatal]

/-- Delivers one event, and carries out what the channel asks for. -/
def deliverEvent (s : Session τ) (e : Event) : Session τ := (s.dispatch e).runCommands

variable {s t : Session (Witnessed τ)} {x : Move} {e : Event} {es : List Event}

theorem deliverEvent_notices (s : Session (Witnessed τ)) (e : Event) :
    (s.deliverEvent e).target.notices = s.target.notices ++ s.noticesOf e := by
  obtain ⟨-, htarget, -⟩ := (s.dispatch e).runCommands_keeps
  rw [deliverEvent, htarget]
  cases e with
  | remoteOp revision =>
    unfold dispatch noticesOf
    rcases s.channel.receive with ⟨_ | op, channel⟩
    · exact (List.append_nil _).symm
    · simp only [Target.consume]
      rcases Target.consume s.target.target op with ⟨_ | _, target⟩
      · simp [Target.faultRaised, Except.isOk, Except.toBool]
      · rfl
  | ack => exact (List.append_nil _).symm
  | saveState | error => rfl

/-- Something is told of every event but an acknowledgement, if operations wait for those that announce one. -/
theorem noticesOf_eq_nil_iff (h : Announced s.channel (e :: es)) : s.noticesOf e = [] ↔ e.isAck = true := by
  cases e with
  | remoteOp revision =>
    refine iff_of_false ?_ Bool.false_ne_true
    rw [Announced, List.filterMap_cons] at h
    obtain ⟨op, ops, hs⟩ := List.exists_cons_of_length_pos (l := s.channel.queue.serverOps)
      (h ▸ Nat.succ_pos _)
    have hr : s.channel.receive.1 = some op := by rw [Channel.receive, Queue.pop, hs]; rfl
    simp only [noticesOf, hr]
    split <;> exact List.cons_ne_nil _ _
  | ack => exact iff_of_true rfl rfl
  | saveState | error => exact iff_of_false (List.cons_ne_nil _ _) Bool.false_ne_true

theorem noticesOf_refused (h : s.refuses e = true) :
    ∃ op fault, s.noticesOf e = [.consumed op false, .fault fault true] := by
  cases e with
  | remoteOp revision =>
    unfold refuses at h
    unfold noticesOf
    cases hr : s.channel.receive.1 with
    | none => simp [hr] at h
    | some op =>
      cases hc : (Target.consume s.target op).1 with
      | ok => simp [hr, hc, Except.isOk, Except.toBool] at h
      | error fault => exact ⟨op, fault, by simp only [hc]⟩
  | _ => cases h

/-- A fatal fault is told if an operation is refused, or if the channel raised it. -/
theorem noticesOf_mild (hr : s.refuses e = false) (he : e.isFatal = false) :
    ∀ n ∈ s.noticesOf e, n.isFatal = false := by
  cases e with
  | remoteOp revision =>
    unfold refuses at hr
    unfold noticesOf
    cases hop : s.channel.receive.1 with
    | none => exact fun _ hn => absurd hn List.not_mem_nil
    | some op =>
      cases hc : (Target.consume s.target op).1 with
      | ok =>
        simp only [hc]
        exact List.forall_mem_singleton.2 rfl
      | error fault => simp [hop, hc, Except.isOk, Except.toBool] at hr
  | ack => exact fun _ hn => absurd hn List.not_mem_nil
  | saveState => exact List.forall_mem_singleton.2 rfl
  | error => exact List.forall_mem_singleton.2 he

theorem deliverEvent_announced (h : Announced s.channel (e :: es)) : Announced (s.deliverEvent e).channel es := by
  obtain ⟨hchannel, -, -⟩ := (s.dispatch e).runCommands_keeps
  obtain ⟨target, hdispatch⟩ := s.dispatch_eq e
  rw [deliverEvent, hchannel, hdispatch]
  exact dispatched_announced h

/-- A closed channel stays closed, and one is closed by an operation that the target refuses. -/
theorem deliverEvent_closed (h : s.channel.isConnected = false ∨ s.refuses e = true) :
    (s.deliverEvent e).channel.isConnected = false := by
  obtain ⟨hchannel, -, -⟩ := (s.dispatch e).runCommands_keeps
  obtain ⟨target, hdispatch⟩ := s.dispatch_eq e
  rw [deliverEvent, hchannel, hdispatch]
  show (s.dispatched e).isConnected = false
  unfold dispatched
  split
  next =>
    split
    next => exact Channel.disconnect_isConnected _
    next hno => exact h.resolve_right hno
  next hother =>
    refine h.resolve_right fun hr => ?_
    cases e with
    | remoteOp revision => exact hother revision rfl
    | _ => cases hr

/-! ## All events of a call -/

/-- What the target is told of events, one after the other. -/
def noticesOfAll (s : Session τ) : List Event → List Notice
  | [] => []
  | e :: es => s.noticesOf e ++ (s.deliverEvent e).noticesOfAll es

/-- Behind an operation that the target refuses there are only acknowledgements. -/
def refusesLast (s : Session τ) : List Event → Bool
  | [] => true
  | e :: es => if s.refuses e then es.all Event.isAck else (s.deliverEvent e).refusesLast es

theorem foldl_deliverEvent_notices : ∀ (es : List Event) (s : Session (Witnessed τ)),
    (es.foldl deliverEvent s).target.notices = s.target.notices ++ s.noticesOfAll es
  | [], _ => (List.append_nil _).symm
  | e :: es, s => by
    rw [List.foldl_cons, foldl_deliverEvent_notices es, deliverEvent_notices, List.append_assoc]
    rfl

theorem noticesOfAll_eq_nil_iff : ∀ (es : List Event) {s : Session (Witnessed τ)}, Announced s.channel es →
    (s.noticesOfAll es = [] ↔ es.all Event.isAck = true)
  | [], _, _ => iff_of_true rfl rfl
  | e :: es, s, h => by
    rw [noticesOfAll, List.append_eq_nil_iff, noticesOf_eq_nil_iff h,
      noticesOfAll_eq_nil_iff es (deliverEvent_announced h), List.all_cons, Bool.and_eq_true]

/-- An operation that the target takes and any fault are told in a single notice. -/
theorem noticesOf_hushed (hr : s.refuses e = false) : Hushed (s.noticesOf e) := by
  cases e with
  | error => exact List.pairwise_singleton _ _
  | _ => exact hushed_of_mild (noticesOf_mild hr rfl)

/-- Of events of which only the last may be fatal, nothing is told after a fatal fault unless an operation was refused
before. -/
theorem hushed_iff : ∀ (es : List Event) {s : Session (Witnessed τ)}, Announced s.channel es →
    (∀ e ∈ es.dropLast, e.isFatal = false) → (Hushed (s.noticesOfAll es) ↔ s.refusesLast es = true)
  | [], _, _, _ => iff_of_true .nil rfl
  | e :: es, s, h, hmild => by
    have hnext := deliverEvent_announced h
    cases hr : s.refuses e with
    | true =>
      obtain ⟨op, fault, hn⟩ := noticesOf_refused hr
      rw [refusesLast, if_pos hr, ← noticesOfAll_eq_nil_iff es hnext, noticesOfAll, hn]
      have hfirst : ∀ n ∈ [Notice.consumed op false], n.isFatal = false := List.forall_mem_singleton.2 rfl
      exact (hushed_append_iff hfirst).trans (hushed_fatal_iff rfl)
    | false =>
      rw [refusesLast, if_neg (by simp [hr]), noticesOfAll]
      cases es with
      | nil =>
        rw [noticesOfAll, List.append_nil]
        exact iff_of_true (noticesOf_hushed hr) rfl
      | cons e' es =>
        have he : e.isFatal = false := hmild e (List.mem_cons_self ..)
        refine (hushed_append_iff (noticesOf_mild hr he)).trans (hushed_iff (e' :: es) hnext fun e he => ?_)
        exact hmild e (List.mem_cons_of_mem _ he)

theorem foldl_deliverEvent_closed : ∀ (es : List Event) {s : Session (Witnessed τ)}, s.channel.isConnected = false →
    (es.foldl deliverEvent s).channel.isConnected = false
  | [], _, h => h
  | _ :: es, _, h => foldl_deliverEvent_closed es (deliverEvent_closed (.inl h))

/-- A fatal fault is told of a channel that is or will be closed. -/
theorem closed_of_fatal : ∀ (es : List Event) {s : Session (Witnessed τ)},
    (∀ e ∈ es, e.isFatal = true → s.channel.isConnected = false) → ∀ n ∈ s.noticesOfAll es, n.isFatal = true →
      (es.foldl deliverEvent s).channel.isConnected = false
  | [], _, _, _, hn, _ => absurd hn List.not_mem_nil
  | e :: es, s, hes, n, hn, hfatal => by
    rcases List.mem_append.1 hn with hn | hn
    · refine foldl_deliverEvent_closed es (deliverEvent_closed ?_)
      by_contra hno
      rw [not_or, Bool.not_eq_true] at hno
      have he : e.isFatal = false := Bool.eq_false_iff.2 fun he => hno.1 (hes e (List.mem_cons_self ..) he)
      exact absurd (hfatal.symm.trans (noticesOf_mild hno.2 he n hn)) nofun
    · refine closed_of_fatal es (fun e' he' hfatal' => ?_) n hn hfatal
      exact deliverEvent_closed (.inl (hes e' (List.mem_cons_of_mem _ he') hfatal'))

/-! ## Calls -/

/-- The session when it starts to deliver events. -/
def ready (s : Session τ) : Session τ :=
  { s.runCommands with channel := { s.runCommands.channel with events := [] } }

theorem pump_eq (s : Session τ) : s.pump = s.channel.events.foldl deliverEvent s.ready := by
  obtain ⟨hchannel, -, -⟩ := s.runCommands_keeps
  have hevents : s.runCommands.channel.events = s.channel.events := by rw [hchannel]
  unfold pump
  dsimp only
  rw [hevents]
  rfl

/-- Nothing but acknowledgements is listed behind an operation that the target refuses. -/
def endsAtRefusal (s : Session τ) : Bool := s.ready.refusesLast s.channel.events

/-- All events are delivered. -/
structure Delivered (c : Channel) : Prop where
  dated : c.Dated
  events : c.events = []
  serverOps : c.queue.serverOps = []

/-- What the target was told on the way to a session, fatal faults and all. -/
structure Told (s t : Session (Witnessed τ)) (ns : List Notice) : Prop where
  notices : t.target.notices = s.target.notices ++ ns
  fatal : ∀ n ∈ ns, n.isFatal = true → t.channel.isConnected = false

theorem call_told (hc : Delivered s.channel) {call : Call} (hcall : call ≠ .receive) :
    let t : Session (Witnessed τ) := { s with channel := (s.channel.perform call).2 }
    ∃ ns, Told s t.pump ns ∧ (Hushed ns ↔ t.endsAtRefusal = true) := by
  intro t
  obtain ⟨hchannel, htarget, -⟩ := t.runCommands_keeps
  have hann : Announced t.ready.channel t.channel.events := by
    have hann : Announced t.channel t.channel.events := perform_announced hc.dated hc.events hc.serverOps hcall
    unfold Announced ready
    rw [hchannel]
    exact hann
  have hready : t.ready.channel.isConnected = t.channel.isConnected := by
    unfold ready
    rw [hchannel]
    rfl
  obtain ⟨hmild, hfatal⟩ : (∀ e ∈ t.channel.events.dropLast, e.isFatal = false) ∧
      ∀ e ∈ t.channel.events, e.isFatal = true → t.channel.isConnected = false := Channel.perform_events hc.events call
  refine ⟨t.ready.noticesOfAll t.channel.events, ⟨?_, fun n hn hnf => ?_⟩, hushed_iff _ hann hmild⟩
  · rw [pump_eq, foldl_deliverEvent_notices]
    show t.runCommands.target.notices ++ _ = _
    rw [htarget]
  · rw [pump_eq]
    exact closed_of_fatal _ (fun e he hef => hready.trans (hfatal e he hef)) n hn hnf

/-- A call of a closed channel tells the target nothing, and leaves the channel closed. -/
theorem call_of_closed (hc : Delivered s.channel) (hclosed : s.channel.isConnected = false) {call : Call}
    (hcall : ∀ revision, call ≠ .connect revision) :
    let t : Session (Witnessed τ) := { s with channel := (s.channel.perform call).2 }
    t.pump.target = s.target ∧ t.pump.channel.isConnected = false := by
  intro t
  have hphase : s.channel.phase = .uninitialized := by simpa [Channel.isConnected] using hclosed
  obtain ⟨hphase, hevents⟩ := Channel.perform_of_closed hphase hcall
  obtain ⟨hchannel, htarget, -⟩ := t.runCommands_keeps
  have hevents : t.channel.events = [] := hevents.trans hc.events
  rw [pump_eq, hevents]
  refine ⟨htarget, ?_⟩
  show t.runCommands.channel.isConnected = false
  rw [hchannel]
  show t.channel.isConnected = false
  simp [Channel.isConnected, t, hphase]

/-! ## Calls that put nothing up for delivery -/

theorem refusesLast_of_unannounced : ∀ (es : List Event) (s : Session τ), (∀ e ∈ es, e.announces? = none) →
    s.refusesLast es = true
  | [], _, _ => rfl
  | e :: es, s, h => by
    have hr : s.refuses e = false := by
      cases e with
      | remoteOp revision => cases h _ (List.mem_cons_self ..)
      | _ => rfl
    rw [refusesLast, if_neg (by simp [hr])]
    exact refusesLast_of_unannounced es _ fun e he => h e (List.mem_cons_of_mem _ he)

/-- A call after which no operation waits for delivery ends well. -/
theorem endsAtRefusal_of_serverOps {c : Channel} (hc : Delivered c) (call : Call) (hcall : call ≠ .receive)
    (hs : (c.perform call).2.queue.serverOps = []) (s : Session τ) :
    endsAtRefusal { s with channel := (c.perform call).2 } = true := by
  have hann := perform_announced hc.dated hc.events hc.serverOps hcall
  rw [Announced, hs] at hann
  exact refusesLast_of_unannounced _ _ (List.filterMap_eq_nil_iff.1 (List.length_eq_zero_iff.1 hann.symm))

/-! ## Moves -/

/-- The move makes a new connection. -/
def connects (s : Session τ) : Move → Bool
  | .connect _ => !s.channel.isConnected
  | _ => false

/-- The session once its channel has heard what came in. -/
def heard (s : Session τ) (y : Inbound) : Session τ := { s with channel := (s.channel.perform y.call).2 }

/-- If something came in that makes the target refuse an operation, nothing but acknowledgements is listed behind it. -/
def moveEndsAtRefusal (s : Session τ) : Move → Bool
  | .take y => (s.heard y).endsAtRefusal
  | _ => true

/-- What a move tells the target. -/
structure Tells (s : Session (Witnessed τ)) (x : Move) (ns : List Notice) : Prop extends Told s (s.move x) ns where
  hushed : Hushed ns ↔ s.moveEndsAtRefusal x = true
  silent : s.channel.isConnected = false → s.connects x = false →
    ns = [] ∧ (s.move x).channel.isConnected = false

/-- A move is rejected, perhaps after the target was given an edit. -/
theorem tells_of_rejected (ns : List Notice) (hchannel : (s.move x).channel = s.channel)
    (hnotices : (s.move x).target.notices = s.target.notices ++ ns) (hmild : ∀ n ∈ ns, n.isFatal = false)
    (hends : s.moveEndsAtRefusal x = true) (hsilent : s.channel.isConnected = false → ns = []) :
    ∃ ns, s.Tells x ns := by
  refine ⟨ns, ⟨hnotices, fun n hn hnf => ?_⟩, iff_of_true (hushed_of_mild hmild) hends, fun hclosed _ => ?_⟩
  · exact absurd (hnf.symm.trans (hmild n hn)) nofun
  · exact ⟨hsilent hclosed, hchannel ▸ hclosed⟩

/-- A move makes a call, perhaps after the target took an edit. -/
theorem tells_of_call (hc : Delivered s.channel) {u : Session (Witnessed τ)} (hu : u.channel = s.channel)
    (pre : List Notice) (hpre : u.target.notices = s.target.notices ++ pre) (hmild : ∀ n ∈ pre, n.isFatal = false)
    (call : Call) (hcall : call ≠ .receive) (hmove : s.move x = u.after (u.channel.perform call).2)
    (hends : endsAtRefusal { u with channel := (u.channel.perform call).2 } = s.moveEndsAtRefusal x)
    (hsilent : s.channel.isConnected = false → s.connects x = false → pre = [] ∧ ∀ revision, call ≠ .connect revision) :
    ∃ ns, s.Tells x ns := by
  obtain ⟨ns, htold, hhushed⟩ := call_told (hu ▸ hc) hcall
  refine ⟨pre ++ ns, ⟨?_, fun n hn hnf => ?_⟩, ?_, fun hclosed hno => ?_⟩
  · rw [hmove, ← List.append_assoc, ← hpre]
    exact htold.notices
  · rw [hmove]
    rcases List.mem_append.1 hn with hn | hn
    · exact absurd (hnf.symm.trans (hmild n hn)) nofun
    · exact htold.fatal n hn hnf
  · rw [hushed_append_iff hmild, hhushed, hends]
  · obtain ⟨rfl, hcall⟩ := hsilent hclosed hno
    obtain ⟨htarget, hstill⟩ := call_of_closed (hu ▸ hc) (hu ▸ hclosed) hcall
    have hnone := htold.notices
    rw [htarget] at hnone
    rw [hmove]
    exact ⟨by simpa using hnone, hstill⟩

/-- An edit is taken by a connected session only, and puts nothing up for delivery. -/
theorem edit_tells (hc : Delivered s.channel) (op : Composite) : ∃ ns, s.Tells (.take (.edit op)) ns := by
  have hends : s.moveEndsAtRefusal (.take (.edit op)) = true :=
    endsAtRefusal_of_serverOps hc (.submit op) nofun (Channel.submit_serverOps hc.serverOps op) s
  cases hopen : s.channel.isConnected with
  | false =>
    have hmove : s.move (.take (.edit op)) = s := by simp [move, handle, edit, hopen]
    refine tells_of_rejected [] (by rw [hmove]) ?_ (fun _ hn => absurd hn List.not_mem_nil) hends fun _ => rfl
    rw [hmove, List.append_nil]
  | true =>
    have hconnected : s.channel.isConnected ≠ false := by simp [hopen]
    cases hconsume : Target.consume s.target.target op with
    | mk result target =>
      have hmild : ∀ n ∈ [Notice.consumed op result.isOk], n.isFatal = false := List.forall_mem_singleton.2 rfl
      let u : Session (Witnessed τ) := { s with target := ⟨target, s.target.notices ++ [.consumed op result.isOk]⟩ }
      cases result with
      | error fault =>
        have hmove : s.move (.take (.edit op)) = u := by
          simp [move, handle, edit, hopen, Target.consume, hconsume, u]
        exact tells_of_rejected _ (by rw [hmove]) (by rw [hmove]) hmild hends fun hclosed => absurd hclosed hconnected
      | ok =>
        have hmove : s.move (.take (.edit op)) = (u.called (u.channel.submit op)).2 := by
          simp [move, handle, edit, hopen, Target.consume, hconsume, u]
        cases hsubmit : s.channel.submit op with
        | error fault =>
          have hmove : s.move (.take (.edit op)) = u := by
            rw [hmove, show u.channel.submit op = .error fault from hsubmit]
            rfl
          exact tells_of_rejected _ (by rw [hmove]) (by rw [hmove]) hmild hends fun hclosed => absurd hclosed hconnected
        | ok c =>
          have hcall : u.channel.submit op = .ok c := hsubmit
          have hperform : (u.channel.perform (.submit op)).2 = c := by
            simp [Channel.perform, hcall, Channel.settled]
          refine tells_of_call hc (u := u) rfl _ rfl hmild (.submit op) nofun ?_ ?_
            fun hclosed => absurd hclosed hconnected
          · rw [hmove, hcall, hperform]
            rfl
          · rw [hends]
            exact endsAtRefusal_of_serverOps hc (.submit op) nofun (Channel.submit_serverOps hc.serverOps op) u

/-- A move that is no edit makes at most one call, and tells what that call lists. -/
theorem call_tells (hc : Delivered s.channel) {u : Session (Witnessed τ)} (hu : u.channel = s.channel)
    (htarget : u.target = s.target) (call : Call) (hcall : call ≠ .receive)
    (hmove : s.move x = u.after (u.channel.perform call).2)
    (hends : endsAtRefusal { u with channel := (u.channel.perform call).2 } = s.moveEndsAtRefusal x)
    (hconnect : ∀ revision, call = .connect revision → s.connects x = true) : ∃ ns, s.Tells x ns := by
  refine tells_of_call hc hu [] (by rw [htarget, List.append_nil])
    (fun _ hn => absurd hn List.not_mem_nil) call hcall hmove hends fun _ hno => ⟨rfl, fun revision hr => ?_⟩
  exact absurd ((hconnect revision hr).symm.trans hno) nofun

theorem same_tells (hmove : s.move x = { s with now := (s.move x).now, transportOpen := (s.move x).transportOpen })
    (hends : s.moveEndsAtRefusal x = true) : ∃ ns, s.Tells x ns := by
  refine tells_of_rejected [] (by rw [hmove]) ?_ (fun _ hn => absurd hn List.not_mem_nil) hends fun _ => rfl
  rw [hmove, List.append_nil]

theorem heard_tells (hc : Delivered s.channel) {y : Inbound}
    (hcall : (s.handle y).2 = s.after (s.channel.perform y.call).2) : ∃ ns, s.Tells (.take y) ns :=
  call_tells hc (u := s) rfl rfl y.call (by cases y <;> nofun) hcall rfl (by cases y <;> nofun)

theorem take_tells (hc : Delivered s.channel) (y : Inbound) : ∃ ns, s.Tells (.take y) ns := by
  cases y with
  | edit op => exact edit_tells hc op
  | endCompound =>
    cases hend : s.channel.endCompound with
    | error fault =>
      have hsame : (s.channel.perform .endCompound).2 = s.channel := by simp [Channel.perform, hend, Channel.settled]
      refine same_tells (by simp [move, handle, called, hend]) ?_
      refine endsAtRefusal_of_serverOps hc .endCompound (by simp) ?_ s
      rw [hsame]
      exact hc.serverOps
    | ok c =>
      refine heard_tells hc ?_
      simp [handle, called, hend, Inbound.call, Channel.perform, Channel.settled]
  | _ => exact heard_tells hc rfl

/-- What a move tells, nothing follows a fatal fault unless something behind a refused operation does. -/
theorem move_tells (hc : Delivered s.channel) (x : Move) : ∃ ns, s.Tells x ns := by
  cases x with
  | connect revision =>
    rcases s.connect_cases revision with hsame | ⟨hclosed, hcall⟩
    · exact same_tells (by rw [move, hsame]) rfl
    · have hconnects : s.connects (.connect revision) = true := by simp [connects, hclosed]
      refine call_tells hc (u := s) rfl rfl (.connect revision) (by simp) hcall ?_ fun _ _ => hconnects
      exact endsAtRefusal_of_serverOps hc (.connect revision) (by simp) (Channel.connect_serverOps hc.serverOps revision) s
  | take y => exact take_tells hc y
  | pass delay => exact same_tells rfl rfl
  | fireSend =>
    rcases s.fireSendIfDue_cases with hsame | hcall
    · exact same_tells (by rw [move, hsame]) rfl
    · refine call_tells hc (u := { s with sendDeadline := none }) rfl rfl .flush (by simp) hcall ?_ (by simp)
      exact endsAtRefusal_of_serverOps hc .flush (by simp) ((Channel.flush_serverOps s.channel).trans hc.serverOps) _
  | fireResync =>
    rcases s.fireResyncIfDue_cases with hsame | ⟨version, due, -, hcall⟩
    · exact same_tells (by rw [move, hsame]) rfl
    · refine call_tells hc (u := { s with resyncDeadline := none }) rfl rfl (.resyncTimer version) (by simp) hcall ?_
        (by simp)
      exact endsAtRefusal_of_serverOps hc (.resyncTimer version) (by simp)
        ((Channel.resyncTimer_serverOps s.channel version).trans hc.serverOps) _
  | finish =>
    refine call_tells hc (u := s) rfl rfl .disconnect (by simp) rfl ?_ (by simp)
    refine endsAtRefusal_of_serverOps hc .disconnect (by simp) ?_ s
    exact (congrArg Queue.serverOps s.channel.disconnect_queue).trans hc.serverOps
  | closeTransport => exact same_tells rfl rfl

/-! ## Runs -/

/-- What the target is told by a move. -/
def toldBy (s : Session (Witnessed τ)) (x : Move) : List Notice :=
  (s.move x).target.notices.drop s.target.notices.length

/-- What the target was told after the last new connection, if it was told `ns` before the moves. -/
def toldSince (s : Session (Witnessed τ)) (ns : List Notice) : List Move → List Notice
  | [] => ns
  | x :: moves => (s.move x).toldSince ((if s.connects x then [] else ns) ++ s.toldBy x) moves

theorem toldSince_concat : ∀ (moves : List Move) (s : Session (Witnessed τ)) (ns : List Notice) (x : Move),
    s.toldSince ns (moves ++ [x]) =
      (if (s.run moves).connects x then [] else s.toldSince ns moves) ++ (s.run moves).toldBy x
  | [], _, _, _ => rfl
  | y :: moves, s, _, x => toldSince_concat moves (s.move y) _ x

theorem Tells.toldBy_eq {ns : List Notice} (h : s.Tells x ns) : s.toldBy x = ns := by
  rw [Session.toldBy, h.notices, List.drop_left]

theorem run_concat (s : Session τ) (moves : List Move) (x : Move) : s.run (moves ++ [x]) = (s.run moves).move x :=
  List.foldl_append

/-- Whatever happens to a session, all events are delivered between two moves. -/
theorem run_delivered (document : DocumentId) (user : UserId) (session : SessionId) (config : Config) (target : τ)
    (moves : List Move) : Delivered ((new (.new document user session config) target).run moves).channel := by
  have hidle := run_idle (moves.filter Move.leavesTransport) (new_idle document user session config target)
    fun _ hx => (List.mem_filter.1 hx).2
  have hshadows := run_shadows moves (.refl rfl) (s := new (.new document user session config) target)
  rw [← hshadows.channel]
  exact ⟨hidle.dated, hidle.events, hidle.delivered⟩

/-- A fatal fault told since the last new connection left the channel closed, and then nothing was told. -/
theorem run_closed (document : DocumentId) (user : UserId) (session : SessionId) (config : Config)
    (target : Witnessed τ) (moves : List Move) :
    let fresh := new (.new document user session config) target
    ∀ n ∈ fresh.toldSince [] moves, n.isFatal = true → (fresh.run moves).channel.isConnected = false := by
  intro fresh
  induction moves using List.reverseRecOn with
  | nil => exact fun _ hn => absurd hn List.not_mem_nil
  | append_singleton moves x ih =>
    intro n hn hnf
    obtain ⟨_, htells⟩ := move_tells (run_delivered document user session config target moves) x
    rw [run_concat]
    rw [toldSince_concat, htells.toldBy_eq] at hn
    rcases List.mem_append.1 hn with hn | hn
    · cases hconnects : (fresh.run moves).connects x with
      | true => simp [hconnects] at hn
      | false =>
        rw [hconnects, if_neg Bool.false_ne_true] at hn
        exact (htells.silent (ih n hn hnf) hconnects).2
    · exact htells.fatal n hn hnf

/-- One more move keeps the target hushed if the move ends at a refusal. -/
theorem toldSince_hushed_concat_iff (document : DocumentId) (user : UserId) (session : SessionId) (config : Config)
    (target : Witnessed τ) (moves : List Move) (x : Move) :
    let fresh := new (.new document user session config) target
    Hushed (fresh.toldSince [] moves) →
      (Hushed (fresh.toldSince [] (moves ++ [x])) ↔ (fresh.run moves).moveEndsAtRefusal x = true) := by
  intro fresh hhushed
  obtain ⟨ns, htells⟩ := move_tells (run_delivered document user session config target moves) x
  rw [toldSince_concat, htells.toldBy_eq, ← htells.hushed]
  cases hconnects : (fresh.run moves).connects x with
  | true => rfl
  | false =>
    rw [if_neg Bool.false_ne_true]
    by_cases hmild : ∀ n ∈ fresh.toldSince [] moves, n.isFatal = false
    · exact hushed_append_iff hmild
    · obtain ⟨n, hn, hnf⟩ : ∃ n ∈ fresh.toldSince [] moves, n.isFatal = true := by simpa using hmild
      have hclosed := run_closed document user session config target moves n hn hnf
      obtain ⟨rfl, -⟩ := htells.silent hclosed hconnects
      rw [List.append_nil]
      exact iff_of_true hhushed .nil

/-- **The session ends with a fatal fault, except that what is listed behind a refused operation is still delivered.**
In a run, nothing is ever told after a fatal fault and before a new connection is made, exactly if at every move nothing
but acknowledgements was listed behind an operation that the target refused. -/
theorem run_hushed_iff (document : DocumentId) (user : UserId) (session : SessionId) (config : Config) (target : τ)
    (moves : List Move) :
    let fresh := new (.new document user session config) (⟨target, []⟩ : Witnessed τ)
    (∀ before, before <+: moves → Hushed (fresh.toldSince [] before)) ↔
      ∀ before x, before ++ [x] <+: moves → (fresh.run before).moveEndsAtRefusal x = true := by
  intro fresh
  have hstep (before : List Move) (x : Move) :=
    toldSince_hushed_concat_iff document user session config ⟨target, []⟩ before x
  refine ⟨fun h before x hprefix => ?_, fun h before hprefix => ?_⟩
  · exact (hstep before x (h before ((List.prefix_append ..).trans hprefix))).1 (h _ hprefix)
  · induction before using List.reverseRecOn with
    | nil => exact .nil
    | append_singleton before x ih =>
      exact (hstep before x (ih ((List.prefix_append ..).trans hprefix))).2 (h before x hprefix)

/-- The second revision is listed behind the first, which no empty document takes. -/
def untaken : DeltaMessage :=
  ⟨⟨"remote"⟩, ⟨"them"⟩, 2, [.ofComponents [⟨⟨"body"⟩, .text (.insertAt 3 0 ['x'])⟩],
    .ofComponents [⟨⟨"title"⟩, .text (.insertAt 0 0 ['y'])⟩]]⟩

/-- The target refuses the first of two revisions that came in together, and is given the second nevertheless. -/
theorem not_hushed_refused :
    let fresh := new (.new ⟨"doc"⟩ ⟨"me"⟩ ⟨"local"⟩ {}) (⟨.empty, []⟩ : Witnessed Document)
    ¬ Hushed (fresh.toldSince [] [.connect 0, .take (.delta untaken)]) := by
  decide +kernel

end Session
end Coedit
