import Coedit.Proofs.Channel.Acknowledging
import Coedit.Proofs.Channel.Closing
import Coedit.Proofs.Channel.HeadOfLine
import Coedit.Proofs.Network.Link

/-!
# Following a server up to what is late

A channel takes the echo of the operation in flight to be the next operation of its session.  As long as it has come
across nothing that was submitted late, this is the operation in flight indeed, as the server applied it, and what is
acknowledged is what was applied.

* `Channel.Expires`, `Channel.perform_expires` — every connection has a retry version of its own;
* `Link.Carries` — what ties a connected channel to the history, up to the first operation that was submitted late;
* `Link.Leads`, `Link.drain_leads`, `Link.call_leads` — deltas and calls keep it, and acknowledge what was applied.
-/

namespace Coedit

theorem Channel.Quiet.submissions {c c' : Channel} (h : c.Quiet c') : c'.submissions = c.submissions := by
  obtain @⟨_, _, _, xs, _, timed, _⟩ := h
  have hnone : xs.filterMap Command.submission? = [] := by
    refine List.filterMap_eq_nil_iff.2 fun y hy => ?_
    obtain ⟨_, rfl⟩ := Command.eq_scheduleSend (timed y hy)
    rfl
  show (c.commands ++ xs).filterMap Command.submission? = _
  rw [List.filterMap_append, hnone, List.append_nil]
  rfl

namespace Channel

/-! ## The retry version -/

variable {c c' : Channel} {x : Call}

/-- The retry version grows, and by the end of a connection it has grown. -/
def Expires (c c' : Channel) : Prop :=
  c.retryVersion ≤ c'.retryVersion ∧
    (c.phase ≠ .uninitialized → c'.phase = .uninitialized → c.retryVersion < c'.retryVersion)

theorem expires_of_open (hv : c'.retryVersion = c.retryVersion)
    (hopen : c.phase ≠ .uninitialized → c'.phase ≠ .uninitialized) : c.Expires c' :=
  ⟨hv.ge, fun h h' => absurd h' (hopen h)⟩

theorem Act.expires (h : Act x c c') : c.Expires c' := by
  cases h with
  | ended => exact ⟨Nat.le_succ _, fun _ _ => Nat.lt_succ_self _⟩
  | delayed => exact ⟨Nat.le_succ _, fun _ h => absurd h nofun⟩
  | connected | sent | settled | ackedAll | waited | synced | resumed => exact expires_of_open rfl fun _ => nofun
  | _ => exact expires_of_open rfl id

theorem perform_expires (hc : c.Orderly) (x : Call) : c.Expires (c.perform x).2 := by
  refine perform_lift (fun _ => expires_of_open rfl id) (fun {c m c'} h h' => ?_) hc fun _ ⟨m, hact, hquiet⟩ => ?_
  · refine ⟨Nat.le_trans h.1 h'.1, fun hc hc' => ?_⟩
    by_cases hm : m.phase = .uninitialized
    · exact Nat.lt_of_lt_of_le (h.2 hc hm) h'.1
    · exact Nat.lt_of_le_of_lt h.1 (h'.2 hm hc')
  · have hexpires := hact.expires
    obtain ⟨_, _, _⟩ := hquiet
    exact hexpires

/-- A new connection is made under the version that the channel has, and acknowledges nothing. -/
theorem connect_tells {revision : Nat} (h : c.connect revision = .ok c') :
    c'.retryVersion = c.retryVersion ∧ ∃ es, c'.events = c.events ++ es ∧ ∀ e ∈ es, e.isSaveState = true := by
  have hquiet := enter_quiet (Channel.command
    { c with queue := .new revision, knownHead := revision, retryAttempt := 0 } (.subscribe c.document)) .allAcked
  rw [← connect_eq_ok h] at hquiet
  obtain @⟨_, _, es, _, told, _, _⟩ := hquiet
  exact ⟨rfl, es, rfl, told⟩

end Channel

namespace Link

open Channel

variable {l : Link} {c c' m : Channel} {op : Composite} {q : Queue Composite}

/-! ## Following the server up to what is late -/

/-- Up to the revision nothing was submitted late. -/
def Timely (l : Link) (revision : Nat) : Prop := ∀ n ∈ l.late, revision < n

/-- What belongs to a retry version. -/
def under {α : Type} (version : Nat) (ps : List (Nat × α)) : List α :=
  ps.filterMap fun p => if p.1 = version then some p.2 else none

/-- The heads told in replies to submissions of the present connection. -/
def heads (l : Link) : List Nat := under l.channel.retryVersion l.replies

/-- The submissions of the present connection that the server has not received. -/
def mail (l : Link) : List DeltaRequest := under l.channel.retryVersion l.requests

section under

variable {α : Type} {version : Nat} {ps qs : List (Nat × α)}

theorem under_append (version : Nat) (ps qs : List (Nat × α)) :
    under version (ps ++ qs) = under version ps ++ under version qs :=
  List.filterMap_append

theorem under_of_eq (h : ∀ p ∈ ps, p.1 = version) : under version ps = ps.map (·.2) :=
  List.filterMap_eq_map_iff_forall_eq_some.2 fun p hp => if_pos (h p hp)

theorem under_of_ne (h : ∀ p ∈ ps, p.1 ≠ version) : under version ps = [] :=
  List.filterMap_eq_nil_iff.2 fun p hp => if_neg (h p hp)

end under

/-- What is around the channel, if what was submitted late is taken for operations of others. -/
def around (l : Link) : Setting where
  user := l.channel.user
  session := l.channel.session
  history := disown l.late l.server.history
  heads := l.heads
  mail := l.mail
  document := .empty
  pending := 0

/-- What holds of the channel of a link in the course of a call, while it is connected. -/
structure Carries (l : Link) (c : Channel) : Prop where
  session : c.session = l.channel.session
  version : c.retryVersion = l.channel.retryVersion
  steady : c.Steady
  recorded : ∀ revision op, c.buffered.get? revision = some op → Records l.server.history revision op
  submissions : l.channel.submissions.length ≤ c.submissions.length
  head : l.Timely c.queue.revision → c.queue.revision ≤ l.server.head
  /-- The operation in flight is where it should be, if nothing that was submitted late was taken in. -/
  flight : l.Timely c.queue.revision →
    Flight l.around c.queue c.phase (l.mail ++ c.submissions.drop l.channel.submissions.length)

/-- If the event acknowledges an operation before anything that was submitted late, the server applied it so. -/
def Credits (l : Link) : Event → Prop
  | .ack op _ => ∃ k, op.revision = some (k + 1) ∧
      (l.Timely (k + 1) → ∃ applied, l.server.history[k]? = some applied ∧ applied.components = op.components)
  | _ => True

theorem credits_of_isSaveState {e : Event} (h : e.isSaveState = true) : l.Credits e := by
  cases e with
  | saveState => trivial
  | _ => cases h

/-- What becomes of a channel in the course of a call. -/
structure Leads (l : Link) (c c' : Channel) : Prop where
  told : ∃ es, c'.events = c.events ++ es ∧ ∀ e ∈ es, l.Credits e
  carries : c'.isConnected = true → l.Carries c'

theorem leads_of_eq (h : m.events = c.events) (hm : m.isConnected = true → l.Carries m) : l.Leads c m :=
  ⟨⟨[], by rw [h, List.append_nil], fun _ he => absurd he List.not_mem_nil⟩, hm⟩

theorem Carries.refl (hc : l.Carries c) : l.Leads c c := leads_of_eq rfl fun _ => hc

theorem Leads.trans (h : l.Leads c m) (hclosed : m.isConnected = false → c' = m)
    (hopen : l.Carries m → l.Leads m c') : l.Leads c c' := by
  cases hm : m.isConnected with
  | false =>
    obtain rfl := hclosed hm
    exact h
  | true =>
    obtain ⟨⟨es, hes, hcredits⟩, hcarries⟩ := h
    obtain ⟨⟨es', hes', hcredits'⟩, hcarries'⟩ := hopen (hcarries hm)
    exact ⟨⟨es ++ es', by rw [hes', hes, List.append_assoc], List.forall_mem_append.2 ⟨hcredits, hcredits'⟩⟩, hcarries'⟩

/-- The connection ends with a fault. -/
theorem fail_leads (h : m.events = c.events) (fault : Fault) : l.Leads c (m.fail fault) := by
  refine ⟨⟨[.error fault true], ?_, List.forall_mem_singleton.2 trivial⟩, fun hopen => ?_⟩
  · rw [fail_events, h]
  · exact absurd ((fail_isConnected m fault).symm.trans hopen) nofun

/-- Between two acts nothing is acknowledged. -/
theorem quiet_leads (h : m.events = c.events) (hc : l.Carries m) (hquiet : m.Quiet c') : l.Leads c c' := by
  have hsubmissions := hquiet.submissions
  obtain @⟨scheduled, depth, es, xs, told, timed, due⟩ := hquiet
  refine ⟨⟨es, by rw [← h], fun e he => ?_⟩, fun _ => ?_⟩
  · exact credits_of_isSaveState (told e he)
  · exact
      { hc with
        submissions := by
          rw [hsubmissions]
          exact hc.submissions
        flight := fun ht => by
          rw [hsubmissions]
          exact hc.flight ht }

/-- The queue is at the same revision with the same in flight. -/
theorem Carries.requeue (hc : l.Carries c) (hr : q.revision = c.queue.revision) (hu : q.unacked = c.queue.unacked) :
    l.Carries { c with queue := q } :=
  { hc with
    head := fun ht => by
      have hhead := hc.head
      rw [← hr] at hhead
      exact hhead ht
    flight := fun ht => by
      have hflight := hc.flight
      rw [← hr] at hflight
      exact (hflight ht).of_eq hu hr }

/-! ## Deltas -/

theorem Timely.of_le {r r' : Nat} (h : l.Timely r') (hle : r ≤ r') : l.Timely r := fun n hn =>
  Nat.lt_of_le_of_lt hle (h n hn)

/-- The next operation of the history was not submitted late, if the revision it makes is timely. -/
theorem Timely.getElem? {r : Nat} (h : l.Timely (r + 1)) : l.around.history[r]? = l.server.history[r]? :=
  disown_getElem? fun hat => Nat.lt_irrefl _ (h _ hat)

/-- The operation in flight is acknowledged at the next revision, which the session made. -/
theorem settled_leads {applied u : Composite} (hc : l.Carries c) (hu : c.queue.unacked = [u])
    (hr : l.Timely (c.queue.revision + 1) →
      l.around.history[c.queue.revision]? = some applied ∧ applied.IsFrom l.channel.session)
    (head echoes : Nat) (clean : Bool) :
    l.Leads c (settle { c with
      knownHead := head
      queue := acknowledged c.queue echoes
      events := c.events ++ [.ack (u.withRevision (c.queue.revision + 1)) clean] }) := by
  have hecho (ht : l.Timely (c.queue.revision + 1)) : c.queue.unacked = [applied] ∧
      Flight l.around (acknowledged c.queue echoes) .allAcked
        (l.mail ++ c.submissions.drop l.channel.submissions.length) := by
    have hdone : (acknowledged c.queue echoes).unacked = [] := rfl
    obtain ⟨hsame, -, hflight⟩ := (hc.flight (ht.of_le (Nat.le_succ _))).echo (hr ht).1 (hr ht).2 hdone rfl
    exact ⟨hsame, hflight⟩
  have hcredits : l.Credits (.ack (u.withRevision (c.queue.revision + 1)) clean) := by
    refine ⟨_, rfl, fun ht => ⟨applied, ht.getElem?.symm.trans (hr ht).1, ?_⟩⟩
    obtain rfl : u = applied := List.singleton_inj.1 (hu.symm.trans (hecho ht).1)
    rfl
  have hsettled : l.Leads c { c with
      knownHead := head
      queue := acknowledged c.queue echoes
      events := c.events ++ [.ack (u.withRevision (c.queue.revision + 1)) clean]
      retryAttempt := 0
      phase := .allAcked } := by
    refine ⟨⟨_, rfl, List.forall_mem_singleton.2 hcredits⟩, fun _ => ?_⟩
    exact
      { session := hc.session
        version := hc.version
        steady := .inl rfl
        recorded := hc.recorded
        submissions := hc.submissions
        head := fun ht => by
          have hlt := (List.getElem?_eq_some_iff.1 (hr ht).1).1
          rwa [around, disown_length] at hlt
        flight := fun ht => (hecho ht).2 }
  refine hsettled.trans (fun h => absurd h nofun) fun hm => quiet_leads rfl hm ?_
  exact settle_quiet { c with
    knownHead := head
    queue := acknowledged c.queue echoes
    events := c.events ++ [.ack (u.withRevision (c.queue.revision + 1)) clean] }

/-- Another session's operation is put up for delivery, and what is in flight passes it. -/
theorem received_leads {h : Composite} (hc : l.Carries c) (hh : l.server.history[c.queue.revision]? = some h)
    (foreign : ¬ h.IsFrom l.channel.session)
    (hq : c.queue.receive (c.queue.revision + 1) (h.withRevision (c.queue.revision + 1)) = (.ok (), q)) :
    l.Leads c ({ c with queue := q }.event (.remoteOp (c.queue.revision + 1))) := by
  obtain ⟨unacked, op, queued, fresh, op', hpass, rfl, -⟩ := Queue.receive_eq_ok hq
  refine ⟨⟨_, rfl, List.forall_mem_singleton.2 trivial⟩, fun _ => ?_⟩
  exact
    { hc with
      head := fun _ => (List.getElem?_eq_some_iff.1 hh).1
      flight := fun ht => by
        have ht : l.Timely (c.queue.revision + 1) := ht
        exact (hc.flight (ht.of_le (Nat.le_succ _))).pass (ht.getElem?.trans hh) foreign hpass rfl }

/-- The delta after the floor is taken in. -/
theorem applyDelta_leads (hc : l.Carries c) (ho : c.Orderly) (hop : Records l.server.history (c.floor + 1) op) :
    l.Leads c (c.applyDelta (c.floor + 1) op) := by
  by_cases due : c.queue.expectedAcks = 0
  · obtain ⟨k, h, hh, hk, rfl⟩ := hop
    have hfloor : c.floor = c.queue.revision := by rw [floor_eq, due, Nat.sub_zero]
    rw [hfloor] at hk ⊢
    obtain rfl : k = c.queue.revision := (Nat.succ.inj hk).symm
    have hconn := isConnected_iff.1 hc.steady.isConnected
    by_cases own : h.IsFrom l.channel.session
    · have hown : (h.withRevision (c.queue.revision + 1)).IsFrom c.session := hc.session ▸ own
      cases hu : c.queue.unacked with
      | nil =>
        have hnone : c.applyDelta (c.queue.revision + 1) (h.withRevision (c.queue.revision + 1)) =
            c.fail (.queue (.ownEcho (c.queue.revision + 1))) := by
          have hown : (h.withRevision (c.queue.revision + 1)).origin.session = some c.session := hown
          simp only [applyDelta, Queue.takeEcho_of_eq_zero due, hown, if_true, hu, List.head?_nil]
        rw [hnone]
        exact fail_leads rfl _
      | cons u us =>
        have hsingle := ho.single hconn
        rw [hu] at hsingle
        obtain rfl : us = [] := List.length_eq_zero_iff.1 (Nat.le_zero.1 (Nat.le_of_succ_le_succ hsingle))
        have hphase : c.phase = .waitingAck := hc.steady.resolve_left fun hidle => by simp [ho.idle hidle] at hu
        rw [applyDelta_own due hu hphase hown]
        exact settled_leads hc hu (fun ht => ⟨ht.getElem?.trans hh, own⟩) c.knownHead 0 _
    · have hforeign : ¬ (h.withRevision (c.queue.revision + 1)).origin.session = some c.session := hc.session ▸ own
      simp only [applyDelta, Queue.takeEcho_of_eq_zero due, if_neg hforeign]
      split
      next fault q hq => exact fail_leads (c := c) (m := { c with queue := q }) rfl fault
      next q hq => exact received_leads hc hh own hq
  · have hnext : c.floor + 1 = c.queue.revision + 1 - c.queue.expectedAcks := by
      have := ho.echoes
      simp only [floor_eq]
      omega
    rw [applyDelta_expected due hnext]
    exact leads_of_eq rfl fun _ => hc.requeue rfl rfl

theorem Carries.erase (hc : l.Carries c) (revision : Nat) :
    l.Carries { c with buffered := c.buffered.erase revision } :=
  { hc with
    recorded := fun r op hr => by
      have hr : (c.buffered.erase revision).get? r = some op := hr
      rw [Table.get?_erase] at hr
      split at hr
      next => cases hr
      next => exact hc.recorded r op hr }

theorem drain_leads (hc : l.Carries c) (ho : c.Orderly) : l.Leads c c.drain := by
  have hdraining := drain_draining c
  generalize drainStages c.buffered.entries c = ds, c.drain = d at hdraining
  induction hdraining with
  | stops => exact hc.refl
  | @drops c _ revision _ connected _ _ ih =>
    have herased := leads_of_eq (c := c) (m := { c with buffered := c.buffered.erase revision }) rfl fun _ => hc.erase _
    refine herased.trans (fun hclosed => absurd (connected.symm.trans hclosed) nofun) fun hm => ?_
    exact ih hm (erase_orderly ho connected revision)
  | @takes c _ op _ connected next rest ih =>
    have horderly := erase_orderly ho connected (c.floor + 1)
    have herased := leads_of_eq (c := c) (m := { c with buffered := c.buffered.erase (c.floor + 1) }) rfl
      fun _ => hc.erase _
    have htaken : l.Leads { c with buffered := c.buffered.erase (c.floor + 1) }
        (applyDelta { c with buffered := c.buffered.erase (c.floor + 1) } (c.floor + 1) op) :=
      applyDelta_leads (hc.erase _) horderly (hc.recorded _ _ next)
    refine herased.trans (fun hclosed => absurd (connected.symm.trans hclosed) nofun) fun _ => ?_
    exact htaken.trans rest.eq_of_closed fun hm => ih hm (take_orderly ho connected next)

/-! ## Calls -/

theorem delta_leads {message : DeltaMessage} (hc : l.Carries c) (ho : c.Orderly)
    (hm : ∀ e ∈ message.revisions, Records l.server.history e.1 e.2) : l.Leads c (c.delta message) := by
  have hhears := buffer_hears c message
  have hrecorded : ∀ revision op, (c.buffer message).buffered.get? revision = some op →
      Records l.server.history revision op := by
    refine buffer_lift (R := fun d d' => (∀ r op, d.buffered.get? r = some op → Records l.server.history r op) →
      ∀ r op, d'.buffered.get? r = some op → Records l.server.history r op) (fun _ => id)
      (fun h h' hd => h' (h hd)) c message (fun e he d => keep_recorded (hm e he)) hc.recorded
  have hheard : l.Carries (c.buffer message) := by
    rw [hhears.eq]
    exact { hc with recorded := hrecorded }
  have horderly : (c.buffer message).Orderly :=
    (hhears.step (x := .delta message) (isConnected_iff.1 hc.steady.isConnected)).orderly ho
  have hbuffered : l.Leads c (c.buffer message) := leads_of_eq (by rw [hhears.eq]) fun _ => hheard
  rw [delta, if_pos hc.steady.isConnected]
  have hdrained : l.Leads c (c.buffer message).drain :=
    hbuffered.trans (fun hclosed => absurd hheard.steady.isConnected (Bool.eq_false_iff.1 hclosed))
      fun _ => drain_leads hheard horderly
  refine hdrained.trans checkSynced_of_closed fun hdone => ?_
  rw [checkSynced_of_ne]
  · exact hdone.refl
  · rcases hdone.steady with h | h <;> simp [h]

/-- The connection ends. -/
theorem disconnect_leads (hc : l.Carries c) : l.Leads c c.disconnect := by
  rw [disconnect_eq (isConnected_iff.1 hc.steady.isConnected)]
  exact ⟨⟨[], rfl, fun _ he => absurd he List.not_mem_nil⟩, fun hopen => absurd hopen nofun⟩

theorem submit_leads (hc : l.Carries c) (h : c.submit op = .ok c') : l.Leads c c' := by
  obtain ⟨result, q, hq, rfl | ⟨fault, rfl⟩⟩ := submit_eq_ok h
  · have hrevision : (c.queue.record (op.withOrigin c.user c.session)).2.revision = c.queue.revision :=
      (c.queue.record_still _).revision
    have hunacked := c.queue.record_unacked (op.withOrigin c.user c.session)
    rw [hq] at hrevision hunacked
    exact quiet_leads (m := { c with queue := q }) rfl (hc.requeue hrevision hunacked) (scheduleSend_quiet _)
  · exact fail_leads (c := c) (m := { c with queue := q }) rfl fault

theorem endCompound_leads (hc : l.Carries c) (h : c.endCompound = .ok c') : l.Leads c c' := by
  have hclosed : c.Quiet { c with compoundDepth := c.compoundDepth - 1 } := quiet_of_eq rfl
  rcases endCompound_eq_ok h with rfl | rfl
  · exact quiet_leads rfl hc hclosed
  · exact quiet_leads rfl hc (hclosed.trans (scheduleSend_quiet _))

/-- An operation goes in flight, and is on its way. -/
theorem Carries.sent (hc : l.Carries c) (hphase : c.phase = .allAcked) (u : Composite) :
    l.Carries { submitBatch { c with sendScheduled := false, queue := c.queue.sent [u] } with
      phase := .waitingAck } := by
  let d : Channel := submitBatch { c with sendScheduled := false, queue := c.queue.sent [u] }
  have hsubmissions : d.submissions = c.submissions ++ [⟨c.document, c.session, c.queue.revision, [u]⟩] :=
    submitBatch_submissions _
  have hgrows := hc.submissions
  exact
    { session := hc.session
      version := hc.version
      steady := .inr rfl
      recorded := hc.recorded
      submissions := by
        show _ ≤ d.submissions.length
        rw [hsubmissions, List.length_append]
        exact Nat.le_add_right_of_le hgrows
      head := hc.head
      flight := fun ht => by
        obtain ⟨-, hnone, hlater, hheads⟩ := Flight.of_allAcked (hphase ▸ hc.flight ht)
        obtain ⟨hmail, hdrop⟩ := List.append_eq_nil_iff.1 hnone
        have hspan : l.around.history.drop c.queue.revision = [] ++ l.around.history.drop c.queue.revision := rfl
        show Flight l.around (c.queue.sent [u]) .waitingAck (l.mail ++ d.submissions.drop l.channel.submissions.length)
        rw [hsubmissions, List.drop_append_of_le_length hgrows, hmail, hdrop]
        exact .sent rfl rfl (Nat.le_refl _) hspan rfl hlater hheads }

/-- What was queued goes in flight, or has cancelled out. -/
theorem flush_leads (hc : l.Carries c) (ho : c.Orderly) : l.Leads c c.flush := by
  unfold flush
  dsimp only
  split
  next may =>
    have may : c.maySend = true := may
    obtain ⟨hphase, -, hnone, -⟩ := maySend_iff.1 may
    split
    next fault q hq =>
      exact fail_leads (c := c) (m := { c with sendScheduled := false, queue := q }) rfl fault
    next batch q hq =>
      obtain ⟨hcompacted, rfl⟩ := Queue.send_eq_ok hq
      have hsingle := ((ho.stamped (by simp [hphase])).compacted hcompacted).2
      split
      next hempty =>
        obtain rfl := List.isEmpty_iff.1 hempty
        have hsent : l.Carries { c with sendScheduled := false, queue := c.queue.sent [] } :=
          { hc.requeue (q := c.queue.sent []) rfl hnone.symm with }
        exact quiet_leads (m := { c with sendScheduled := false, queue := c.queue.sent [] }) rfl hsent
          (emitSaveState_quiet _)
      next hsome =>
        obtain ⟨u, rfl⟩ : ∃ u, batch = [u] := by
          have hpos := List.length_pos_iff.2 (mt List.isEmpty_iff.2 hsome)
          exact List.length_eq_one_iff.1 (by omega)
        let d : Channel := submitBatch { c with sendScheduled := false, queue := c.queue.sent [u] }
        exact quiet_leads (m := { d with phase := .waitingAck }) rfl (hc.sent hphase u) (enter_quiet d .waitingAck)
  next => exact quiet_leads rfl hc (quiet_of_eq rfl)

/-- What is in flight is acknowledged at a head that the server told of. -/
theorem acknowledgeAll_leads {u : Composite} (hc : l.Carries c) (hphase : c.phase = .waitingAck)
    (hu : c.queue.unacked = [u]) (hhead : c.queue.revision + 1 ∈ l.around.heads) :
    l.Leads c (c.acknowledgeAll (c.queue.revision + 1)).settle := by
  have hserved (ht : l.Timely (c.queue.revision + 1)) :
      l.around.history[c.queue.revision]? = some u ∧ u.IsFrom l.channel.session := by
    have hflight := hc.flight (ht.of_le (Nat.le_succ _))
    rw [hphase] at hflight
    obtain ⟨v, hv, hat, own⟩ := hflight.of_head hhead (Nat.lt_succ_self _) (Nat.le_refl _)
    obtain rfl : u = v := List.singleton_inj.1 (hu.symm.trans hv)
    exact ⟨hat, own⟩
  have hsame : c.acknowledgeAll (c.queue.revision + 1) = { c with
      knownHead := max c.knownHead (c.queue.revision + 1)
      queue := acknowledged c.queue (c.queue.expectedAcks + 1)
      events := c.events ++ [.ack (u.withRevision (c.queue.revision + 1))
        (isClean { c with queue := acknowledged c.queue (c.queue.expectedAcks + 1) })] } := by
    simp only [acknowledgeAll, hu]
    rfl
  rw [hsame]
  exact settled_leads hc hu hserved _ _ _

/-- The reply to the submission of what is in flight acknowledges it, if nothing came in between. -/
theorem submitAcked_leads {version head : Nat} (hc : l.Carries c) (ho : c.Orderly)
    (hreply : (version, head) ∈ l.replies) : l.Leads c (c.submitAcked version head) := by
  rcases c.submitAcked_cases version head with hsame | ⟨rfl, hphase, hknown | ⟨hsome, rfl, hacked⟩⟩
  · rw [hsame]
    exact hc.refl
  · rw [hknown]
    exact leads_of_eq rfl fun _ => { hc with }
  · have hheads : c.queue.revision + c.queue.unacked.length ∈ l.around.heads :=
      List.mem_filterMap.2 ⟨_, hreply, if_pos hc.version⟩
    have horderly := (acknowledgeAll_step hphase c.retryVersion).orderly ho
    obtain ⟨u, hu⟩ : ∃ u, c.queue.unacked = [u] := by
      have hpos := List.length_pos_iff.2 hsome
      have hsingle := ho.single (by simp [hphase])
      exact List.length_eq_one_iff.1 (by omega)
    rw [hacked]
    rw [hu, List.length_singleton] at hheads horderly ⊢
    refine (acknowledgeAll_leads hc hphase hu hheads).trans (fun hclosed => ?_) fun hm => drain_leads hm horderly
    exact (drain_draining _).eq_of_closed hclosed

/-- A call that may be made keeps the channel following the server up to what is late. -/
theorem call_leads {x : Call} (hc : l.Carries c) (ho : c.Orderly) (hx : l.Due (.call x)) :
    l.Leads c (c.perform x).2 := by
  obtain ⟨hdelayed, hwaiting⟩ : c.phase ≠ .delayResync ∧ c.phase ≠ .waitingSync := by
    rcases hc.steady with h | h <;> simp [h]
  have same {d : Channel} (h : d = c) : l.Leads c d := h ▸ hc.refl
  cases x with
  | connect revision =>
    refine settled_lift hc.refl fun c' h => ?_
    exact absurd (connect_phase h) (isConnected_iff.1 hc.steady.isConnected)
  | disconnect => exact disconnect_leads hc
  | submit op => exact settled_lift hc.refl fun _ => submit_leads hc
  | beginCompound => exact quiet_leads rfl hc (quiet_of_eq rfl)
  | endCompound => exact settled_lift hc.refl fun _ => endCompound_leads hc
  | flush => exact flush_leads hc ho
  | submitAcked version head => exact submitAcked_leads hc ho hx
  | submitFailed version fault => exact absurd hx id
  | delta message => exact delta_leads hc ho hx
  -- nothing failed, so there is nothing to catch up with
  | resyncTimer version => exact same (if_neg (by simp [hdelayed]))
  | revisionReply version message => exact same (if_neg (by simp [hwaiting]))
  | revisionFailed version fault => exact same (if_neg (by simp [hwaiting]))
  | receive => exact leads_of_eq rfl fun _ => hc.requeue rfl rfl

end Link
end Coedit
