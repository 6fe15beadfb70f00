import Coedit.Proofs.Network.Following

/-!
# Acknowledgements after a reconnect

Whatever happens to a channel and its server, what is acknowledged is what was applied, as long as nothing has come up
that was submitted late.  What was submitted late is taken for the operation in flight all the same.

* `Link.Sound`, `Link.perform_sound` — what holds whatever happens;
* `Link.reachable_acknowledges` — acknowledgements before anything that was submitted late;
* `Link.not_acknowledges_late` — an acknowledgement of what was never applied.
-/

namespace Coedit
namespace Link

open Channel

variable {l : Link} {op : Composite} {q : Queue Composite}

/-! ## Moves -/

/-- The version may be that of a submission that was made: none was made yet under that of the next connection. -/
def Made (l : Link) (version : Nat) : Prop :=
  version ≤ l.channel.retryVersion ∧ (l.channel.isConnected = false → version < l.channel.retryVersion)

/-- What holds of a link whatever happens. -/
structure Sound (l : Link) : Prop where
  orderly : l.channel.Orderly
  late : ∀ n ∈ l.late, n ≤ l.server.head
  requests : ∀ p ∈ l.requests, l.Made p.1
  replies : ∀ p ∈ l.replies, l.Made p.1
  carries : l.channel.isConnected = true → l.Carries l.channel

theorem start_sound (document : DocumentId) (user : UserId) (session : SessionId) (config : Config) (server : Server) :
    (start document user session config server).Sound where
  orderly := new_orderly document user session config
  late _ hn := absurd hn List.not_mem_nil
  requests _ hp := absurd hp List.not_mem_nil
  replies _ hp := absurd hp List.not_mem_nil
  carries := nofun

/-! ### Calls -/

theorem Made.call {version : Nat} (h : l.Made version) (hc : l.channel.Orderly) (x : Call) :
    (l.perform (.call x)).Made version := by
  obtain ⟨hgrows, hends⟩ := perform_expires hc x
  refine ⟨Nat.le_trans h.1 hgrows, fun hclosed => ?_⟩
  cases hopen : l.channel.isConnected with
  | false => exact Nat.lt_of_lt_of_le (h.2 hopen) hgrows
  | true =>
    refine Nat.lt_of_le_of_lt h.1 (hends (isConnected_iff.1 hopen) ?_)
    by_contra hphase
    exact absurd ((isConnected_iff.2 hphase).symm.trans hclosed) nofun

/-- What a call submits is stamped with the version of the connection. -/
theorem made_of_requested (hc : l.channel.Orderly) (x : Call) :
    ∀ p ∈ l.channel.requested [x], (l.perform (.call x)).Made p.1 := by
  rintro ⟨version, request⟩ hp
  obtain ⟨-, hphase, rfl, -⟩ := of_mem_requested hc hp
  refine ⟨Nat.le_refl _, fun hclosed => ?_⟩
  have hopen : (l.channel.perform x).2.isConnected = true := isConnected_iff.2 (by simp [hphase])
  exact absurd (hopen.symm.trans hclosed) nofun

/-- The channel was just connected at the head. -/
theorem carries_of_connected (hphase : l.channel.phase = .allAcked) (hqueue : l.channel.queue = .new l.server.head)
    (hbuffered : ∀ r, l.channel.buffered.contains r = false) (hmail : l.mail = []) (hheads : l.heads = []) :
    l.Carries l.channel where
  session := rfl
  version := rfl
  steady := .inl hphase
  recorded r op hr := by
    have hnone := hbuffered r
    rw [Table.contains, hr] at hnone
    cases hnone
  submissions := Nat.le_refl _
  head _ := by
    rw [hqueue]
    exact Nat.le_refl _
  flight _ := by
    have hlater : l.around.history.drop l.server.head = [] := by
      rw [List.drop_eq_nil_iff, around, disown_length]
      exact Nat.le_refl _
    rw [List.drop_length, hmail, hphase, hqueue]
    refine .idle rfl ?_ ?_
    · show Foreign _ (l.around.history.drop l.server.head)
      rw [hlater]
      exact fun _ h => absurd h List.not_mem_nil
    · show ∀ n ∈ l.heads, _
      rw [hheads]
      exact fun _ h => absurd h List.not_mem_nil

/-- What a call has submitted is on its way afterwards. -/
theorem Carries.call {x : Call} (hc : l.channel.Orderly) (hopen : l.channel.isConnected = true)
    (h : l.Carries (l.channel.perform x).2) : (l.perform (.call x)).Carries (l.channel.perform x).2 := by
  have hlate : (l.perform (.call x)).late = l.late := if_pos hopen
  have hheads : (l.perform (.call x)).heads = l.heads := congrArg (under · l.replies) h.version
  have hmail : (l.perform (.call x)).mail =
      l.mail ++ (l.channel.perform x).2.submissions.drop l.channel.submissions.length := by
    have hrequested : ∀ p ∈ l.channel.requested [x], p.1 = l.channel.retryVersion := fun p hp =>
      (of_mem_requested hc hp).2.2.1.trans h.version
    have hsubmitted : (l.channel.requested [x]).map (·.2) =
        (l.channel.perform x).2.submissions.drop l.channel.submissions.length := by
      rw [requested, List.map_drop, requests_submissions, ← requests_submissions l.channel, List.length_map]
      rfl
    have hversion : (l.perform (.call x)).mail =
        under l.channel.retryVersion (l.requests ++ l.channel.requested [x]) :=
      congrArg (under · (l.requests ++ l.channel.requested [x])) h.version
    rw [hversion, under_append, under_of_eq hrequested, hsubmitted, mail]
  have hhistory : (l.perform (.call x)).around.history = l.around.history :=
    congrArg (disown · l.server.history) hlate
  have htimely {r : Nat} (ht : (l.perform (.call x)).Timely r) : l.Timely r := by
    rw [Timely, hlate] at ht
    exact ht
  exact
    { session := rfl
      version := rfl
      steady := h.steady
      recorded := h.recorded
      submissions := Nat.le_refl _
      head := fun ht => h.head (htimely ht)
      flight := fun ht => by
        have hdrop : (l.channel.perform x).2.submissions.drop (l.perform (.call x)).channel.submissions.length = [] :=
          List.drop_length
        rw [hmail, hdrop, List.append_nil]
        exact (h.flight (htimely ht)).of_setting h.session hhistory hheads }

/-- A new connection starts at the head, with nothing of its own on its way. -/
theorem connect_carries {revision : Nat} (hs : l.Sound) (hx : l.Due (.call (.connect revision)))
    (hclosed : l.channel.isConnected = false) :
    (l.perform (.call (.connect revision))).Carries (l.perform (.call (.connect revision))).channel := by
  obtain ⟨c', hc'⟩ : ∃ c', l.channel.connect revision = .ok c' := ⟨_, if_neg (by simp [hclosed])⟩
  have hchannel : (l.perform (.call (.connect revision))).channel = c' := by
    show (l.channel.settled (l.channel.connect revision)).2 = c'
    rw [hc']
    rfl
  have hphase : c'.phase = .allAcked := by rw [connect_eq_ok hc', enter_phase]
  have hversion : c'.retryVersion = l.channel.retryVersion := (connect_tells hc').1
  have hmade : ∀ {version : Nat}, l.Made version →
      version ≠ (l.perform (.call (.connect revision))).channel.retryVersion := by
    intro version h
    rw [hchannel, hversion]
    exact (h.2 hclosed).ne
  have hnone : l.channel.requested [.connect revision] = [] := List.eq_nil_iff_forall_not_mem.2 fun p hp => by
    have hwaiting : (l.perform (.call (.connect revision))).channel.phase = .waitingAck :=
      (of_mem_requested hs.orderly hp).2.1
    rw [hchannel, hphase] at hwaiting
    cases hwaiting
  refine carries_of_connected (by rw [hchannel, hphase]) ?_ (fun r => ?_) ?_ ?_
  · rw [hchannel, connect_queue hc', show revision = l.server.head from hx]
    rfl
  · rw [hchannel, connect_eq_ok hc', enter_buffered]
    exact hs.orderly.closed (connect_phase hc') r
  · show under _ (l.requests ++ l.channel.requested [.connect revision]) = []
    rw [hnone, List.append_nil]
    exact under_of_ne fun p hp => hmade (hs.requests p hp)
  · exact under_of_ne fun p hp => hmade (hs.replies p hp)

/-- What a call tells, and what becomes of the link. -/
theorem call_sound {x : Call} (hs : l.Sound) (hx : l.Due (.call x)) :
    (l.perform (.call x)).Sound ∧
      ∃ es, (l.channel.perform x).2.events = l.channel.events ++ es ∧ ∀ e ∈ es, l.Credits e := by
  obtain ⟨htold, hcarries⟩ : (∃ es, (l.channel.perform x).2.events = l.channel.events ++ es ∧ ∀ e ∈ es, l.Credits e) ∧
      ((l.channel.perform x).2.isConnected = true → (l.perform (.call x)).Carries (l.channel.perform x).2) := by
    cases hopen : l.channel.isConnected with
    | true =>
      obtain ⟨htold, hcarries⟩ := call_leads (hs.carries hopen) hs.orderly hx
      exact ⟨htold, fun h => (hcarries h).call hs.orderly hopen⟩
    | false =>
      have hphase : l.channel.phase = .uninitialized := by simpa [isConnected] using hopen
      by_cases hconnect : ∃ revision, x = .connect revision
      · obtain ⟨revision, rfl⟩ := hconnect
        refine ⟨?_, fun _ => connect_carries hs hx hopen⟩
        show ∃ es, (l.channel.settled (l.channel.connect revision)).2.events = l.channel.events ++ es ∧ _
        cases hc' : l.channel.connect revision with
        | error fault => exact ⟨[], (List.append_nil _).symm, fun _ he => absurd he List.not_mem_nil⟩
        | ok c' =>
          obtain ⟨-, es, hes, htold⟩ := connect_tells hc'
          exact ⟨es, hes, fun e he => credits_of_isSaveState (htold e he)⟩
      · obtain ⟨hstill, hevents⟩ := perform_of_closed hphase fun revision h => hconnect ⟨revision, h⟩
        refine ⟨⟨[], by rw [hevents, List.append_nil], fun _ he => absurd he List.not_mem_nil⟩, fun h => ?_⟩
        exact absurd hstill (isConnected_iff.1 h)
  refine ⟨?_, htold⟩
  exact
    { orderly := perform_orderly hs.orderly x
      late := fun n hn => by
        have hn : n ∈ if l.channel.isConnected then l.late else [] := hn
        split at hn
        next => exact hs.late n hn
        next => exact absurd hn List.not_mem_nil
      requests := List.forall_mem_append.2 ⟨fun p hp => (hs.requests p hp).call hs.orderly x,
        made_of_requested hs.orderly x⟩
      replies := fun p hp => (hs.replies p hp).call hs.orderly x
      carries := hcarries }

/-! ### The server -/

variable {l' : Link} {ops : List Composite}

/-- The history of the server grows, and with it what is submitted late. -/
theorem Carries.grow (hc : l.Carries l.channel) (hchannel : l'.channel = l.channel)
    (hhistory : l'.server.history = l.server.history ++ ops) (hlate : ∀ n ∈ l.late, n ∈ l'.late)
    (hflight : l.channel.queue.revision ≤ l.around.history.length →
      Flight l.around l.channel.queue l.channel.phase l.mail →
        Flight l'.around l.channel.queue l.channel.phase l'.mail) :
    l'.Carries l'.channel := by
  have htimely {r : Nat} (ht : l'.Timely r) : l.Timely r := fun n hn => ht n (hlate n hn)
  rw [hchannel]
  exact
    { session := congrArg Channel.session hchannel.symm
      version := congrArg Channel.retryVersion hchannel.symm
      steady := hc.steady
      recorded := fun r op hr => hhistory ▸ (hc.recorded r op hr).append ops
      submissions := by rw [hchannel]
      head := fun ht => by
        rw [Server.head, hhistory, List.length_append]
        exact Nat.le_add_right_of_le (hc.head (htimely ht))
      flight := fun ht => by
        have hbefore := hc.flight (htimely ht)
        rw [List.drop_length, List.append_nil] at hbefore
        rw [hchannel, List.drop_length, List.append_nil]
        refine hflight ?_ hbefore
        rw [around, disown_length]
        exact hc.head (htimely ht) }

/-- Operations of others change nothing about the one in flight. -/
theorem flight_extend {phase : Phase} {requests : List DeltaRequest} : ∀ (ops : List Composite) {w : Setting},
    Flight w q phase requests → q.revision ≤ w.history.length → Foreign w.session ops →
      Flight { w with history := w.history ++ ops } q phase requests
  | [], w, h, _, _ => by
    rw [List.append_nil]
    exact h
  | op :: ops, w, h, hr, hops => by
    have hnext : Flight (w.extend op) q phase requests := h.extend hr (hops op (List.mem_cons_self ..))
    have hlength : q.revision ≤ (w.extend op).history.length := by
      rw [Setting.extend, List.length_append]
      exact Nat.le_add_right_of_le hr
    have hall := flight_extend ops hnext hlength fun op' h' => hops op' (List.mem_cons_of_mem _ h')
    have happend : (w.extend op).history ++ ops = w.history ++ op :: ops := List.append_assoc ..
    rw [happend] at hall
    exact hall.of_setting rfl rfl rfl

/-- The server received one of the submissions. -/
theorem under_eraseIdx {α : Type} {ps : List (Nat × α)} {k : Nat} {p : Nat × α} (hk : ps[k]? = some p) (version : Nat) :
    ∃ before after, under version ps = before ++ (if p.1 = version then [p.2] else []) ++ after ∧
      under version (ps.eraseIdx k) = before ++ after := by
  obtain ⟨hlt, rfl⟩ := List.getElem?_eq_some_iff.1 hk
  refine ⟨under version (ps.take k), under version (ps.drop (k + 1)), ?_, ?_⟩
  · have hone : (if ps[k].1 = version then [ps[k].2] else []) = under version [ps[k]] := by
      rw [under, List.filterMap_cons, List.filterMap_nil]
      split <;> simp_all
    rw [hone, ← under_append, ← under_append, List.append_assoc, List.singleton_append, ← List.drop_eq_getElem_cons hlt,
      List.take_append_drop]
  · rw [List.eraseIdx_eq_take_drop_succ, under_append]

section serve

variable {k version : Nat} {request : DeltaRequest} {server : Server} {message : DeltaMessage}

/-- The server received a submission of an earlier connection, which is late. -/
theorem serve_late (hs : l.Sound) (hk : l.requests[k]? = some (version, request))
    (hsubmit : l.server.submit request = .ok (server, message)) (hversion : version ≠ l.channel.retryVersion)
    (hopen : l.channel.isConnected = true) :
    Carries { l with
      server
      requests := l.requests.eraseIdx k
      replies := l.replies ++ [(version, message.revision)]
      late := l.late ++ List.range' (l.server.head + 1) message.deltas.length } l.channel := by
  have hhistory := (Server.submit_eq_ok hsubmit).1
  refine (hs.carries hopen).grow rfl hhistory (fun n hn => List.mem_append_left _ hn) fun hr h => ?_
  obtain ⟨before, after, hmail, herased⟩ := under_eraseIdx hk l.channel.retryVersion
  rw [if_neg hversion, List.append_nil, ← herased] at hmail
  rw [mail, hmail] at h
  refine (flight_extend (message.deltas.map Composite.disown) h hr fun op hop => ?_).of_setting rfl ?_ ?_
  · obtain ⟨op, -, rfl⟩ := List.mem_map.1 hop
    exact op.disown_isFrom _
  · show disown (l.late ++ List.range' (l.server.head + 1) message.deltas.length) server.history = _
    rw [hhistory]
    exact disown_append_late ..
  · show under l.channel.retryVersion (l.replies ++ [(version, message.revision)]) = l.heads
    have hnew : under l.channel.retryVersion [(version, message.revision)] = [] :=
      under_of_ne (List.forall_mem_singleton.2 hversion)
    rw [under_append, hnew, List.append_nil, heads]

/-- The server received the submission of what is in flight. -/
theorem serve_present (hs : l.Sound) (hk : l.requests[k]? = some (l.channel.retryVersion, request))
    (hsubmit : l.server.submit request = .ok (server, message)) (hopen : l.channel.isConnected = true) :
    Carries { l with
      server
      requests := l.requests.eraseIdx k
      replies := l.replies ++ [(l.channel.retryVersion, message.revision)] } l.channel := by
  obtain ⟨hhistory, hrevision⟩ := Server.submit_eq_ok hsubmit
  refine (hs.carries hopen).grow rfl hhistory (fun n hn => hn) fun hr h => ?_
  obtain ⟨before, after, hmail, herased⟩ := under_eraseIdx hk l.channel.retryVersion
  rw [if_pos rfl] at hmail
  rw [mail, hmail] at h
  -- it is the only one of the present connection
  obtain rfl : before = [] := by
    cases before with
    | nil => rfl
    | cons first before => exact absurd h.of_request.2.1 (by simp)
  obtain ⟨hphase, rfl, made, u, between, hu, hdeltas, -, hspan, hpassed, hlater, hheads⟩ := h.of_request
  obtain ⟨echo, hecho, hpast⟩ := Server.submit_single hsubmit hdeltas
  have hpast : (passServers u (l.around.history.drop l.channel.queue.revision)).2 = .ok echo := by
    rw [← passServers_append _ hpassed, ← hspan]
    exact (passServers_disown ..).trans hpast
  have own : echo.origin.session = some l.channel.session := by
    have hstamped := (hs.orderly.stamped (isConnected_iff.1 hopen)).unacked u (hu ▸ List.mem_singleton_self u)
    rw [Composite.passServers_origin hpast, hstamped]
  have hserved := Flight.serve hu hr hpast own hlater hheads
  rw [hecho] at hhistory
  rw [hphase]
  show Flight _ _ _ (under l.channel.retryVersion (l.requests.eraseIdx k))
  rw [herased]
  refine hserved.of_setting rfl ?_ ?_
  · show disown l.late server.history = disown l.late l.server.history ++ [echo]
    rw [hhistory]
    exact disown_append hs.late _
  · show under l.channel.retryVersion (l.replies ++ [(l.channel.retryVersion, message.revision)]) =
      l.heads ++ [(disown l.late l.server.history).length + 1]
    have hnew : under l.channel.retryVersion [(l.channel.retryVersion, message.revision)] = [message.revision] :=
      under_of_eq (List.forall_mem_singleton.2 rfl)
    rw [under_append, hnew, hrevision, Server.head, hhistory, List.length_append, disown_length]
    rfl

end serve

theorem serve_sound (hs : l.Sound) (k : Nat) : (l.perform (.serve k)).Sound := by
  unfold perform
  dsimp only
  split
  next => exact hs
  next version request hk =>
    split
    next => exact hs
    next server message hsubmit =>
      obtain ⟨hhistory, hrevision⟩ := Server.submit_eq_ok hsubmit
      have hhead : server.head = l.server.head + message.deltas.length := by
        rw [Server.head, hhistory, List.length_append]
        rfl
      have hlate : ∀ n ∈ if version = l.channel.retryVersion then l.late
          else l.late ++ List.range' (l.server.head + 1) message.deltas.length, n ≤ server.head := by
        have hold : ∀ n ∈ l.late, n ≤ server.head := fun n hn => by
          have := hs.late n hn
          omega
        split
        next => exact hold
        next =>
          refine List.forall_mem_append.2 ⟨hold, fun n hn => ?_⟩
          have := (List.mem_range'_1.1 hn).2
          omega
      exact
        { orderly := hs.orderly
          late := hlate
          requests := fun p hp => hs.requests p (List.mem_of_mem_eraseIdx hp)
          replies := List.forall_mem_append.2 ⟨hs.replies,
            List.forall_mem_singleton.2 (hs.requests _ (List.mem_of_getElem? hk))⟩
          carries := fun hopen => by
            have hopen : l.channel.isConnected = true := hopen
            by_cases hversion : version = l.channel.retryVersion
            · subst hversion
              simp only [if_true]
              exact serve_present hs hk hsubmit hopen
            · simp only [if_neg hversion]
              exact serve_late hs hk hsubmit hversion hopen }

theorem apply_sound (hs : l.Sound) (foreign : ¬ op.IsFrom l.channel.session) : (l.perform (.apply op)).Sound := by
  unfold perform
  dsimp only
  split
  next => exact hs
  next document _ =>
    exact
      { hs with
        late := fun n hn => by
          show n ≤ (l.server.history ++ [op]).length
          rw [List.length_append]
          exact Nat.le_add_right_of_le (hs.late n hn)
        carries := fun hopen => by
          refine (hs.carries hopen).grow rfl rfl (fun n hn => hn) fun hr h => ?_
          refine (h.extend hr foreign).of_setting rfl ?_ rfl
          exact disown_append hs.late _ }

/-- Every move keeps the link sound. -/
theorem perform_sound (hs : l.Sound) {x : Move} (hx : l.Due x) : (l.perform x).Sound := by
  cases x with
  | call x => exact (call_sound hs hx).1
  | serve k => exact serve_sound hs k
  | apply op => exact apply_sound hs hx

theorem sound_of_reachable {first : Link} (hs : first.Sound) (h : Reachable first l) : l.Sound := by
  induction h with
  | start => exact hs
  | move _ hx ih => exact perform_sound ih hx

/-- **What is acknowledged was applied, up to what is late.** Whatever happened to a channel and its server before, the
channel connected and disconnected as often as may be: what it acknowledges at a revision is what the server applied
there, unless something that an earlier connection submitted was applied up to there since the channel was connected. -/
theorem reachable_acknowledges {document : DocumentId} {user : UserId} {session : SessionId} {config : Config}
    {server : Server} (h : Reachable (start document user session config server) l) {x : Call} (hx : l.Due (.call x))
    (hack : op ∈ l.channel.acked [x]) :
    ∃ k, op.revision = some (k + 1) ∧ ((∀ n ∈ l.late, k + 1 < n) →
      ∃ applied, l.server.history[k]? = some applied ∧ applied.components = op.components) := by
  have hsound := sound_of_reachable (start_sound document user session config server) h
  obtain ⟨-, es, hes, hcredits⟩ := call_sound hsound hx
  have hes : (l.channel.run [x]).events = l.channel.events ++ es := hes
  rw [acked, emitted, hes, List.drop_left] at hack
  obtain ⟨e, he, hop⟩ := List.mem_filterMap.1 hack
  cases e with
  | ack op' clean =>
    obtain rfl := Option.some.inj hop
    exact hcredits _ he
  | _ => cases hop

/-- A channel and a server that know of nothing. -/
def fresh : Link := start ⟨"doc"⟩ ⟨"me"⟩ ⟨"me"⟩ {} .empty

/-- An edit is submitted, the channel is disconnected and connected again, and another edit is submitted. -/
def resumed : Link :=
  ([.call (.connect 0), .call (.submit (typed 0 0 'a')), .call .flush, .call .disconnect, .call (.connect 0),
    .call (.submit (.ofComponents [⟨⟨"title"⟩, .text (.insertAt 0 0 ['b'])⟩])), .call .flush] : List Move).foldl
      perform fresh

theorem resumed_reachable : Reachable fresh resumed := by
  have hconnected : Reachable fresh (fresh.perform (.call (.connect 0))) := .move .start rfl
  have hsubmitted := (hconnected.move (x := .call (.submit (typed 0 0 'a'))) trivial).move (x := .call .flush) trivial
  have hclosed := hsubmitted.move (x := .call .disconnect) trivial
  have hreopened := hclosed.move (x := .call (.connect 0)) rfl
  exact (hreopened.move (x := .call (.submit _)) trivial).move (x := .call .flush) trivial

/-- The server received the second edit, and then the first one. -/
def reordered : Link := (resumed.perform (.serve 1)).perform (.serve 0)

/-- The reply to the second edit acknowledges it where it was applied. -/
theorem reachable_acknowledges_reordered :
    reordered.late = [2] ∧ ∃ op ∈ reordered.channel.acked [.submitAcked 1 1], op.revision = some 1 ∧
      ∃ applied, reordered.server.history[0]? = some applied ∧ applied.components = op.components := by
  have hreachable : Reachable fresh reordered :=
    (resumed_reachable.move (x := .serve 1) trivial).move (x := .serve 0) trivial
  have hlate : reordered.late = [2] := by decide +kernel
  have hreply : (1, 1) ∈ reordered.replies := by decide +kernel
  have hacked : (reordered.channel.acked [.submitAcked 1 1]).map (·.revision) = [some 1] := by decide +kernel
  obtain ⟨op, hops, hrevision⟩ := List.map_eq_singleton_iff.1 hacked
  have hop : op ∈ reordered.channel.acked [.submitAcked 1 1] := hops ▸ List.mem_singleton_self op
  obtain ⟨k, hk, happlied⟩ := reachable_acknowledges hreachable (x := .submitAcked 1 1) hreply hop
  obtain rfl : k = 0 := (Nat.succ.inj (Option.some.inj (hrevision.symm.trans hk))).symm
  exact ⟨hlate, op, hop, hrevision, happlied (by rw [hlate]; decide)⟩

/-- The server received the first edit only. -/
def overdue : Link := resumed.perform (.serve 0)

/-- What the server tells of the first edit. -/
def echoed : DeltaMessage := ⟨⟨"me"⟩, ⟨"me"⟩, 1, overdue.server.history⟩

/-- The echo of the first edit acknowledges the second one, which was never applied. -/
theorem not_acknowledges_late : ¬ ∀ {l : Link}, Reachable fresh l → ∀ {x : Call}, l.Due (.call x) →
    ∀ {op : Composite}, op ∈ l.channel.acked [x] → ∃ k, op.revision = some (k + 1) ∧
      ∃ applied, l.server.history[k]? = some applied ∧ applied.components = op.components := by
  intro h
  have hreachable : Reachable fresh overdue := resumed_reachable.move (x := .serve 0) trivial
  have hacked : (overdue.channel.acked [.delta echoed]).map (fun op => (op.revision, op.components.map (·.target))) =
      [(some 1, [⟨"title"⟩])] := by decide +kernel
  have happlied : overdue.server.history.map (fun op => (op.origin, op.components.map (·.target))) =
      [(⟨some ⟨"me"⟩, some ⟨"me"⟩⟩, [⟨"body"⟩])] := by decide +kernel
  obtain ⟨first, hhistory, hfirst⟩ := List.map_eq_singleton_iff.1 happlied
  obtain ⟨horigin, htarget⟩ := Prod.mk.inj hfirst
  have hdue : overdue.Due (.call (.delta echoed)) := by
    have hrevisions : echoed.revisions = [(1, first.withRevision 1)] := by
      rw [echoed, hhistory]
      show [(1, Composite.mk (first.origin.orElse ⟨some ⟨"me"⟩, some ⟨"me"⟩⟩) (some 1) first.components)] = _
      rw [Composite.withRevision, horigin]
      rfl
    show ∀ e ∈ echoed.revisions, _
    rw [hrevisions, hhistory]
    exact List.forall_mem_singleton.2 ⟨0, first, rfl, rfl, rfl⟩
  obtain ⟨op, hops, hop⟩ := List.map_eq_singleton_iff.1 hacked
  obtain ⟨hrevision, hother⟩ := Prod.mk.inj hop
  obtain ⟨k, hk, applied, hat, hsame⟩ := h hreachable hdue (hops ▸ List.mem_singleton_self op)
  obtain rfl : k = 0 := (Nat.succ.inj (Option.some.inj (hrevision.symm.trans hk))).symm
  rw [hhistory] at hat
  obtain rfl : first = applied := Option.some.inj hat
  rw [hsame, hother] at htarget
  exact absurd htarget (by decide)

end Link
end Coedit
