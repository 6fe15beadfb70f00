import Coedit.Proofs.Channel.Counting

/-!
# Every revision is accounted for

Whatever messages and replies a connected channel is given, what it tells the document is a gapless account of the
server's history: each revision since the connection is told once, as a remote operation or as the acknowledgement
of a local one, and in order.  What is delivered carries the revisions of the remote operations told, in order too.

Three calls move the revision (`Coedit.Proofs.Queue.Revisions`), and each event that accounts for a revision is
listed along with one of them.  No use is made of what the server sends being a history.

* `Channel.Advances` — from one state to another of the same connection;
* `Channel.perform_advances` — one call;
* `Channel.run_accounts` — a connection.
-/

namespace Coedit

/-- The revision that an event accounts for. An acknowledged operation should carry one. -/
def Event.accounts? : Event → Option (Option Nat)
  | .remoteOp revision => some (some revision)
  | .ack op _ => some op.revision
  | _ => none

/-- The revision of the operation that an event puts up for delivery. -/
def Event.announces? : Event → Option Nat
  | .remoteOp revision => some revision
  | _ => none

/-- The operation that a reply hands out. -/
def Reply.delivered? : Reply → Option Composite
  | .received op => op
  | _ => none

namespace Channel

variable {c c' c'' : Channel} {out out' : List Composite} {q : Queue Composite} {es : List Event} {op : Composite}
  {revision : Nat} {calls : List Call}

/-- The revisions after `first` up to `last`, in order. -/
def span (first last : Nat) : List (Option Nat) := (List.range' (first + 1) (last - first)).map some

theorem span_self (r : Nat) : span r r = [] := by
  rw [span, Nat.sub_self]
  rfl

theorem span_succ (r : Nat) : span r (r + 1) = [some (r + 1)] := by
  rw [span, Nat.add_sub_cancel_left]
  rfl

theorem span_append {r s t : Nat} (hrs : r ≤ s) (hst : s ≤ t) : span r s ++ span s t = span r t := by
  obtain ⟨m, rfl⟩ := Nat.exists_eq_add_of_le hrs
  obtain ⟨n, rfl⟩ := Nat.exists_eq_add_of_le hst
  simp only [span, ← List.map_append]
  congr 1
  rw [show r + m - r = m by omega, show r + m + n - (r + m) = n by omega, show r + m + n - r = m + n by omega,
    show r + m + 1 = r + 1 + m by omega, List.range'_append_1]

/-- Every delta at hand carries the revision that it is kept under. -/
def Dated (c : Channel) : Prop := ∀ e ∈ c.buffered.entries, e.2.revision = some e.1

/-- From one state to another of the same connection, while the operations of `out` were delivered: the events listed
account for every revision in between, and what they put up for delivery was delivered or waits. -/
structure Advances (out : List Composite) (c c' : Channel) : Prop where
  grows : c.revision ≤ c'.revision
  listed : ∃ es, c'.events = c.events ++ es ∧ es.filterMap Event.accounts? = span c.revision c'.revision ∧
    c.queue.undelivered ++ (es.filterMap Event.announces?).map some = out.map (·.revision) ++ c'.queue.undelivered
  dated : c.Dated → c'.Dated

theorem Advances.append (h : Advances out c c') (h' : Advances out' c' c'') : Advances (out ++ out') c c'' where
  grows := Nat.le_trans h.grows h'.grows
  listed := by
    obtain ⟨es, he, ha, hd⟩ := h.listed
    obtain ⟨es', he', ha', hd'⟩ := h'.listed
    refine ⟨es ++ es', by rw [he', he, List.append_assoc], ?_, ?_⟩
    · rw [List.filterMap_append, ha, ha', span_append h.grows h'.grows]
    · -- what waited in between is delivered by the second stretch, or still waits
      rw [List.filterMap_append, List.map_append, ← List.append_assoc, hd, List.append_assoc, hd', List.map_append,
        List.append_assoc]
  dated hc := h'.dated (h.dated hc)

theorem Advances.trans (h : Advances [] c c') (h' : Advances out c' c'') : Advances out c c'' := h.append h'

/-! ## Steps that account for nothing -/

theorem announces?_of_accounts? (h : es.filterMap Event.accounts? = []) : es.filterMap Event.announces? = [] := by
  rw [List.filterMap_eq_nil_iff] at h ⊢
  intro e he
  cases e with
  | remoteOp revision => cases h _ he
  | _ => rfl

/-- The events listed tell of no revision. -/
theorem advances_of_still (es : List Event) (hq : c.queue.Still c'.queue) (he : c'.events = c.events ++ es)
    (hes : es.filterMap Event.accounts? = []) (hd : c.Dated → c'.Dated) : Advances [] c c' where
  grows := Nat.le_of_eq hq.revision.symm
  listed := by
    refine ⟨es, he, ?_, ?_⟩
    · rw [hes, revision, revision, hq.revision, span_self]
    · rw [announces?_of_accounts? hes, hq.undelivered]
      exact List.append_nil _
  dated := hd

/-- Nothing but the deltas at hand changed. -/
theorem advances_of_dated (hq : c'.queue = c.queue) (he : c'.events = c.events) (hd : c.Dated → c'.Dated) :
    Advances [] c c' :=
  advances_of_still [] (hq ▸ .refl _) (by rw [he, List.append_nil]) rfl hd

/-- Neither the queue, the events nor the deltas at hand changed. -/
theorem advances_of_eq (hq : c'.queue = c.queue) (he : c'.events = c.events) (hb : c'.buffered = c.buffered) :
    Advances [] c c' :=
  advances_of_dated hq he fun hc => by
    unfold Dated
    rw [hb]
    exact hc

theorem Advances.refl (c : Channel) : Advances [] c c := advances_of_eq rfl rfl rfl

theorem queue_advances (h : c.queue.Still q) : Advances [] c { c with queue := q } :=
  advances_of_still [] h (List.append_nil _).symm rfl id

theorem event_advances (c : Channel) {e : Event} (h : e.accounts? = none) : Advances [] c (c.event e) :=
  advances_of_still [e] (.refl _) rfl (by rw [List.filterMap_cons, h]; rfl) id

theorem enter_advances (c : Channel) (phase : Phase) : Advances [] c (c.enter phase) := by
  unfold enter
  split
  next => exact .refl c
  next =>
    have hset : Advances [] c { c with phase } := advances_of_eq rfl rfl rfl
    dsimp only
    split
    next => exact hset.trans (event_advances _ rfl)
    next => exact hset

theorem scheduleSend_advances (c : Channel) : Advances [] c c.scheduleSend := by
  unfold scheduleSend
  split <;> exact advances_of_eq rfl rfl rfl

theorem settle_advances (c : Channel) : Advances [] c c.settle := by
  have hreset : Advances [] c { c with retryAttempt := 0 } := advances_of_eq rfl rfl rfl
  exact (hreset.trans (enter_advances _ _)).trans (scheduleSend_advances _)

theorem disconnect_advances (c : Channel) : Advances [] c c.disconnect := by
  unfold disconnect
  split
  next => exact advances_of_dated rfl rfl fun _ _ he => absurd he List.not_mem_nil
  next => exact .refl c

theorem fail_advances (c : Channel) (fault : Fault) : Advances [] c (c.fail fault) :=
  (event_advances c rfl).trans (disconnect_advances _)

theorem handleFailure_advances (c : Channel) (fault : Fault) : Advances [] c (c.handleFailure fault) := by
  unfold handleFailure
  split
  next => exact fail_advances c fault
  next =>
    have hcounted : Advances [] c
        { c with
          retryAttempt := min (c.retryAttempt + 1) attemptLimit
          retryVersion := c.retryVersion + 1 } := advances_of_eq rfl rfl rfl
    have htold := hcounted.trans (event_advances _ (e := .error fault false) rfl)
    refine (htold.trans (enter_advances _ .delayResync)).trans ?_
    exact advances_of_eq rfl rfl rfl

/-! ## Deltas -/

/-- A delta is kept under the revision it carries. -/
theorem keep_advances {e : Nat × Composite} (he : e.2.revision = some e.1) (c : Channel) :
    Advances [] c (c.keep e) := by
  refine advances_of_dated rfl rfl fun hc x hx => ?_
  have hx : x ∈ (if c.buffered.contains e.1 then c.buffered else c.buffered.insert e.1 e.2).entries := hx
  split at hx
  next => exact hc x hx
  next =>
    rcases Table.mem_insertEntry hx with rfl | hx
    · exact he
    · exact hc x hx

theorem buffer_advances (c : Channel) (m : DeltaMessage) : Advances [] c (c.buffer m) :=
  buffer_lift (R := Advances []) .refl .trans c m fun e he => keep_advances (m.revisions_dated e he)

/-- The queue accounts for one more revision, and an event tells of it. -/
theorem advances_of_ack {u : Composite} {done : Bool} (h : c.queue.ackFirst revision = (.ok done, q)) (clean : Bool) :
    Advances [] c ({ c with queue := q }.event (.ack (u.withRevision revision) clean)) := by
  obtain ⟨hr, hq, hu⟩ := Queue.ackFirst_revision h
  refine ⟨?_, ⟨_, rfl, ?_, ?_⟩, id⟩
  · show c.queue.revision ≤ q.revision
    omega
  · show [some revision] = span c.queue.revision q.revision
    rw [hq, hr, span_succ]
  · exact (List.append_nil _).trans hu.symm

section lengths
variable [Lengths]

theorem advances_of_receive (h : c.queue.receive revision op = (.ok (), q)) (hop : op.revision = some revision) :
    Advances [] c ({ c with queue := q }.event (.remoteOp revision)) := by
  obtain ⟨hr, hq, hu⟩ := Queue.receive_revision h
  refine ⟨?_, ⟨_, rfl, ?_, ?_⟩, id⟩
  · show c.queue.revision ≤ q.revision
    omega
  · show [some revision] = span c.queue.revision q.revision
    rw [hq, hr, span_succ]
  · show c.queue.undelivered ++ [some revision] = q.undelivered
    rw [hu, hop]

/-- A delta is an echo, which was or is now accounted for, or it is put up for delivery, or it ends the connection. -/
theorem Taken.advances (h : c.Taken revision op c') (hop : op.revision = some revision) : Advances [] c c' := by
  cases h with
  | refused fault => exact fail_advances c fault
  | conflict result => exact (queue_advances (Queue.receive_still result)).trans (fail_advances _ _)
  | echo result =>
    have hecho := c.queue.takeEcho_still revision
    rw [result] at hecho
    exact queue_advances hecho
  | acked _ _ result => exact advances_of_ack result _
  | settled _ _ result _ => exact (advances_of_ack result _).trans (settle_advances _)
  | received _ result => exact advances_of_receive result hop

omit [Lengths] in
theorem erase_advances (c : Channel) (revision : Nat) :
    Advances [] c { c with buffered := c.buffered.erase revision } :=
  advances_of_dated rfl rfl fun hc e he => hc e (List.mem_of_mem_filter he)

theorem drain_advances (hc : c.Dated) : Advances [] c c.drain :=
  drain_lift (R := Advances []) .refl .trans erase_advances fun e he _ _ h => h.advances (hc e he)

omit [Lengths] in
theorem checkSynced_advances (c : Channel) : Advances [] c c.checkSynced := by
  unfold checkSynced
  split
  next => exact .refl c
  next =>
    split
    next => exact settle_advances c
    next =>
      have hsubmitted : Advances [] c c.submitBatch := advances_of_eq rfl rfl rfl
      exact hsubmitted.trans (enter_advances _ _)

/-- A message is kept, and taken in as far as there is no gap. -/
theorem catchUp_advances (hc : c.Dated) (m : DeltaMessage) : Advances [] c (c.buffer m).drain.checkSynced := by
  have hkept := buffer_advances c m
  exact (hkept.trans (drain_advances (hkept.dated hc))).trans (checkSynced_advances _)

/-! ## Calls -/

theorem submit_advances (h : c.submit op = .ok c') : Advances [] c c' := by
  obtain ⟨result, q, hq, hc'⟩ := submit_eq_ok h
  have hrec := c.queue.record_still (op.withOrigin c.user c.session)
  rw [hq] at hrec
  rcases hc' with rfl | ⟨fault, rfl⟩
  · exact (queue_advances hrec).trans (scheduleSend_advances _)
  · exact (queue_advances hrec).trans (fail_advances _ _)

omit [Lengths] in
theorem endCompound_advances (h : c.endCompound = .ok c') : Advances [] c c' := by
  have hclosed : Advances [] c { c with compoundDepth := c.compoundDepth - 1 } := advances_of_eq rfl rfl rfl
  rcases endCompound_eq_ok h with rfl | rfl
  · exact hclosed
  · exact hclosed.trans (scheduleSend_advances _)

theorem flush_advances (c : Channel) : Advances [] c c.flush := by
  have hoff : Advances [] c { c with sendScheduled := false } := advances_of_eq rfl rfl rfl
  have hsend := c.queue.send_still
  unfold flush
  dsimp only
  split
  next =>
    split
    next e q hq =>
      rw [hq] at hsend
      exact (hoff.trans (queue_advances hsend)).trans (fail_advances _ _)
    next batch q hq =>
      rw [hq] at hsend
      have hsent := hoff.trans (queue_advances hsend)
      split
      next => exact hsent.trans (event_advances _ rfl)
      next =>
        refine (hsent.trans ?_).trans (enter_advances _ _)
        exact advances_of_eq rfl rfl rfl
  next => exact hoff

omit [Lengths] in
theorem ackEvents_accounts (clean : Bool) : ∀ (ops : List Composite) (first : Nat),
    (ackEvents clean first ops).filterMap Event.accounts? = (List.range' first ops.length).map some ∧
      (ackEvents clean first ops).filterMap Event.announces? = []
  | [], _ => ⟨rfl, rfl⟩
  | [_], _ => ⟨rfl, rfl⟩
  | op :: op' :: rest, first => by
    obtain ⟨ha, hn⟩ := ackEvents_accounts clean (op' :: rest) (first + 1)
    refine ⟨?_, hn⟩
    show some first :: (ackEvents clean (first + 1) (op' :: rest)).filterMap Event.accounts? = _
    rw [ha]
    rfl

/-- The acknowledgement of a batch accounts for as many revisions as it has operations. -/
theorem submitAcked_advances (hc : c.Dated) (version head : Nat) : Advances [] c (c.submitAcked version head) := by
  unfold submitAcked
  split
  next =>
    dsimp only
    split
    next => exact advances_of_eq rfl rfl rfl
    next acked q ha =>
      obtain ⟨hr, hu⟩ := Queue.ackAll?_revision ha
      have hacked : Advances [] c { c with
          knownHead := max c.knownHead head
          queue := q
          events := c.events ++ ackEvents q.isClean (c.queue.revision + 1) acked } := by
        obtain ⟨haccounts, hannounces⟩ := ackEvents_accounts q.isClean acked (c.queue.revision + 1)
        refine ⟨?_, ⟨_, rfl, ?_, ?_⟩, id⟩
        · show c.queue.revision ≤ q.revision
          omega
        · show _ = span c.queue.revision q.revision
          rw [haccounts, hr, span, Nat.add_sub_cancel_left]
        · rw [hannounces]
          exact (List.append_nil _).trans hu.symm
      -- the echoes of the batch are at hand or still to come, and account for nothing more
      have hsettled := hacked.trans (settle_advances _)
      exact hsettled.trans (drain_advances (hsettled.dated hc))
  next => exact .refl c

omit [Lengths] in
theorem resyncTimer_advances (c : Channel) (version : Nat) : Advances [] c (c.resyncTimer version) := by
  unfold resyncTimer
  split
  next =>
    refine (enter_advances c .waitingSync).trans ?_
    exact advances_of_eq rfl rfl rfl
  next => exact .refl c

theorem revisionReply_advances (hc : c.Dated) (version : Nat) (m : DeltaMessage) :
    Advances [] c (c.revisionReply version m) := by
  unfold revisionReply
  split
  next =>
    have hknown : Advances [] c { c with knownHead := max c.knownHead m.revision } := advances_of_eq rfl rfl rfl
    exact hknown.trans (catchUp_advances (hknown.dated hc) m)
  next => exact .refl c

omit [Lengths] in
/-- What is delivered waited longest. -/
theorem receive_advances (c : Channel) : Advances c.receive.1.toList c c.receive.2 where
  grows := Nat.le_refl _
  listed := by
    refine ⟨[], (List.append_nil _).symm, (span_self _).symm, ?_⟩
    rw [List.filterMap_nil, List.map_nil, List.append_nil]
    exact c.queue.pop_undelivered
  dated hc := hc

omit [Lengths] in
theorem settled_advances {r : Except ChannelFault Channel} (h : ∀ c', r = .ok c' → Advances [] c c') :
    Advances (c.settled r).1.delivered?.toList c (c.settled r).2 := by
  cases r with
  | error e => exact .refl c
  | ok c' => exact h c' rfl

/-- A call stays within the connection or ends it, unless it makes a new one. -/
theorem perform_advances (hc : c.Dated) {x : Call} (hx : ∀ revision, x = .connect revision → c.isConnected = true) :
    Advances (c.perform x).1.delivered?.toList c (c.perform x).2 := by
  cases x with
  | connect revision =>
    refine settled_advances fun c' h => ?_
    rw [Channel.connect, if_pos (hx revision rfl)] at h
    cases h
  | disconnect => exact disconnect_advances c
  | submit op => exact settled_advances fun _ => submit_advances
  | beginCompound => exact advances_of_eq rfl rfl rfl
  | endCompound => exact settled_advances fun _ => endCompound_advances
  | flush => exact flush_advances c
  | submitAcked version head => exact submitAcked_advances hc version head
  | submitFailed version fault =>
    show Advances [] c (c.submitFailed version fault)
    unfold submitFailed
    split
    next => exact handleFailure_advances c fault
    next => exact .refl c
  | delta m =>
    show Advances [] c (c.delta m)
    unfold Channel.delta
    split
    next => exact catchUp_advances hc m
    next => exact .refl c
  | resyncTimer version => exact resyncTimer_advances c version
  | revisionReply version m => exact revisionReply_advances hc version m
  | revisionFailed version fault =>
    show Advances [] c (c.revisionFailed version fault)
    unfold revisionFailed
    split
    next => exact handleFailure_advances c fault
    next => exact .refl c
  | receive => exact receive_advances c

omit [Lengths] in
theorem connect_dated (hc : c.Dated) (h : c.connect revision = .ok c') : c'.Dated := by
  obtain rfl := connect_eq_ok h
  unfold Dated
  rw [enter_buffered]
  exact hc

omit [Lengths] in
theorem connect_queue (h : c.connect revision = .ok c') : c'.queue = .new revision := by
  obtain rfl := connect_eq_ok h
  rw [enter_queue]
  rfl

theorem perform_dated (hc : c.Dated) (x : Call) : (c.perform x).2.Dated := by
  cases x with
  | connect revision =>
    -- a new connection opens a new account, but keeps the deltas at hand
    show (c.settled (c.connect revision)).2.Dated
    cases h : c.connect revision with
    | error e => exact hc
    | ok c' => exact connect_dated hc h
  | _ =>
    refine (perform_advances hc ?_).dated hc
    exact nofun

theorem run_dated : ∀ (calls : List Call) {c : Channel}, c.Dated → (c.run calls).Dated
  | [], _, hc => hc
  | x :: calls, _, hc => run_dated calls (perform_dated hc x)

omit [Lengths] in
theorem new_dated (document : DocumentId) (user : UserId) (session : SessionId) (config : Config) :
    (new document user session config).Dated := fun _ he => absurd he List.not_mem_nil

/-! ## Connections -/

/-- The channel is connected at every call of a list. The last of them may disconnect it. -/
def StaysConnected [R : Revisions] (c : Channel) : List Call → Prop
  | [] => True
  | x :: calls => c.isConnected = true ∧ (c.perform x).2.StaysConnected calls

instance decidableStaysConnected [R : Revisions] : ∀ (calls : List Call) (c : Channel), Decidable (c.StaysConnected calls)
  | [], _ => .isTrue trivial
  | x :: calls, c =>
    have := decidableStaysConnected calls (c.perform x).2
    inferInstanceAs (Decidable (c.isConnected = true ∧ (c.perform x).2.StaysConnected calls))

/-- The operations delivered during a list of calls, the oldest first. -/
def delivered [R : Revisions] (c : Channel) : List Call → List Composite
  | [] => []
  | x :: calls => (c.perform x).1.delivered?.toList ++ (c.perform x).2.delivered calls

/-- The events listed during a list of calls. -/
def emitted [R : Revisions] (c : Channel) (calls : List Call) : List Event := (c.run calls).events.drop c.events.length

theorem run_advances : ∀ (calls : List Call) {c : Channel}, c.Dated → c.StaysConnected calls →
    Advances (c.delivered calls) c (c.run calls)
  | [], c, _, _ => .refl c
  | x :: calls, _, hc, ⟨hconn, hcalls⟩ =>
    have hx := perform_advances hc (x := x) fun _ _ => hconn
    hx.append (run_advances calls (hx.dated hc) hcalls)

/-- The account of a connection, as long as revisions are counted exactly. -/
theorem connection_accounts {before : List Call} {document : DocumentId} {user : UserId} {session : SessionId}
    {config : Config} {first : Nat} (hc : ((new document user session config).run before).connect first = .ok c)
    (hcalls : c.StaysConnected calls) :
    first ≤ (c.run calls).revision ∧
      (c.emitted calls).filterMap Event.accounts? =
        (List.range' (first + 1) ((c.run calls).revision - first)).map some ∧
      (c.delivered calls).map (·.revision) ++ (c.run calls).queue.serverOps.map (·.revision) =
        ((c.emitted calls).filterMap Event.announces?).map some := by
  have hdated := connect_dated (run_dated before (new_dated document user session config)) hc
  have hq := connect_queue hc
  obtain ⟨hgrows, ⟨es, he, haccounts, hannounces⟩, _⟩ := run_advances calls hdated hcalls
  have hemitted : c.emitted calls = es := by rw [emitted, he, List.drop_left]
  rw [revision, hq] at hgrows haccounts
  rw [hq] at hannounces
  rw [hemitted]
  exact ⟨hgrows, haccounts, hannounces.symm⟩

section counts
variable [R : Revisions] {n : Nat} (hR : R.arithmetic.Fits (n + 1))
include hR

theorem staysConnected_counted : ∀ (calls : List Call) {c : Channel}, c.Orderly → c.knownHead ≤ n →
    (∀ x ∈ calls, x.Within n) → (c.StaysConnected (R := R) calls ↔ c.StaysConnected (R := .exact) calls)
  | [], _, _, _, _ => Iff.rfl
  | x :: calls, c, hc, hn, hcalls => by
    have ⟨hx, hcalls⟩ := List.forall_mem_cons.1 hcalls
    have hrest := staysConnected_counted calls (perform_orderly hc x) (perform_knownHead_le hn hx) hcalls
    rw [StaysConnected, perform_counted hR hc hn hx]
    exact and_congr_right' hrest

theorem delivered_counted : ∀ (calls : List Call) {c : Channel}, c.Orderly → c.knownHead ≤ n →
    (∀ x ∈ calls, x.Within n) → c.delivered (R := R) calls = c.delivered (R := .exact) calls
  | [], _, _, _, _ => rfl
  | x :: calls, c, hc, hn, hcalls => by
    have ⟨hx, hcalls⟩ := List.forall_mem_cons.1 hcalls
    have hrest := delivered_counted calls (perform_orderly hc x) (perform_knownHead_le hn hx) hcalls
    rw [delivered, perform_counted hR hc hn hx, hrest]
    rfl

theorem emitted_counted (hc : c.Orderly) (hn : c.knownHead ≤ n) (hcalls : ∀ x ∈ calls, x.Within n) :
    c.emitted (R := R) calls = c.emitted (R := .exact) calls := by
  rw [emitted, run_counted hR calls hc hn hcalls]
  rfl

end counts

end lengths

/-- An edit of a text of so many characters. -/
def typed (size index : Nat) (character : Char) : Composite :=
  .ofComponents [⟨⟨"body"⟩, .text (.insertAt size index [character])⟩]

/-- What the server tells of one edit. -/
def told (session : String) (revision : Nat) (op : Composite) : DeltaMessage :=
  ⟨⟨session⟩, ⟨session⟩, revision, [op]⟩

/-- A batch is acknowledged at once while a later delta waits for its echo; everything is told twice, and another
batch is acknowledged by its echo, after an edit of another session. -/
def interleaved : List Call :=
  [.submit (typed 0 0 'a'), .flush, .delta (told "them" 7 (typed 1 1 'b')), .submitAcked 0 6,
    .delta (told "me" 6 (typed 0 0 'a')), .delta (told "me" 6 (typed 0 0 'a')), .delta (told "them" 7 (typed 1 1 'b')),
    .submit (typed 1 0 'c'), .flush, .receive, .delta (told "them" 8 (typed 2 2 'd')),
    .delta (told "me" 9 (typed 3 0 'c')), .delta (told "them" 12 (typed 9 0 'e'))]

/-- A connection that is closed with a delta still at hand. -/
def abandoned : List Call := [.connect 2, .delta (told "them" 4 (typed 0 0 'x')), .disconnect]

section words
attribute [local instance] Lengths.word Revisions.word

def lastRevision : Nat := UInt64.size - 1

/-- An edit that was made after the last revision is acknowledged. -/
def beyond : List Call := [.submit (typed 0 0 'a'), .flush, .submitAcked 0 0]

end words

end Channel
end Coedit
