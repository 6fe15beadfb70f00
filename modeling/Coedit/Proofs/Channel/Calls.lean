import Coedit.Proofs.Channel.Steps

/-!
# Calls of a channel that follows the server

Local edits, compound edits, the send timer and the replies to submissions keep a channel following the server.  None
of these calls fails.

* `Channel.connect_follows` — a new channel is connected;
* `Channel.submit_catchesUp` — a local edit;
* `Channel.flush_catchesUp` — the send timer;
* `Channel.submitAcked_catchesUp` — a reply, the present one or an old one.
-/

namespace Coedit

namespace Channel

variable {σ : Schema} {w : Setting} {c c' : Channel} {q : Queue Composite} {op : Composite} {D x : Document}
  {phase : Phase} {requests : List DeltaRequest}

section follows
variable [L : Lengths]

/-- A call that leaves the floor and the deltas at hand as they are. -/
theorem catchesUp_of_eq (hf : c'.Follows σ w) (hd : c.Drained) (hfloor : c'.floor = c.floor)
    (hbuf : c'.buffered = c.buffered) : CatchesUp σ w c c' where
  follows := hf
  drained r hr := by
    rw [hfloor]
    exact hd r (hbuf ▸ hr)
  knows r hr := by
    unfold Knows
    rw [hfloor, hbuf]
    exact hr

theorem scheduleSend_catchesUp (hf : c.Follows σ w) (hd : c.Drained) : CatchesUp σ w c c.scheduleSend :=
  catchesUp_of_eq hf.scheduleSend hd (by rw [floor_eq, floor_eq, scheduleSend_queue]) (scheduleSend_buffered c)

theorem CatchesUp.trans {c'' : Channel} (h : CatchesUp σ w c c') (h' : CatchesUp σ w c' c'') : CatchesUp σ w c c'' :=
  ⟨h'.follows, h'.drained, fun r hr => h'.knows r (h.knows r hr)⟩

/-! ## Connecting -/

/-- A channel is connected over the empty document, of which the server has no history. -/
theorem connect_follows (document : DocumentId) (user : UserId) (session : SessionId) (config : Config) :
    ∃ c', (new document user session config).connect 0 = .ok c' ∧
      c'.Follows σ ⟨user, session, [], [], [], .empty, 0⟩ ∧ c'.Drained := by
  refine ⟨_, rfl, ⟨?_, ?_⟩, fun _ hr => absurd hr Bool.false_ne_true⟩
  · exact
      { user := rfl
        session := rfl
        echoes := Nat.le_refl 0
        head := Nat.le_refl 0
        buffered := fun _ _ hr => absurd hr.symm (Option.some_ne_none _)
        stamped := Queue.stamped_new _ 0
        balanced := ⟨.empty, Document.same_empty σ, Queue.balanced_new (Document.same_empty σ) (fun n hn =>
          Document.room_empty σ (hn.of_le (Nat.le_add_left ..))) 0⟩
        owed := Nat.le_refl 0
        faultless := fun _ he => absurd he List.not_mem_nil
        announced := rfl
        routine := fun x hx => by
          rw [List.mem_singleton.1 hx]
          rfl }
  · exact .idle rfl (fun _ hop => absurd hop List.not_mem_nil) (fun _ hn => absurd hn List.not_mem_nil)

/-! ## Local edits -/

/-- A local edit passes what is not yet delivered, and is queued. -/
theorem submit_catchesUp (h : c.Follows σ w) (hd : c.Drained) (hw : L.arithmetic.Fits (w.total + op.insertLength))
    (hm : (Composite.calculus σ).Maps op w.document x) :
    ∃ c', c.submit op = .ok c' ∧ CatchesUp σ { w with document := x, pending := w.pending + op.insertLength } c c' := by
  let w' : Setting := { w with document := x, pending := w.pending + op.insertLength }
  obtain ⟨y, hy, hb⟩ := h.balanced
  have hm : (Composite.calculus σ).Maps (op.withOrigin c.user c.session) w.document x := hm
  have hadded : w'.added c.queue.revision = w.added c.queue.revision + op.insertLength := (Nat.add_assoc ..).symm
  have hfits : L.arithmetic.Fits (w.added c.queue.revision + (op.withOrigin c.user c.session).insertLength) :=
    hw.of_le (Nat.add_le_add_right (w.added_le_total _) _)
  obtain ⟨ss, op', hp, hrec, hb', hcost⟩ := Queue.record_balanced hb hfits hm
  have hlen : ss.length = c.queue.serverOps.length := by
    rw [← passServers_length c.queue.serverOps (op.withOrigin c.user c.session), hp]
  have horigin : op'.origin = ⟨some w.user, some w.session⟩ := by
    rw [Composite.passServers_origin (congrArg Prod.snd hp), ← h.user, ← h.session]
    rfl
  let recorded : Queue Composite :=
    { c.queue with serverOps := ss, queued := c.queue.queued ++ [op'], fresh := true }
  have hset : Flight w' c.queue c.phase (w.mail ++ c.submissions) := h.flight.of_setting rfl rfl rfl
  have hflight : Flight w' recorded c.phase (w.mail ++ c.submissions) := hset.of_eq rfl rfl
  have hfollows : Follows σ w' { c with queue := recorded } :=
    { h with
      stamped := by
        refine ⟨h.stamped.unacked, fun o ho => ?_, nofun⟩
        rcases List.mem_append.1 ho with ho | ho
        · exact h.stamped.queued o ho
        · rw [List.mem_singleton.1 ho]
          exact horigin
      balanced := by
        refine ⟨y, hy, ?_⟩
        show (Composite.calculus σ).Balanced (w'.added c.queue.revision) recorded x y
        rw [hadded]
        exact hb'
      owed := by
        have hbefore := h.owed
        have hcost : op'.insertLength ≤ op.insertLength := hcost
        have hahead : w'.ahead c.queue.revision = w.ahead c.queue.revision := rfl
        show Composite.insertLengths (c.queue.unacked ++ (c.queue.queued ++ [op'])) ≤
          w.pending + op.insertLength + w'.ahead c.queue.revision
        simp only [Composite.insertLengths_append, Composite.insertLengths_cons, Composite.insertLengths_nil]
          at hbefore ⊢
        omega
      announced := h.announced.trans hlen.symm
      flight := hflight }
  refine ⟨Channel.scheduleSend { c with queue := recorded }, ?_, ?_⟩
  · rw [submit, if_neg (by simp [h.flight.isConnected]), hrec]
  · exact (catchesUp_of_eq hfollows hd rfl rfl).trans (scheduleSend_catchesUp hfollows hd)

theorem beginCompound_catchesUp (h : c.Follows σ w) (hd : c.Drained) : CatchesUp σ w c c.beginCompound :=
  catchesUp_of_eq { h with flight := h.flight } hd rfl rfl

theorem endCompound_catchesUp (h : c.Follows σ w) (hd : c.Drained) (he : c.endCompound = .ok c') :
    CatchesUp σ w c c' := by
  have hclosed : Follows σ w { c with compoundDepth := c.compoundDepth - 1 } := { h with flight := h.flight }
  rcases endCompound_eq_ok he with rfl | rfl
  · exact catchesUp_of_eq hclosed hd rfl rfl
  · exact (catchesUp_of_eq hclosed hd rfl rfl).trans (scheduleSend_catchesUp hclosed hd)

/-! ## Sending -/

theorem Flight.of_allAcked (h : Flight w q .allAcked requests) :
    q.unacked = [] ∧ requests = [] ∧ Foreign w.session (w.history.drop q.revision) ∧ ∀ n ∈ w.heads, n ≤ q.revision := by
  cases h with
  | idle unacked later heads => exact ⟨unacked, rfl, later, heads⟩

omit L in
theorem submitBatch_submissions (c : Channel) :
    c.submitBatch.submissions = c.submissions ++ [⟨c.document, c.session, c.queue.revision, c.queue.unacked⟩] := by
  show (c.commands ++ [_]).filterMap Command.submission? = _
  rw [List.filterMap_append]
  rfl

/-- What was queued goes in flight as one operation, unless it cancelled out. -/
theorem flush_catchesUp (h : c.Follows σ w) (hd : c.Drained) : CatchesUp σ w c c.flush := by
  have hoff : Follows σ w { c with sendScheduled := false } := { h with flight := h.flight }
  unfold flush
  dsimp only
  split
  next hmay =>
    simp only [maySend, Bool.and_eq_true, beq_iff_eq] at hmay
    have hphase : c.phase = .allAcked := hmay.1.1.1
    obtain ⟨y, hy, hb⟩ := h.balanced
    obtain ⟨hu, hmail, hlater, hheads⟩ := Flight.of_allAcked (hphase ▸ h.flight)
    obtain ⟨ops, hops, hsend, hb', hcosts⟩ := Queue.send_balanced Composite.joins_of_canCompose hb hu
    obtain ⟨horigin, hlen⟩ := h.stamped.compacted hops
    have hholds : Holds σ w
        { c with
          sendScheduled := false
          queue := { c.queue with queued := [], unacked := ops, fresh := false } } :=
      { h with
        stamped := ⟨horigin, fun _ h => absurd h List.not_mem_nil, fun _ => Nat.zero_le _⟩
        balanced := ⟨y, hy, hb'⟩
        owed := by
          have hbefore := h.owed
          rw [hu, List.nil_append] at hbefore
          show Composite.insertLengths (ops ++ []) ≤ _
          rw [List.append_nil]
          exact Nat.le_trans hcosts hbefore }
    simp only [hsend]
    rcases ops with _ | ⟨u, _ | ⟨v, ops⟩⟩
    · exact catchesUp_of_eq ⟨emitSaveState_holds hholds, h.flight.of_eq hu.symm rfl⟩ hd rfl rfl
    · simp only [List.isEmpty_cons, Bool.false_eq_true, if_false]
      refine catchesUp_of_eq ⟨enter_holds (command_holds hholds rfl) _, ?_⟩ hd ?_ ?_
      · rw [enter_phase, enter_queue, enter_submissions, submitBatch_submissions]
        have hmail : w.mail ++ Channel.submissions { c with
            sendScheduled := false
            queue := { c.queue with queued := [], unacked := [u], fresh := false } } = [] := hmail
        have hspan : w.history.drop c.queue.revision = [] ++ w.history.drop c.queue.revision := rfl
        rw [← List.append_assoc, hmail]
        exact .sent rfl rfl (Nat.le_refl _) hspan rfl hlater hheads
      · rw [floor_eq, enter_queue]
        rfl
      · rw [enter_buffered]
        rfl
    · simp only [List.length_cons] at hlen
      omega
  next => exact catchesUp_of_eq hoff hd rfl rfl

/-! ## Replies -/

theorem Flight.length_le (h : Flight w q phase requests) : q.unacked.length ≤ 1 := by
  cases h with
  | idle unacked => simp [unacked]
  | sent unacked => simp [unacked]
  | served unacked => simp [unacked]

/-- A reply that the operation in flight was applied and nothing in between. -/
theorem Flight.of_head {n : Nat} (h : Flight w q .waitingAck requests) (hn : n ∈ w.heads) (hlt : q.revision < n)
    (hle : n ≤ q.revision + 1) :
    ∃ u, q.unacked = [u] ∧ w.history[q.revision]? = some u ∧ u.IsFrom w.session := by
  cases h with
  | sent _ _ _ _ _ _ heads =>
    have := heads n hn
    omega
  | @served u echo ahead rest unacked span passed own _ _ heads =>
    have hahead := heads n hn
    have hnil : ahead = [] := List.length_eq_zero_iff.1 (by omega)
    subst hnil
    obtain rfl : u = echo := Except.ok.inj passed
    refine ⟨u, unacked, ?_, own⟩
    rw [← List.head?_drop, span]
    rfl

theorem submitAcked_served {u : Composite} (h : c.Follows σ w)
    (hH : (Composite.calculus σ).Chain w.history .empty D) (hw : L.arithmetic.Fits w.total)
    (hu : c.queue.unacked = [u])
    (hr : w.history[c.queue.revision]? = some u) (own : u.IsFrom w.session) (head : Nat) (clean : Bool) :
    CatchesUp σ w c (Channel.settle { c with
      knownHead := head
      queue := acknowledged c.queue (c.queue.expectedAcks + 1)
      events := c.events ++ [.ack (u.withRevision (c.queue.revision + 1)) clean] }).drain := by
  have hacked : (acknowledged c.queue (c.queue.expectedAcks + 1)).unacked = [] := rfl
  obtain ⟨_, _, hflight⟩ := h.flight.echo hr own hacked rfl
  have hknown : Holds σ w { c with knownHead := head } := { h with }
  have hholds := acknowledged_holds hknown hu hr own (Nat.succ_le_succ h.echoes)
  have hsettled := settle_follows (event_holds hholds
    (e := .ack (u.withRevision (c.queue.revision + 1)) clean) rfl rfl) hflight
  obtain ⟨hf, hd, hk⟩ := drain_catchesUp hsettled hH hw
  refine ⟨hf, hd, fun r hr => hk r ?_⟩
  rcases hr with hr | hr
  · -- the revision that was accounted for and the echo that is now expected leave the floor where it was
    refine .inl ?_
    rw [floor_eq, settle_queue]
    show r ≤ c.queue.revision + 1 - (c.queue.expectedAcks + 1)
    simp only [floor_eq] at hr
    omega
  · refine .inr ?_
    rw [settle_buffered]
    exact hr

/-- The present reply acknowledges what is in flight, if nothing came in between; old ones change nothing. -/
theorem submitAcked_catchesUp {n : Nat} (h : c.Follows σ w) (hd : c.Drained)
    (hH : (Composite.calculus σ).Chain w.history .empty D) (hw : L.arithmetic.Fits w.total) (version : Nat)
    (hn : n ∈ w.heads) : CatchesUp σ w c (c.submitAcked version n) := by
  unfold submitAcked
  split
  next hcur =>
    simp only [Bool.and_eq_true, beq_iff_eq] at hcur
    dsimp only
    rw [Queue.ackAll?_eq]
    by_cases hmiss : (c.queue.unacked.isEmpty || n != c.queue.revision + c.queue.unacked.length) = true
    · rw [if_pos hmiss]
      have hknown : Follows σ w { c with knownHead := max c.knownHead n } := { h with flight := h.flight }
      exact catchesUp_of_eq hknown hd rfl rfl
    · rw [if_neg hmiss]
      simp only [Bool.or_eq_true, List.isEmpty_iff, bne_iff_ne, not_or, not_not] at hmiss
      have hpos := List.length_pos_iff.2 hmiss.1
      have hlen := h.flight.length_le
      obtain rfl : n = c.queue.revision + 1 := by omega
      obtain ⟨u, hu, hr, own⟩ := (hcur.2 ▸ h.flight).of_head hn (Nat.lt_succ_self _) (Nat.le_refl _)
      simp only [hu, List.length_singleton, ackEvents]
      exact submitAcked_served h hH hw hu hr own _ _
  next => exact catchesUp_of_eq h hd rfl rfl

end follows

end Channel
end Coedit
