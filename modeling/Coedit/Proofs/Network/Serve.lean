import Coedit.Proofs.Network.Basic
import Coedit.Proofs.Session.Rests

/-!
# The server takes in a request

A request in flight carries one operation.  Past what its session had taken in when it was made the operation is what
the session holds in flight now, and past what the session has still to take in it is what the server applies.  The
history grows by it: its session finds its operation served, and the other sessions have one more foreign operation
ahead of them.

* `Server.submit_spec` — the server applies the operation in flight;
* `Channel.Flight.serve`, `Channel.Flight.extend` — the operations in flight afterwards;
* `Session.Rests.serve`, `Session.Rests.extend` — sessions afterwards.
-/

namespace Coedit

open Channel

/-! ## The server -/

/-- The operation `u` is in flight from a session at revision `r`; the server takes it in. -/
theorem Server.submit_spec [Lengths] {σ : Schema} {s : Server} {request : DeltaRequest} {made u : Composite}
    {between : List Composite} {r : Nat} {y y' : Document}
    (hH : (Composite.calculus σ).Chain s.history .empty s.document)
    (hy : (Composite.calculus σ).Chain (s.history.take r) .empty y) (hm : (Composite.calculus σ).Maps u y y')
    (hr : y.Room σ (u.insertLength + Composite.insertLengths (s.history.drop r))) (deltas : request.deltas = [made])
    (revision : request.revision ≤ s.head) (span : s.history.drop request.revision = between ++ s.history.drop r)
    (passed : (passServers made between).2 = .ok u) :
    ∃ echo document,
      s.submit request = .ok (⟨s.history ++ [echo], document⟩,
        ⟨request.session, author [echo], s.head + 1, [echo]⟩) ∧
      (passServers u (s.history.drop r)).2 = .ok echo ∧ echo.insertLength ≤ u.insertLength ∧
      (Composite.calculus σ).Chain (s.history ++ [echo]) .empty document := by
  obtain ⟨_, echo, w, hp, ⟨hecho, hcost⟩, _⟩ := Calculus.passServers_maps hm (chain_drop hH hy) hr
  have hpast : (passServers u (s.history.drop r)).2 = .ok echo := congrArg Prod.snd hp
  have hmade : (passServers made (s.history.drop request.revision)).2 = .ok echo := by
    rw [span, passServers_append _ passed, hpast]
  have hechoes := hecho
  obtain ⟨_, _, document, hdoc, hs⟩ := hecho
  refine ⟨echo, document, ?_, hpast, hcost, ?_⟩
  · cases hpass : passServers made (s.history.drop request.revision) with
    | mk concurrent result =>
      rw [hpass] at hmade
      obtain rfl : result = .ok echo := hmade
      have hdoc : echo.apply s.document = .ok document := hdoc
      rw [submit, if_neg (Nat.not_lt.2 revision), deltas]
      simp only [accept, hpass, hdoc]
      simp [Except.map, head]
  · exact hH.snoc (hechoes.congr hH.right ((Composite.calculus σ).symm hs))

/-! ## Operations in flight -/

namespace Channel

variable {σ : Schema} {w : Setting} {c : Channel} {q : Queue Composite} {phase : Phase}
  {requests : List DeltaRequest} {request : DeltaRequest} {u echo : Composite} {r : Nat}

/-- The setting after the server applied one more operation. -/
def Setting.extend (w : Setting) (op : Composite) : Setting := { w with history := w.history ++ [op] }

theorem foreign_append {session : SessionId} {ops : List Composite} (h : Foreign session ops)
    (hop : ¬ echo.IsFrom session) : Foreign session (ops ++ [echo]) := by
  intro op hmem
  rcases List.mem_append.1 hmem with hmem | hmem
  · exact h op hmem
  · rw [List.mem_singleton.1 hmem]
    exact hop

theorem Setting.ahead_extend (hr : r ≤ w.history.length) :
    (w.extend echo).ahead r = w.ahead r + if echo.IsFrom w.session then echo.insertLength else 0 := by
  have hdrop : (w.extend echo).history.drop r = w.history.drop r ++ [echo] := List.drop_append_of_le_length hr
  have hsession : (w.extend echo).session = w.session := rfl
  rw [ahead, hdrop, hsession, List.filter_append, Composite.insertLengths_append, ahead]
  congr 1
  by_cases own : echo.IsFrom w.session
  · rw [if_pos own, List.filter_cons_of_pos (by simpa using own)]
    rfl
  · rw [if_neg own, List.filter_cons_of_neg (by simpa using own)]
    rfl

section fits
variable [L : Lengths]

/-- One more operation of another session changes nothing about the one in flight. -/
theorem Flight.extend (h : Flight w q phase requests) (hr : q.revision ≤ w.history.length)
    (hop : ¬ echo.IsFrom w.session) : Flight (w.extend echo) q phase requests := by
  have hdrop : ∀ r, r ≤ w.history.length → (w.extend echo).history.drop r = w.history.drop r ++ [echo] :=
    fun r hr => List.drop_append_of_le_length hr
  cases h with
  | idle unacked later heads =>
    refine .idle unacked ?_ heads
    rw [hdrop _ hr]
    exact foreign_append later hop
  | sent unacked deltas revision span passed later heads =>
    refine .sent unacked deltas revision ?_ passed ?_ heads
    · rw [hdrop _ (Nat.le_trans revision hr), hdrop _ hr, span, List.append_assoc]
    · rw [hdrop _ hr]
      exact foreign_append later hop
  | served unacked span passed own before later heads =>
    refine .served unacked ?_ passed own before (foreign_append later hop) heads
    rw [hdrop _ hr, span, List.append_assoc]
    rfl

/-- What is around a request that the server has not received. -/
theorem Flight.of_request (h : Flight w q phase (request :: requests)) :
    phase = .waitingAck ∧ requests = [] ∧ ∃ made u between, q.unacked = [u] ∧ request.deltas = [made] ∧
      request.revision ≤ q.revision ∧
      w.history.drop request.revision = between ++ w.history.drop q.revision ∧
      (passServers made between).2 = .ok u ∧ Foreign w.session (w.history.drop q.revision) ∧
      ∀ n ∈ w.heads, n ≤ q.revision := by
  cases h with
  | sent unacked deltas revision span passed later heads =>
    exact ⟨rfl, rfl, _, _, _, unacked, deltas, revision, span, passed, later, heads⟩

/-- The server took in the request and told its new head. -/
theorem Flight.serve (hu : q.unacked = [u]) (hr : q.revision ≤ w.history.length)
    (hp : (passServers u (w.history.drop q.revision)).2 = .ok echo) (own : echo.IsFrom w.session)
    (later : Foreign w.session (w.history.drop q.revision)) (heads : ∀ n ∈ w.heads, n ≤ q.revision) :
    Flight { w.extend echo with heads := w.heads ++ [w.history.length + 1] } q .waitingAck [] := by
  refine .served hu (List.drop_append_of_le_length hr) hp own later (fun _ h => absurd h List.not_mem_nil) ?_
  intro n hn
  rcases List.mem_append.1 hn with hn | hn
  · exact .inl (heads n hn)
  · refine .inr ?_
    rw [List.mem_singleton.1 hn, List.length_drop]
    omega

/-- What holds of a channel whatever is in flight goes on holding as the history grows. An operation of its own is no
longer pending. -/
theorem Holds.extend {w' : Setting} (h : c.Holds σ w) (hu : w'.user = w.user) (hs : w'.session = w.session)
    (hd : w'.document = w.document) (hh : w'.history = w.history ++ [echo])
    (hp : w'.pending + (if echo.IsFrom w.session then echo.insertLength else 0) = w.pending) : c.Holds σ w' := by
  have hahead : w'.ahead c.queue.revision =
      w.ahead c.queue.revision + if echo.IsFrom w.session then echo.insertLength else 0 := by
    rw [← Setting.ahead_extend h.head, Setting.ahead, hh, hs]
    rfl
  have hadded : w'.added c.queue.revision = w.added c.queue.revision := by
    rw [Setting.added, hh, List.take_append_of_le_length h.head, hahead, Setting.added]
    omega
  obtain ⟨y, hy, hb⟩ := h.balanced
  refine
    { user := h.user.trans hu.symm
      session := h.session.trans hs.symm
      echoes := h.echoes
      head := ?_
      buffered := fun r op hr => hh ▸ (h.buffered r op hr).append [echo]
      stamped := by
        rw [hu, hs]
        exact h.stamped
      balanced := ⟨y, ?_, by rw [hadded, hd]; exact hb⟩
      owed := by
        have hbefore := h.owed
        rw [hahead]
        omega
      faultless := h.faultless
      announced := h.announced
      routine := h.routine }
  · rw [hh, List.length_append]
    exact Nat.le_add_right_of_le h.head
  · rwa [hh, List.take_append_of_le_length h.head]

end fits

end Channel

/-! ## Sessions -/

namespace Session

variable [L : Lengths] {σ : Schema} {w : Setting} {s : Session Document} {echo : Composite} {request : DeltaRequest}
  {version : Nat} {rest : List Outbound} {server : Server}

/-- Another session's operation was applied. -/
theorem Rests.extend (h : s.Rests σ w) (hop : ¬ echo.IsFrom w.session) : s.Rests σ (w.extend echo) :=
  { h with
    follows :=
      { toHolds := by
          refine h.follows.toHolds.extend rfl rfl rfl rfl ?_
          show w.pending + (if echo.IsFrom w.session then echo.insertLength else 0) = w.pending
          rw [if_neg hop, Nat.add_zero]
        flight := h.follows.flight.extend h.follows.head hop } }

/-- The transport passed on something else than a submission. -/
theorem Rests.passed_on (h : s.Rests σ w) (hm : rest.filterMap Outbound.submission? = s.mail) :
    Rests σ w { s with outbound := rest } :=
  { h with
    follows :=
      { h.follows with
        flight := by
          have hmail : mail { s with outbound := rest } = s.mail := hm
          show Flight _ _ _ (mail { s with outbound := rest } ++ s.channel.submissions)
          rw [hmail]
          exact h.follows.flight.of_setting rfl rfl rfl } }

/-- The server takes in the oldest request of a session, and answers it with its new head. -/
theorem Rests.serve (h : s.Rests σ w) (hl : L.arithmetic.Fits w.total) (hw : w.history = server.history)
    (hH : (Composite.calculus σ).Chain server.history .empty server.document)
    (ho : s.outbound = .submit version request :: rest) :
    ∃ echo document user,
      server.submit request = .ok (⟨server.history ++ [echo], document⟩,
        ⟨request.session, user, server.head + 1, [echo]⟩) ∧
      (Composite.calculus σ).Chain (server.history ++ [echo]) .empty document ∧
      echo.origin = ⟨some w.user, some w.session⟩ ∧ echo.insertLength ≤ w.pending ∧
      Rests σ { w.extend echo with
        heads := w.heads ++ [server.head + 1]
        pending := w.pending - echo.insertLength } { s with outbound := rest } := by
  have hmail : s.mail = request :: rest.filterMap Outbound.submission? := by
    rw [mail, ho]
    rfl
  have hnone : s.channel.submissions = [] := by
    rw [submissions, h.commands]
    rfl
  have hflight : Flight (s.around w) s.channel.queue s.channel.phase
      (request :: rest.filterMap Outbound.submission?) := by
    have hflight : Flight _ _ _ (s.mail ++ s.channel.submissions) := h.follows.flight
    rwa [hmail, hnone, List.append_nil] at hflight
  obtain ⟨hphase, hrest, made, u, between, unacked, deltas, revision, span, passed, later, heads⟩ :=
    hflight.of_request
  -- the operation in flight applies to the server's document at the revision of the queue
  obtain ⟨y, hy, hb⟩ := h.follows.balanced
  have hunacked : s.channel.queue.unacked = [u] ++ [] := unacked
  obtain ⟨y', hu, _⟩ := Queue.ack_balanced hb hunacked
  have hahead : w.ahead s.channel.queue.revision = 0 := Setting.ahead_eq_zero later
  have hroom : y.Room σ (u.insertLength + Composite.insertLengths (w.history.drop s.channel.queue.revision)) := by
    refine (hb.serverRoom (Composite.insertLengths (w.history.drop s.channel.queue.revision)) ?_).le ?_
    · exact (Setting.added_add_drop (w := w) later).symm ▸ hl
    · rw [unacked]
      show _ ≤ Composite.insertLengths ([u] ++ s.channel.queue.queued) + _
      simp only [Composite.insertLengths_append, Composite.insertLengths_cons, Composite.insertLengths_nil]
      omega
  have howed : u.insertLength ≤ w.pending := by
    have howed : _ ≤ w.pending + w.ahead s.channel.queue.revision := h.follows.owed
    rw [unacked, hahead] at howed
    simp only [Composite.insertLengths_append, Composite.insertLengths_cons, Composite.insertLengths_nil] at howed
    omega
  have hy : (Composite.calculus σ).Chain (w.history.take s.channel.queue.revision) .empty y := hy
  have hhead : s.channel.queue.revision ≤ w.history.length := h.follows.head
  rw [hw] at hy hhead hroom
  have span : w.history.drop request.revision = between ++ w.history.drop s.channel.queue.revision := span
  rw [hw] at span
  obtain ⟨echo, document, hsubmit, hpast, hcost, hchain⟩ := Server.submit_spec hH hy (Calculus.chain_singleton.1 hu)
    hroom deltas (Nat.le_trans revision hhead) span passed
  have horigin : echo.origin = ⟨some w.user, some w.session⟩ := by
    rw [Composite.passServers_origin hpast]
    exact h.follows.stamped.unacked u (by rw [unacked]; exact List.mem_cons_self ..)
  rw [← hw] at hpast
  have hpending : echo.insertLength ≤ w.pending := Nat.le_trans hcost howed
  have own : echo.IsFrom w.session := congrArg Origin.session horigin
  refine ⟨echo, document, _, hsubmit, hchain, horigin, hpending, ?_⟩
  have hserved := Flight.serve (w := s.around w) unacked h.follows.head hpast own later heads
  refine { h with follows := ⟨h.follows.toHolds.extend rfl rfl rfl rfl ?_, ?_⟩ }
  · show w.pending - echo.insertLength + (if echo.IsFrom w.session then echo.insertLength else 0) = w.pending
    rw [if_pos own, Nat.sub_add_cancel hpending]
  show Flight _ _ s.channel.phase (rest.filterMap Outbound.submission? ++ s.channel.submissions)
  rw [hrest, hnone, hphase]
  rw [show server.head = w.history.length from congrArg List.length hw.symm]
  exact hserved.of_setting rfl rfl rfl

end Session
end Coedit
