import Mathlib.Logic.Relation
import Coedit.Proofs.Channel.Counting
import Coedit.Proofs.Channel.Resubmission

/-!
# Taking in deltas one by one

A channel takes in the deltas at hand by ascending revision, each as the next one after its floor.  How it takes in a
delta depends neither on the other deltas at hand nor on the head that it knows of.  So draining is a run of a relation
in which every step is determined, to a state in which no further step is possible.

* `Channel.Consumes` — one delta is taken in, out of a supply;
* `Channel.drain_consumesAll` — draining takes in deltas until the next one is not at hand;
* `Channel.run_drained` — after every call the next delta is still to come.
-/

namespace Coedit
namespace Channel

variable {c c' : Channel} {x : Call} {revision : Nat} {op : Composite} {supply : Nat → Option Composite}

/-! ## Apart from the deltas at hand -/

/-- The channel without the deltas at hand and the head that it knows of. -/
def bare (c : Channel) : Channel := { c with buffered := .empty, knownHead := 0 }

theorem enter_bare (c : Channel) (phase : Phase) : (c.enter phase).bare = c.bare.enter phase := by
  simp only [enter, apply_ite bare]
  rfl

theorem scheduleSend_bare (c : Channel) : c.scheduleSend.bare = c.bare.scheduleSend := by
  simp only [scheduleSend, apply_ite bare]
  rfl

theorem settle_bare (c : Channel) : c.settle.bare = c.bare.settle := by
  rw [settle, scheduleSend_bare, enter_bare]
  rfl

theorem fail_bare (c : Channel) (fault : Fault) : (c.fail fault).bare = c.bare.fail fault := by
  simp only [fail, disconnect, apply_ite bare]
  rfl

section lengths
variable [Lengths]

theorem applyDelta_bare (c : Channel) (revision : Nat) (op : Composite) :
    (c.applyDelta revision op).bare = c.bare.applyDelta revision op := by
  unfold applyDelta
  rw [show c.bare.queue = c.queue from rfl, show c.bare.session = c.session from rfl]
  split
  next => exact fail_bare ..
  next => rfl
  next =>
    split
    next =>
      split
      next => exact fail_bare ..
      next =>
        split
        next => exact fail_bare ..
        next =>
          simp only [apply_ite bare, settle_bare]
          rfl
    next =>
      split
      next => exact fail_bare ..
      next => rfl

/-! ## One delta out of a supply -/

/-- The channel takes in the delta after its floor, if it is connected and there is one. -/
def Consumes (supply : Nat → Option Composite) (c c' : Channel) : Prop :=
  c.isConnected = true ∧ ∃ op, supply (c.floor + 1) = some op ∧ c' = c.applyDelta (c.floor + 1) op

theorem consumes_rightUnique (supply : Nat → Option Composite) : Relator.RightUnique (Consumes supply) := by
  rintro c _ _ ⟨_, op, hop, rfl⟩ ⟨_, op', hop', rfl⟩
  rw [Option.some.inj (hop.symm.trans hop')]

/-- Two runs from the same state that cannot go on end in the same state. -/
theorem eq_of_consumes {d d' : Channel} (h : Relation.ReflTransGen (Consumes supply) c d)
    (h' : Relation.ReflTransGen (Consumes supply) c d') (hd : ∀ m, ¬ Consumes supply d m)
    (hd' : ∀ m, ¬ Consumes supply d' m) : d = d' := by
  rcases h.total_of_right_unique (consumes_rightUnique supply) h' with h | h
  · rcases h.cases_head with heq | ⟨m, hm, -⟩
    · exact heq
    · exact absurd hm (hd m)
  · rcases h.cases_head with heq | ⟨m, hm, -⟩
    · exact heq.symm
    · exact absurd hm (hd' m)

/-- A delta that does not end the connection raises the floor by one. -/
theorem Taken.floor (hc : c.Orderly) (h : c.Taken revision op c') (hopen : c'.isConnected = true) :
    c'.floor = c.floor + 1 := by
  have hle := hc.echoes
  have raised : ∀ {q : Queue Composite}, q.revision = c.queue.revision + 1 → q.expectedAcks = c.queue.expectedAcks →
      q.revision - q.expectedAcks = c.queue.revision - c.queue.expectedAcks + 1 := by
    intro q hrevision hacks
    omega
  cases h with
  | refused fault => cases (fail_isConnected c fault).symm.trans hopen
  | conflict result => cases (fail_isConnected _ _).symm.trans hopen
  | echo result =>
    obtain ⟨due, rfl⟩ := Queue.takeEcho_eq_true result
    simp only [Channel.floor_eq]
    omega
  | acked own first result =>
    obtain ⟨hnext, hrevision, -⟩ := Queue.ackFirst_revision result
    exact raised (hrevision.trans hnext) (Queue.ackFirst_expectedAcks result)
  | settled own first result phase =>
    obtain ⟨hnext, hrevision, -⟩ := Queue.ackFirst_revision result
    rw [Channel.floor_eq, settle_queue]
    exact raised (hrevision.trans hnext) (Queue.ackFirst_expectedAcks result)
  | received foreign result =>
    obtain ⟨hnext, hrevision, -⟩ := Queue.receive_revision result
    exact raised (hrevision.trans hnext) (Queue.receive_keeps result).1

/-! ## Draining -/

/-- Deltas were taken in out of a supply, and the rest stays at hand unless the connection ended. -/
structure ConsumesAll (supply : Nat → Option Composite) (c d : Channel) : Prop where
  run : Relation.ReflTransGen (Consumes supply) c.bare d.bare
  head : d.knownHead = c.knownHead
  drained : d.isConnected = true → d.Drained
  floor : d.isConnected = true → c.floor ≤ d.floor
  rest : d.isConnected = true → ∀ r, d.floor < r → d.buffered.get? r = c.buffered.get? r

/-- The deltas at hand that are still due come out of the supply. -/
def Supplied (supply : Nat → Option Composite) (c : Channel) : Prop :=
  ∀ r op, c.floor < r → c.buffered.get? r = some op → supply r = some op

theorem Draining.isConnected {ds : List Channel} (h : Draining c ds c') (hopen : c'.isConnected = true) :
    c.isConnected = true := by
  cases h with
  | stops => exact hopen
  | drops connected | takes connected => exact connected

theorem Draining.consumesAll {ds : List Channel} (h : Draining c ds c') (hc : c.Orderly)
    (hsupplied : c.isConnected = true → c.Supplied supply) : ConsumesAll supply c c' := by
  induction h with
  | stops drained => exact ⟨.refl, rfl, drained, fun _ => Nat.le_refl _, fun _ _ _ => rfl⟩
  | @drops c d revision _ connected passed _ ih =>
    have kept : ∀ {r}, c.floor < r → (c.buffered.erase revision).get? r = c.buffered.get? r := fun hr =>
      Table.get?_erase_of_ne _ (Nat.ne_of_gt (Nat.lt_of_le_of_lt passed hr))
    have h := ih (erase_orderly hc connected _) fun _ r op hr hget =>
      hsupplied connected r op hr ((kept hr).symm.trans hget)
    exact { h with rest := fun hd r hr => (h.rest hd r hr).trans (kept (Nat.lt_of_le_of_lt (h.floor hd) hr)) }
  | @takes c d op _ connected next rest ih =>
    have kept : ∀ {r}, c.floor + 1 < r → (c.buffered.erase (c.floor + 1)).get? r = c.buffered.get? r := fun hr =>
      Table.get?_erase_of_ne _ (Nat.ne_of_gt hr)
    have htaken := applyDelta_taken { c with buffered := c.buffered.erase (c.floor + 1) } (c.floor + 1) op
    have hfloor := htaken.floor (erase_orderly hc connected _)
    have hopen : d.isConnected = true → _ := rest.isConnected
    have h := ih (take_orderly hc connected next) fun ht r op hr hget => by
      rw [hfloor ht] at hr
      rw [htaken.buffered ht, kept hr] at hget
      exact hsupplied connected r op (Nat.lt_of_succ_lt hr) hget
    -- what follows starts after the delta, and leaves what comes later alone
    have hnext : d.isConnected = true → c.floor + 1 ≤ d.floor := fun hd => (hfloor (hopen hd)).ge.trans (h.floor hd)
    have hsupply := hsupplied connected _ op (Nat.lt_succ_self _) next
    have hconsumes : Consumes supply c.bare
        (applyDelta { c with buffered := c.buffered.erase (c.floor + 1) } (c.floor + 1) op).bare :=
      ⟨connected, op, hsupply, applyDelta_bare _ _ _⟩
    exact
      { run := .head hconsumes h.run
        head := h.head.trans htaken.knownHead
        drained := h.drained
        floor := fun hd => Nat.le_of_succ_le (hnext hd)
        rest := fun hd r hr => by
          rw [h.rest hd r hr, htaken.buffered (hopen hd), kept (Nat.lt_of_le_of_lt (hnext hd) hr)] }

/-- Draining takes in deltas out of those at hand, up to the first gap. -/
theorem drain_consumesAll (hc : c.Orderly) (hsupplied : c.isConnected = true → c.Supplied supply) :
    ConsumesAll supply c c.drain :=
  (drain_draining c).consumesAll hc hsupplied

end lengths

/-! ## After every call -/

/-- What is at hand and where the channel stands are as before, or nothing is at hand. -/
def Rests (c c' : Channel) : Prop :=
  c'.floor = c.floor ∧ c'.buffered = c.buffered ∨ ∀ r, c'.buffered.contains r = false

theorem Drained.of_rests (hd : c.Drained) (h : c.Rests c') : c'.Drained := by
  intro r hr
  rcases h with ⟨hfloor, hbuffered⟩ | hnone
  · rw [hfloor]
    exact hd r (hbuffered ▸ hr)
  · rw [hnone r] at hr
    cases hr

theorem Rests.refl (c : Channel) : c.Rests c := .inl ⟨rfl, rfl⟩

theorem enter_rests (c : Channel) (phase : Phase) : c.Rests (c.enter phase) :=
  .inl ⟨by rw [floor_eq, enter_queue, floor_eq], enter_buffered c phase⟩

theorem settle_rests (c : Channel) : c.Rests c.settle :=
  .inl ⟨by rw [floor_eq, settle_queue, floor_eq], settle_buffered c⟩

theorem checkSynced_rests (c : Channel) : c.Rests c.checkSynced := by
  unfold checkSynced
  split
  next => exact .refl c
  next =>
    split
    next => exact settle_rests c
    next => exact enter_rests c.submitBatch .waitingAck

theorem fail_rests (h : c.phase ≠ .uninitialized) (q : Queue Composite) (fault : Fault) :
    c.Rests ({ c with queue := q }.fail fault) := by
  rw [fail_eq (c := { c with queue := q }) h]
  exact .inr fun _ => rfl

theorem handleFailure_rests (h : c.phase ≠ .uninitialized) (fault : Fault) : c.Rests (c.handleFailure fault) := by
  unfold handleFailure
  split
  next => exact fail_rests h c.queue fault
  next =>
    dsimp only
    rw [enter_command]
    exact enter_rests _ .delayResync

theorem record_floor [Lengths] {q : Queue Composite} {result : Except Fault Unit} (h : c.queue.record op = (result, q)) :
    q.revision - q.expectedAcks = c.floor := by
  cases result with
  | error fault =>
    obtain ⟨⟨hrevision, hacks, -⟩, -⟩ := Queue.record_error h
    rw [hrevision, hacks, Channel.floor_eq]
  | ok =>
    obtain ⟨serverOps, op', _, rfl⟩ := Queue.record_eq_ok h
    rfl

theorem scheduleSend_rests (h : c.Rests c') : c.Rests c'.scheduleSend := by
  rw [Rests, floor_eq, scheduleSend_queue, scheduleSend_buffered]
  exact h

theorem flush_rests [Lengths] (c : Channel) : c.Rests c.flush := by
  unfold flush
  dsimp only
  split
  next may =>
    have hphase : c.phase = .allAcked := (maySend_iff.1 may).1
    split
    next fault q result => exact fail_rests (c := { c with sendScheduled := false }) (by simp [hphase]) q fault
    next batch q result =>
      obtain ⟨-, rfl⟩ := Queue.send_eq_ok result
      split
      next => exact .inl ⟨rfl, rfl⟩
      next => exact enter_rests _ .waitingAck
  next => exact .inl ⟨rfl, rfl⟩

/-- A call that takes in no deltas leaves the channel where it stands, unless it ends the connection. -/
theorem Direct.rests [Lengths] (hc : c.Orderly) (h : Direct c x c') : c.Rests c' := by
  cases h with
  | ignored => exact .refl c
  | connected result =>
    refine .inr fun r => ?_
    rw [connect_eq_ok result, enter_buffered]
    exact hc.closed (connect_phase result) r
  | disconnected =>
    unfold disconnect
    split
    next => exact .inr fun _ => rfl
    next => exact .refl c
  | submitted result =>
    have hphase : c.phase ≠ .uninitialized := by
      intro hphase
      rw [submit, if_pos (by simp [isConnected, hphase])] at result
      cases result
    obtain ⟨result, q, hq, rfl | ⟨fault, rfl⟩⟩ := submit_eq_ok result
    · exact scheduleSend_rests (.inl ⟨record_floor hq, rfl⟩)
    · exact fail_rests hphase q fault
  | began => exact .refl c
  | ended result =>
    rcases endCompound_eq_ok result with rfl | rfl
    · exact .refl c
    · exact scheduleSend_rests (.refl c)
  | flushed => exact flush_rests c
  | heard => exact .inl ⟨rfl, rfl⟩
  | failed _ phase => exact handleFailure_rests (by rcases phase with h | h <;> simp [h]) _
  | waited => exact enter_rests c .waitingSync
  | received => exact .inl ⟨rfl, rfl⟩

theorem drained_of_closed (hc : c.Orderly) (h : c.isConnected = false) : c.Drained := by
  intro r hr
  rw [hc.closed (by simpa [isConnected] using h) r] at hr
  cases hr

theorem drain_drained [Lengths] (hc : c.Orderly) : c.drain.Drained := by
  cases hopen : c.drain.isConnected with
  | false => exact drained_of_closed ((drain_draining c).orderly hc) hopen
  | true =>
    have hall : ConsumesAll c.buffered.get? c c.drain := drain_consumesAll hc fun _ _ _ _ h => h
    exact hall.drained hopen

/-- After every call the next delta is still to come. -/
theorem perform_drained [Lengths] (hc : c.Orderly) (hd : c.Drained) (x : Call) : (c.perform x).2.Drained := by
  cases hdrains : c.drains? x with
  | none => exact hd.of_rests ((perform_direct hdrains).rests hc)
  | some d =>
    obtain ⟨hopens, hresult⟩ := drains?_opens hdrains
    have hdrained := drain_drained (hopens.step.orderly hc)
    rcases hresult with h | h <;> rw [h]
    · exact hdrained
    · exact hdrained.of_rests (checkSynced_rests _)

theorem run_drained [Lengths] : ∀ (calls : List Call) {c : Channel}, c.Orderly → c.Drained → (c.run calls).Drained
  | [], _, _, hd => hd
  | x :: calls, _, hc, hd => run_drained calls (perform_orderly hc x) (perform_drained hc hd x)

theorem new_drained (document : DocumentId) (user : UserId) (session : SessionId) (config : Config) :
    (new document user session config).Drained := fun _ hr => nomatch hr

end Channel
end Coedit
