import Coedit.Proofs.Channel.Stages
import Coedit.Proofs.Message

/-!
# Counting in words

A channel counts on from the revisions that it was told of, and never further than to the one after the last of them.
As long as this one fits in a word, a channel that counts in words does what one that counts exactly does.

* `Queue.takeEcho_of_fits`, `Queue.receive_of_fits` and others — the counts of a queue;
* `Channel.Counted`, `Channel.drainEntries_counted` — a channel whose counts fit takes in deltas as it should;
* `Channel.perform_counted`, `Channel.stages_counted` — so it answers any call that tells of no further revisions;
* `Channel.run_counted` — and any run of such calls.
-/

namespace Coedit

section fits
variable [R : Revisions]

theorem DeltaMessage.revisions_of_fits {m : DeltaMessage} (h : R.arithmetic.Fits (m.revision + 1)) :
    m.revisions (R := R) = m.revisions (R := .exact) := by
  unfold revisions firstRevision?
  rw [Arithmetic.wrap_of_fits h]
  rfl

/-! ## Queues -/

namespace Queue

variable {ω τ : Type} [Operation ω τ] {q : Queue ω}

theorem checkNext_of_fits (h : R.arithmetic.Fits (q.revision + 1)) (revision : Nat) :
    q.checkNext (R := R) revision = q.checkNext (R := .exact) revision := by
  unfold checkNext
  rw [Arithmetic.wrap_of_fits h]
  rfl

theorem takeEcho_of_fits (h : R.arithmetic.Fits (q.revision + 1)) (revision : Nat) :
    q.takeEcho (R := R) revision = q.takeEcho (R := .exact) revision := by
  unfold takeEcho
  rw [Arithmetic.wrap_of_fits h]
  rfl

theorem ackFirst_of_fits (h : R.arithmetic.Fits (q.revision + 1)) (revision : Nat) :
    q.ackFirst (R := R) revision = q.ackFirst (R := .exact) revision := by
  unfold ackFirst
  rw [checkNext_of_fits h]

theorem receive_of_fits (h : R.arithmetic.Fits (q.revision + 1)) (revision : Nat) (op : ω) :
    q.receive (R := R) revision op = q.receive (R := .exact) revision op := by
  unfold receive
  rw [checkNext_of_fits h]

end Queue
end fits

theorem DeltaMessage.revisions_le (m : DeltaMessage) : ∀ e ∈ m.revisions, e.1 ≤ m.revision := by
  intro e he
  rw [revisions_eq] at he
  split at he
  next => cases he
  next =>
    obtain ⟨i, hi, rfl⟩ := List.mem_mapIdx.1 he
    dsimp only
    omega

/-- A call tells of no revision beyond `n`. -/
def Call.Within (n : Nat) : Call → Prop
  | .connect revision => revision ≤ n
  | .submitAcked _ head => head ≤ n
  | .delta m => m.revision ≤ n
  | .revisionReply _ m => m.revision ≤ n
  | _ => True

instance (n : Nat) (x : Call) : Decidable (x.Within n) :=
  match x with
  | .connect r => inferInstanceAs (Decidable (r ≤ n))
  | .submitAcked _ r => inferInstanceAs (Decidable (r ≤ n))
  | .delta m => inferInstanceAs (Decidable (m.revision ≤ n))
  | .revisionReply _ m => inferInstanceAs (Decidable (m.revision ≤ n))
  | .disconnect | .submit _ | .beginCompound | .endCompound | .flush | .submitFailed .. | .resyncTimer _
  | .revisionFailed .. | .receive => isTrue trivial

namespace Channel

variable {c c' d : Channel} {x : Call} {op : Composite} {revision n : Nat}

/-! ## The known head -/

theorem enter_knownHead (c : Channel) (phase : Phase) : (c.enter phase).knownHead = c.knownHead := by
  obtain ⟨_, h⟩ := c.enter_eq phase
  rw [h]

theorem scheduleSend_knownHead (c : Channel) : c.scheduleSend.knownHead = c.knownHead := by
  unfold scheduleSend
  split <;> rfl

theorem settle_knownHead (c : Channel) : c.settle.knownHead = c.knownHead := by
  rw [settle, scheduleSend_knownHead, enter_knownHead]

theorem disconnect_knownHead (c : Channel) : c.disconnect.knownHead = c.knownHead := by
  unfold disconnect
  split <;> rfl

theorem fail_knownHead (c : Channel) (fault : Fault) : (c.fail fault).knownHead = c.knownHead := disconnect_knownHead _

theorem checkSynced_knownHead (c : Channel) : c.checkSynced.knownHead = c.knownHead := by
  unfold checkSynced
  split
  next => rfl
  next =>
    split
    next => exact settle_knownHead c
    next => exact enter_knownHead c.submitBatch .waitingAck

theorem handleFailure_knownHead (c : Channel) (fault : Fault) : (c.handleFailure fault).knownHead = c.knownHead := by
  unfold handleFailure
  split
  next => exact fail_knownHead c fault
  next => exact enter_knownHead _ .delayResync

section lengths
variable [Lengths]

theorem Taken.knownHead (h : c.Taken revision op c') : c'.knownHead = c.knownHead := by
  cases h with
  | refused fault => exact fail_knownHead c fault
  | conflict result => exact fail_knownHead _ _
  | settled own first result phase => exact settle_knownHead _
  | echo | acked | received => rfl

theorem drain_knownHead (c : Channel) : c.drain.knownHead = c.knownHead :=
  drain_lift (R := fun c d => d.knownHead = c.knownHead) (fun _ => rfl) (fun h h' => h'.trans h) (fun _ _ => rfl)
    fun _ _ _ _ h => h.knownHead

theorem flush_knownHead (c : Channel) : c.flush.knownHead = c.knownHead := by
  unfold flush
  dsimp only
  split
  next =>
    split
    next => exact fail_knownHead _ _
    next =>
      split
      next => rfl
      next => exact enter_knownHead _ .waitingAck
  next => rfl

/-- Of the calls that take in no deltas, a connection and a reply tell of a head. -/
theorem Direct.knownHead_le (h : Direct c x c') (hc : c.knownHead ≤ n) (hx : x.Within n) : c'.knownHead ≤ n := by
  cases h with
  | ignored => exact hc
  | connected result =>
    rw [connect_eq_ok result, enter_knownHead]
    exact hx
  | disconnected => rwa [disconnect_knownHead]
  | submitted result =>
    obtain ⟨_, q, -, rfl | ⟨fault, rfl⟩⟩ := submit_eq_ok result
    · rwa [scheduleSend_knownHead]
    · rwa [fail_knownHead]
  | began => exact hc
  | ended result =>
    rcases endCompound_eq_ok result with rfl | rfl
    · exact hc
    · rwa [scheduleSend_knownHead]
  | flushed => rwa [flush_knownHead]
  | heard => exact Nat.max_le.2 ⟨hc, hx⟩
  | failed => rwa [handleFailure_knownHead]
  | waited =>
    show (c.enter .waitingSync).knownHead ≤ n
    rwa [enter_knownHead]
  | received => exact hc

/-! ## What a channel is told of -/

omit [Lengths] in
theorem keepAll_knownHead_le : ∀ (entries : List (Nat × Composite)) (c : Channel) (n : Nat),
    (entries.foldl keep c).knownHead ≤ n ↔ c.knownHead ≤ n ∧ ∀ r ∈ entries.map (·.1), r ≤ n
  | [], c, n => by simp
  | e :: rest, c, n => by
    rw [List.foldl_cons, keepAll_knownHead_le rest, List.map_cons, List.forall_mem_cons, ← and_assoc]
    exact and_congr_left' Nat.max_le

omit [Lengths] in
theorem buffer_knownHead_le {m : DeltaMessage} (hc : c.knownHead ≤ n) (hm : m.revision ≤ n) :
    (c.buffer m).knownHead ≤ n := by
  rw [buffer_eq, keepAll_knownHead_le]
  refine ⟨hc, fun r hr => ?_⟩
  obtain ⟨e, he, rfl⟩ := List.mem_map.1 hr
  exact (m.revisions_le e he).trans hm

omit [Lengths] in
theorem Opens.knownHead_le (h : Opens c x d) (hc : c.knownHead ≤ n) (hx : x.Within n) : d.knownHead ≤ n := by
  cases h with
  | delta => exact buffer_knownHead_le hc hx
  | replied => exact buffer_knownHead_le (Nat.max_le.2 ⟨hc, hx⟩) hx
  | acked =>
    rw [settle_knownHead]
    exact Nat.max_le.2 ⟨hc, hx⟩

/-- A channel knows of no head beyond what it was told of. -/
theorem perform_knownHead_le (hc : c.knownHead ≤ n) (hx : x.Within n) : (c.perform x).2.knownHead ≤ n := by
  cases hd : c.drains? x with
  | none => exact (perform_direct hd).knownHead_le hc hx
  | some d =>
    obtain ⟨hopens, h | h⟩ := drains?_opens hd
    · rw [h, drain_knownHead]
      exact hopens.knownHead_le hc hx
    · rw [h, checkSynced_knownHead, drain_knownHead]
      exact hopens.knownHead_le hc hx

theorem run_knownHead_le : ∀ (calls : List Call) {c : Channel}, c.knownHead ≤ n → (∀ x ∈ calls, x.Within n) →
    (c.run calls).knownHead ≤ n
  | [], _, hc, _ => hc
  | _ :: calls, _, hc, hcalls =>
    have ⟨hx, hcalls⟩ := List.forall_mem_cons.1 hcalls
    run_knownHead_le calls (perform_knownHead_le hc hx) hcalls

/-! ## Counts that fit -/

/-- The revisions that a channel stands at and those at hand are within `n`. -/
structure Counted (n : Nat) (c : Channel) : Prop where
  echoes : c.queue.expectedAcks ≤ c.queue.revision
  revision : c.queue.revision ≤ n
  ahead : ∀ r, c.buffered.contains r = true → r ≤ n

omit [Lengths] in
theorem Orderly.counted (hc : c.Orderly) (hn : c.knownHead ≤ n) (hopen : c.isConnected = true) : c.Counted n where
  echoes := hc.echoes
  revision := (hc.head (isConnected_iff.1 hopen)).trans hn
  ahead r hr := (hc.ahead r hr).trans hn

/-- A channel that follows a server has counted to the end of its history at most. -/
theorem Follows.counted {σ : Schema} {w : Setting} (h : c.Follows σ w) : c.Counted w.history.length where
  echoes := h.echoes
  revision := h.head
  ahead r hr := by
    obtain ⟨op, hop⟩ := Option.isSome_iff_exists.1 hr
    obtain ⟨k, _, hk, rfl, -⟩ := h.buffered r op hop
    exact (List.getElem?_eq_some_iff.1 hk).1

theorem Flight.single {w : Setting} {q : Queue Composite} {phase : Phase} {requests : List DeltaRequest}
    (h : Flight w q phase requests) : q.unacked.length ≤ 1 := by
  cases h with
  | idle unacked => simp [unacked]
  | sent unacked => simp [unacked]
  | served unacked => simp [unacked]

/-- The heads told do not go beyond the history. -/
theorem Flight.heads_le {w : Setting} {q : Queue Composite} {phase : Phase} {requests : List DeltaRequest} {head : Nat}
    (h : Flight w q phase requests) (hr : q.revision ≤ w.history.length) (hn : head ∈ w.heads) :
    head ≤ w.history.length := by
  cases h with
  | idle unacked later heads => exact (heads head hn).trans hr
  | sent unacked deltas revision span passed later heads => exact (heads head hn).trans hr
  | served unacked span passed own before later heads =>
    have hlength := congrArg List.length span
    rw [List.length_drop, List.length_append, List.length_cons] at hlength
    have := heads head hn
    omega

omit [Lengths] in
theorem Counted.erase (hc : c.Counted n) (revision : Nat) :
    Counted n { c with buffered := c.buffered.erase revision } where
  echoes := hc.echoes
  revision := hc.revision
  ahead r hr := by
    rw [Table.contains_erase, Bool.and_eq_true] at hr
    exact hc.ahead r hr.2

omit [Lengths] in
theorem Counted.buffer {m : DeltaMessage} (hc : c.Counted n) (hm : m.revision ≤ n) : (c.buffer m).Counted n :=
  buffer_lift (R := fun c d => c.Counted n → d.Counted n) (fun _ => id) (fun h h' hc => h' (h hc)) c m
    (fun e he d hd =>
      { echoes := hd.echoes
        revision := hd.revision
        ahead := fun r hr => by
          rw [keep_contains, Bool.or_eq_true, beq_iff_eq] at hr
          rcases hr with rfl | hr
          · exact (m.revisions_le e he).trans hm
          · exact hd.ahead r hr }) hc

theorem Taken.counted (h : c.Taken revision op c') (hc : c.Counted n) (hr : revision ≤ n)
    (hopen : c'.isConnected = true) : c'.Counted n := by
  obtain ⟨echoes, within, ahead⟩ := hc
  have raised : ∀ {q : Queue Composite}, revision = c.queue.revision + 1 → q.revision = revision →
      q.expectedAcks = c.queue.expectedAcks → q.expectedAcks ≤ q.revision ∧ q.revision ≤ n := by
    intro q hnext hq hacks
    omega
  cases h with
  | refused fault => cases (fail_isConnected c fault).symm.trans hopen
  | conflict result => cases (fail_isConnected _ _).symm.trans hopen
  | echo result =>
    obtain ⟨due, rfl⟩ := Queue.takeEcho_eq_true result
    exact ⟨(Nat.sub_le ..).trans echoes, within, ahead⟩
  | acked own first result =>
    obtain ⟨hnext, hq, -⟩ := Queue.ackFirst_revision result
    obtain ⟨hechoes, hwithin⟩ := raised hnext hq (Queue.ackFirst_expectedAcks result)
    exact ⟨hechoes, hwithin, ahead⟩
  | settled own first result phase =>
    obtain ⟨hnext, hq, -⟩ := Queue.ackFirst_revision result
    obtain ⟨hechoes, hwithin⟩ := raised hnext hq (Queue.ackFirst_expectedAcks result)
    refine ⟨?_, ?_, ?_⟩
    · rwa [settle_queue]
    · rwa [settle_queue]
    · rwa [settle_buffered]
  | received foreign result =>
    obtain ⟨hnext, hq, -⟩ := Queue.receive_revision result
    obtain ⟨hechoes, hwithin⟩ := raised hnext hq (Queue.receive_keeps result).1
    exact ⟨hechoes, hwithin, ahead⟩

section counts
variable [R : Revisions]

omit [Lengths] in
theorem floor_counted (hR : R.arithmetic.Fits (n + 1)) (hc : c.Counted n) :
    c.floor (R := R) = c.floor (R := .exact) :=
  Arithmetic.sub_of_fits (hR.of_le (Nat.le_succ_of_le hc.revision)) hc.echoes

theorem applyDelta_of_fits (h : R.arithmetic.Fits (c.queue.revision + 1)) (revision : Nat) (op : Composite) :
    c.applyDelta (R := R) revision op = c.applyDelta (R := .exact) revision op := by
  unfold applyDelta
  rw [Queue.takeEcho_of_fits h, Queue.ackFirst_of_fits h, Queue.receive_of_fits h]

/-- Deltas at hand are taken in in the same steps. -/
theorem drainEntries_counted (hR : R.arithmetic.Fits (n + 1)) (entries : List (Nat × Composite)) : ∀ {c : Channel},
    (c.isConnected = true → c.buffered.entries = entries ∧ c.Counted n) →
      drainEntries (R := R) entries c = drainEntries (R := .exact) entries c ∧
        drainStages (R := R) entries c = drainStages (R := .exact) entries c := by
  induction entries with
  | nil => exact fun _ => ⟨rfl, rfl⟩
  | cons e rest ih =>
    intro c h
    obtain ⟨revision, op⟩ := e
    unfold drainEntries drainStages
    cases hopen : c.isConnected with
    | false => exact ⟨rfl, rfl⟩
    | true =>
      obtain ⟨hentries, hc⟩ := h hopen
      have hrest := Table.entries_erase_first hentries
      rw [floor_counted hR hc]
      split
      next => exact ⟨rfl, rfl⟩
      next =>
        have herased := hc.erase revision
        dsimp only
        split
        next =>
          obtain ⟨hdrain, hstages⟩ := ih (c := { c with buffered := c.buffered.erase revision }) fun _ => ⟨hrest, herased⟩
          exact ⟨hdrain, by rw [hstages]⟩
        next =>
          have hat : c.buffered.contains revision = true := by
            rw [Table.contains, Table.get?_first hentries]
            rfl
          have htaken := applyDelta_taken { c with buffered := c.buffered.erase revision } revision op
          have happlied := applyDelta_of_fits (c := { c with buffered := c.buffered.erase revision })
            (hR.of_le (Nat.succ_le_succ hc.revision)) revision op
          rw [happlied]
          obtain ⟨hdrain, hstages⟩ := ih fun ht =>
            ⟨(congrArg Table.entries (htaken.buffered ht)).trans hrest,
              htaken.counted herased (hc.ahead revision hat) ht⟩
          exact ⟨hdrain, by rw [hstages]⟩

theorem drain_counted (hR : R.arithmetic.Fits (n + 1)) (hc : c.isConnected = true → c.Counted n) :
    c.drain (R := R) = c.drain (R := .exact) :=
  (drainEntries_counted hR c.buffered.entries fun hopen => ⟨rfl, hc hopen⟩).1

omit [Lengths] in
theorem buffer_of_fits {m : DeltaMessage} (h : R.arithmetic.Fits (m.revision + 1)) :
    c.buffer (R := R) m = c.buffer (R := .exact) m := by
  unfold buffer
  rw [m.revisions_of_fits h]

/-! ## Calls -/

theorem delta_counted {m : DeltaMessage} (hR : R.arithmetic.Fits (n + 1)) (hc : c.isConnected = true → c.Counted n)
    (hm : m.revision ≤ n) : c.delta (R := R) m = c.delta (R := .exact) m := by
  unfold delta
  split
  next hopen =>
    rw [buffer_of_fits (hR.of_le (Nat.succ_le_succ hm)), drain_counted hR fun _ => (hc hopen).buffer hm]
  next => rfl

theorem revisionReply_counted {m : DeltaMessage} (hR : R.arithmetic.Fits (n + 1))
    (hc : c.isConnected = true → c.Counted n) (version : Nat) (hm : m.revision ≤ n) :
    c.revisionReply (R := R) version m = c.revisionReply (R := .exact) version m := by
  unfold revisionReply
  split
  next hdue =>
    have hopen : c.isConnected = true := by simp_all [isCurrent]
    have hknown : Counted n { c with knownHead := max c.knownHead m.revision } := { hc hopen with }
    rw [buffer_of_fits (hR.of_le (Nat.succ_le_succ hm)), drain_counted hR fun _ => hknown.buffer hm]
  next => rfl

omit [Lengths] in
theorem resyncTimer_counted (hR : R.arithmetic.Fits (n + 1)) (hc : c.isConnected = true → c.Counted n) (version : Nat) :
    c.resyncTimer (R := R) version = c.resyncTimer (R := .exact) version := by
  unfold resyncTimer
  split
  next hdue =>
    have hopen : c.isConnected = true := by simp_all [isCurrent]
    rw [floor_counted hR (hc hopen)]
  next => rfl

omit [Lengths] in
/-- An operation alone in flight is acknowledged under the next revision. -/
theorem acknowledgeAll_of_fits (h : R.arithmetic.Fits (c.queue.revision + 1)) (single : c.queue.unacked.length ≤ 1)
    (head : Nat) : c.acknowledgeAll (R := R) head = c.acknowledgeAll (R := .exact) head := by
  unfold acknowledgeAll
  rw [Arithmetic.wrap_of_fits h]
  cases hu : c.queue.unacked with
  | nil => rfl
  | cons u us =>
    obtain rfl : us = [] := by simpa [hu] using single
    rfl

theorem submitAcked_counted (hR : R.arithmetic.Fits (n + 1)) (hc : c.isConnected = true → c.Counted n)
    (single : c.queue.unacked.length ≤ 1) (version head : Nat) (hn : head ≤ n) :
    c.submitAcked (R := R) version head = c.submitAcked (R := .exact) version head := by
  by_cases hdue : (c.isCurrent version && c.phase == .waitingAck) = true
  · obtain ⟨hcurrent, hphase⟩ := Bool.and_eq_true_iff.1 hdue
    obtain ⟨echoes, within, ahead⟩ := hc (Bool.and_eq_true_iff.1 hcurrent).1
    rw [beq_iff_eq] at hphase
    have hnext : R.arithmetic.Fits (c.queue.revision + 1) := hR.of_le (Nat.succ_le_succ within)
    have hall : R.arithmetic.Fits (c.queue.revision + c.queue.unacked.length) :=
      hnext.of_le (Nat.add_le_add_left single _)
    rw [submitAcked_wraps (R := R) hcurrent hphase, submitAcked_eq hcurrent hphase, Arithmetic.wrap_of_fits hall,
      acknowledgeAll_of_fits hnext single]
    split
    next => rfl
    next hhead =>
      have hhead : head = c.queue.revision + c.queue.unacked.length := by
        simp only [Bool.or_eq_true, bne_iff_ne, not_or, not_not] at hhead
        exact hhead.2
      refine drain_counted hR fun _ => ⟨?_, ?_, ?_⟩
      · rw [settle_queue, hhead]
        exact Nat.add_le_add_right echoes _
      · rwa [settle_queue]
      · rwa [settle_buffered]
  · unfold submitAcked
    rw [if_neg hdue, if_neg hdue]

variable (hR : R.arithmetic.Fits (n + 1)) (hc : c.Orderly) (hn : c.knownHead ≤ n) (hx : x.Within n)
include hR hc hn hx

/-- A call is answered as if revisions were counted exactly. -/
theorem perform_counted : c.perform (R := R) x = c.perform (R := .exact) x := by
  have hcounted : c.isConnected = true → c.Counted n := hc.counted hn
  cases x with
  | submitAcked version head =>
    by_cases hopen : c.isConnected = true
    · have single := hc.single (isConnected_iff.1 hopen)
      rw [perform, submitAcked_counted hR hcounted single version head hx]
      rfl
    · have hdue : ¬ (c.isCurrent version && c.phase == .waitingAck) = true := by simp [isCurrent, hopen]
      simp only [perform, submitAcked, if_neg hdue]
  | delta m =>
    rw [perform, delta_counted hR hcounted hx]
    rfl
  | resyncTimer version =>
    rw [perform, resyncTimer_counted hR hcounted]
    rfl
  | revisionReply version m =>
    rw [perform, revisionReply_counted hR hcounted version hx]
    rfl
  | _ => rfl

omit [Lengths] in
theorem drains?_counted : c.drains? (R := R) x = c.drains? (R := .exact) x := by
  cases x with
  | submitAcked version head =>
    by_cases hopen : c.isConnected = true
    · have single := hc.single (isConnected_iff.1 hopen)
      have hnext : R.arithmetic.Fits (c.queue.revision + 1) :=
        hR.of_le (Nat.succ_le_succ (hc.counted hn hopen).revision)
      simp only [drains?, Arithmetic.wrap_of_fits (hnext.of_le (Nat.add_le_add_left single _)),
        acknowledgeAll_of_fits hnext single]
      rfl
    · simp [drains?, isCurrent, hopen]
  | delta m =>
    simp only [drains?, buffer_of_fits (hR.of_le (Nat.succ_le_succ hx))]
  | revisionReply version m =>
    simp only [drains?, buffer_of_fits (hR.of_le (Nat.succ_le_succ hx))]
  | _ => rfl

/-- It leads through the same states. -/
theorem stages_counted : c.stages (R := R) x = c.stages (R := .exact) x := by
  unfold stages
  rw [drains?_counted hR hc hn hx, perform_counted hR hc hn hx]
  cases hd : c.drains? (R := .exact) x with
  | none => rfl
  | some d =>
    obtain ⟨hopens, -⟩ := drains?_opens hd
    have hcounted := (hopens.step.orderly hc).counted (hopens.knownHead_le hn hx)
    dsimp only
    rw [(drainEntries_counted hR d.buffered.entries fun hopen => ⟨rfl, hcounted hopen⟩).2]

omit hc hn hx in
/-- A run comes to what it would if revisions were counted exactly. -/
theorem run_counted : ∀ (calls : List Call) {c : Channel}, c.Orderly → c.knownHead ≤ n → (∀ x ∈ calls, x.Within n) →
    c.run (R := R) calls = c.run (R := .exact) calls
  | [], _, _, _, _ => rfl
  | x :: calls, c, hc, hn, hcalls => by
    have ⟨hx, hcalls⟩ := List.forall_mem_cons.1 hcalls
    have hperform := perform_counted hR hc hn hx
    have hrest := run_counted calls (perform_orderly hc x) (perform_knownHead_le hn hx) hcalls
    rw [run, List.foldl_cons, hperform]
    exact hrest

end counts

end lengths
end Channel
end Coedit
