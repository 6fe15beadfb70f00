import Coedit.Channel.Run
import Coedit.Proofs.Channel.Drain
import Coedit.Proofs.Queue.Revisions

/-!
# What calls can do

What a call that may be refused does when it is not, and what taking in one delta can do, listed once, whatever the
server sent and whatever the channel expected.  A channel takes in deltas one after the other, so a preorder that each
of them respects, and the keeping and dropping of a delta, is respected by whole messages.

* `Channel.connect_eq_ok`, `Channel.submit_eq_ok`, `Channel.endCompound_eq_ok` — calls that were accepted;
* `Channel.Taken` — the outcomes of one delta, and `Channel.applyDelta_taken`;
* `Channel.buffer_lift`, `Channel.drain_lift` — from single deltas to all that are at hand.
-/

namespace Coedit
namespace Channel

variable {c c' : Channel} {revision : Nat} {op : Composite}

/-! ## Calls that were accepted -/

theorem connect_eq_ok (h : c.connect revision = .ok c') :
    c' = ({ c with queue := .new revision, knownHead := revision, retryAttempt := 0 }.command
      (.subscribe c.document)).enter .allAcked := by
  unfold connect at h
  split at h
  next => cases h
  next => exact (Except.ok.inj h).symm

/-- An accepted edit is queued, unless it does not fit, which ends the connection. -/
theorem submit_eq_ok [Lengths] (h : c.submit op = .ok c') :
    ∃ result q, c.queue.record (op.withOrigin c.user c.session) = (result, q) ∧
      (c' = { c with queue := q }.scheduleSend ∨ ∃ fault, c' = { c with queue := q }.fail fault) := by
  unfold submit at h
  split at h
  next => cases h
  next =>
    split at h
    next fault q hq => exact ⟨_, q, hq, .inr ⟨fault, (Except.ok.inj h).symm⟩⟩
    next q hq => exact ⟨_, q, hq, .inl (Except.ok.inj h).symm⟩

theorem endCompound_eq_ok (h : c.endCompound = .ok c') :
    c' = { c with compoundDepth := c.compoundDepth - 1 } ∨
      c' = { c with compoundDepth := c.compoundDepth - 1 }.scheduleSend := by
  unfold endCompound at h
  split at h
  next => cases h
  next =>
    obtain rfl := Except.ok.inj h
    split
    next => exact .inr rfl
    next => exact .inl rfl

/-! ## One delta -/

/-- The outcomes of one delta. -/
inductive Taken [Lengths] (c : Channel) (revision : Nat) (op : Composite) : Channel → Prop where
  /-- It is out of place, which ends the connection. -/
  | refused (fault : Fault) : Taken c revision op (c.fail fault)
  /-- It does not pass the local operations, which ends the connection. -/
  | conflict {fault : Fault} {q : Queue Composite} (result : c.queue.receive revision op = (.error fault, q)) :
      Taken c revision op ({ c with queue := q }.fail fault)
  /-- It is an echo that is expected. -/
  | echo {q : Queue Composite} (result : c.queue.takeEcho revision = (.ok true, q)) :
      Taken c revision op { c with queue := q }
  /-- It is the echo of the oldest operation in flight. -/
  | acked {u : Composite} {q : Queue Composite} {done : Bool} (own : op.IsFrom c.session)
      (first : c.queue.unacked.head? = some u) (result : c.queue.ackFirst revision = (.ok done, q)) :
      Taken c revision op ({ c with queue := q }.event (.ack (u.withRevision revision) q.isClean))
  /-- It is the echo of the last operation in flight, before the channel asks for the head. -/
  | settled {u : Composite} {q : Queue Composite} (own : op.IsFrom c.session)
      (first : c.queue.unacked.head? = some u) (result : c.queue.ackFirst revision = (.ok true, q))
      (phase : c.phase = .waitingAck ∨ c.phase = .delayResync) :
      Taken c revision op ({ c with queue := q }.event (.ack (u.withRevision revision) q.isClean)).settle
  /-- It comes from another session. -/
  | received {q : Queue Composite} (foreign : ¬ op.IsFrom c.session)
      (result : c.queue.receive revision op = (.ok (), q)) :
      Taken c revision op ({ c with queue := q }.event (.remoteOp revision))

theorem applyDelta_taken [Lengths] (c : Channel) (revision : Nat) (op : Composite) :
    c.Taken revision op (c.applyDelta revision op) := by
  unfold applyDelta
  split
  next => exact .refused _
  next he => exact .echo he
  next =>
    split
    next own =>
      split
      next => exact .refused _
      next first =>
        split
        next ha =>
          obtain rfl := Queue.ackFirst_error ha
          exact .refused _
        next done q ha =>
          dsimp only
          split
          next hdone =>
            simp only [Bool.and_eq_true, Bool.or_eq_true, beq_iff_eq] at hdone
            obtain ⟨rfl, phase⟩ := hdone
            exact .settled own first ha phase
          next => exact .acked own first ha
    next foreign =>
      split
      next hr => exact .conflict hr
      next hr => exact .received foreign hr

/-! ## From one delta to all -/

section lift

variable {R : Channel → Channel → Prop} (refl : ∀ c, R c c) (trans : ∀ {c c' c''}, R c c' → R c' c'' → R c c'')
include refl trans

theorem buffer_lift (c : Channel) (m : DeltaMessage) (keeps : ∀ e ∈ m.revisions, ∀ c, R c (keep c e)) :
    R c (c.buffer m) := by
  rw [buffer_eq]
  generalize m.revisions = entries at keeps
  induction entries generalizing c with
  | nil => exact refl c
  | cons e rest ih =>
    exact trans (keeps e (List.mem_cons_self ..) c) (ih _ fun e' he' => keeps e' (List.mem_cons_of_mem _ he'))

theorem drain_lift [Lengths] (drops : ∀ (c : Channel) revision, R c { c with buffered := c.buffered.erase revision })
    (takes : ∀ e ∈ c.buffered.entries, ∀ c c', Taken c e.1 e.2 c' → R c c') : R c c.drain := by
  unfold drain
  generalize c.buffered.entries = entries at takes
  induction entries generalizing c with
  | nil => exact refl c
  | cons e rest ih =>
    have hrest := fun c => ih (c := c) fun e' he' => takes e' (List.mem_cons_of_mem _ he')
    unfold drainEntries
    split
    next => exact refl c
    next =>
      dsimp only
      split
      next => exact trans (drops c e.1) (hrest _)
      next =>
        refine trans (trans (drops c e.1) ?_) (hrest _)
        exact takes e (List.mem_cons_self ..) _ _ (applyDelta_taken _ e.1 e.2)

end lift

/-- What a call leaves as it was, if it is refused, has what the channel had. -/
theorem settled_lift {p : Channel → Prop} {r : Except ChannelFault Channel} (hc : p c) (h : ∀ c', r = .ok c' → p c') :
    p (c.settled r).2 := by
  cases r with
  | error e => exact hc
  | ok c' => exact h c' rfl

end Channel
end Coedit
