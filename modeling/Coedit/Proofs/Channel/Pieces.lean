import Coedit.Proofs.Channel.Stages

/-!
# Calls, piece by piece

The calls of a channel are put together of the same few pieces: something is told, a command is listed, a send is
scheduled, the connection ends.  What holds across each of the pieces holds across every call, as nothing more is done
once the connection has ended.

* `Channel.Piecewise` — what has to be shown of the pieces;
* `Channel.Piecewise.perform`, `Channel.Piecewise.flush` — what follows for calls.
-/

namespace Coedit

def Event.isFatal : Event → Bool
  | .error _ fatal => fatal
  | _ => false

/-- The command sets the send timer or stops it. -/
def Command.setsSendTimer : Command → Bool
  | .scheduleSend _ | .unsubscribe _ => true
  | _ => false

namespace Channel

theorem ackEvents_mild (clean : Bool) : ∀ (ops : List Composite) (first : Nat),
    ∀ e ∈ ackEvents clean first ops, e.isFatal = false
  | [], _ => fun _ he => absurd he List.not_mem_nil
  | [_], _ => List.forall_mem_singleton.2 rfl
  | _ :: op' :: ops, first => List.forall_mem_cons.2 ⟨rfl, ackEvents_mild clean (op' :: ops) (first + 1)⟩

/-! ## Where nothing more is done -/

variable {c c' m : Channel} {x : Call} {op : Composite} {revision : Nat}

theorem Draining.eq_of_closed {ds : List Channel} (h : Draining c ds c') (hclosed : c.isConnected = false) :
    c' = c := by
  cases h with
  | stops => rfl
  | drops connected | takes connected => exact absurd (connected.symm.trans hclosed) nofun

theorem checkSynced_of_closed (h : c.isConnected = false) : c.checkSynced = c := by
  have hphase : c.phase = .uninitialized := by simpa [isConnected] using h
  exact if_pos (by simp [hphase])

/-! ## Pieces -/

/-- `M` holds across the pieces that leave the connection alone, and `R` also across those that end it. -/
structure Piecewise (M R : Channel → Channel → Prop) : Prop where
  trans {c m c' : Channel} : M c m → M m c' → M c c'
  /-- Nothing is told, listed or scheduled. -/
  same {c c' : Channel} : c'.events = c.events → c'.commands = c.commands → c'.sendScheduled = c.sendScheduled → M c c'
  told (c : Channel) {es : List Event} : (∀ e ∈ es, e.isFatal = false) → M c { c with events := c.events ++ es }
  listed (c : Channel) {y : Command} : y.setsSendTimer = false → M c (c.command y)
  scheduleSend (c : Channel) : M c c.scheduleSend
  lift {c c' : Channel} : M c c' → R c c'
  before {c m c' : Channel} : M c m → R m c' → R c c'
  after {c m c' : Channel} : R c m → (m.isConnected = false → c' = m) → R m c' → R c c'
  disconnect (c : Channel) : R c c.disconnect
  fail (c : Channel) (fault : Fault) : R c (c.fail fault)

namespace Piecewise

variable {M R : Channel → Channel → Prop} (h : Piecewise M R)
include h

theorem refl (c : Channel) : M c c := h.same rfl rfl rfl

theorem event (c : Channel) {e : Event} (he : e.isFatal = false) : M c (c.event e) :=
  h.told c (List.forall_mem_singleton.2 he)

theorem enter (c : Channel) (phase : Phase) : M c (c.enter phase) := by
  have hentered : M c { c with phase } := h.same rfl rfl rfl
  unfold Channel.enter
  split
  next => exact h.refl c
  next =>
    dsimp only
    split
    next => exact h.trans hentered (h.event _ rfl)
    next => exact hentered

theorem settle (c : Channel) : M c c.settle := by
  have hreset : M c { c with retryAttempt := 0 } := h.same rfl rfl rfl
  exact h.trans (h.trans hreset (h.enter _ _)) (h.scheduleSend _)

theorem submitBatch (c : Channel) : M c (c.submitBatch.enter .waitingAck) :=
  h.trans (h.listed c rfl) (h.enter _ _)

theorem handleFailure (c : Channel) (fault : Fault) : R c (c.handleFailure fault) := by
  unfold Channel.handleFailure
  split
  next => exact h.fail c fault
  next =>
    have hretry : M c { c with
        retryAttempt := min (c.retryAttempt + 1) attemptLimit
        retryVersion := c.retryVersion + 1 } := h.same rfl rfl rfl
    exact h.lift (h.trans (h.trans (h.trans hretry (h.event _ rfl)) (h.enter _ .delayResync)) (h.listed _ rfl))

/-! ## Deltas -/

theorem taken (ht : c.Taken revision op c') : R c c' := by
  have requeued (q : Queue Composite) : M c { c with queue := q } := h.same rfl rfl rfl
  cases ht with
  | refused fault => exact h.fail c fault
  | conflict => exact h.before (requeued _) (h.fail _ _)
  | echo => exact h.lift (requeued _)
  | acked | received => exact h.lift (h.trans (requeued _) (h.event _ rfl))
  | settled => exact h.lift (h.trans (h.trans (requeued _) (h.event _ rfl)) (h.settle _))

theorem draining {ds : List Channel} (hd : Draining c ds c') : R c c' := by
  induction hd with
  | stops => exact h.lift (h.refl _)
  | @drops c _ revision _ _ _ _ ih =>
    have herased : M c { c with buffered := c.buffered.erase revision } := h.same rfl rfl rfl
    exact h.before herased ih
  | @takes c _ op _ _ _ rest ih =>
    have herased : M c { c with buffered := c.buffered.erase (c.floor + 1) } := h.same rfl rfl rfl
    exact h.before herased (h.after (h.taken (applyDelta_taken _ _ _)) rest.eq_of_closed ih)

theorem drain (c : Channel) : R c c.drain := h.draining (drain_draining c)

theorem buffer (c : Channel) (m : DeltaMessage) : M c (c.buffer m) :=
  buffer_lift h.refl h.trans c m fun _ _ _ => h.same rfl rfl rfl

theorem checkSynced (c : Channel) : M c c.checkSynced := by
  unfold Channel.checkSynced
  split
  next => exact h.refl c
  next =>
    split
    next => exact h.settle c
    next => exact h.submitBatch c

/-! ## Calls -/

/-- The send timer has gone off before a flush. -/
theorem flush (c : Channel) : R { c with sendScheduled := false } c.flush := by
  unfold Channel.flush
  dsimp only
  split
  next =>
    have hsent (q : Queue Composite) :
        M { c with sendScheduled := false } { c with sendScheduled := false, queue := q } := h.same rfl rfl rfl
    split
    next => exact h.before (hsent _) (h.fail _ _)
    next =>
      split
      next => exact h.lift (h.trans (hsent _) (h.event _ rfl))
      next => exact h.lift (h.trans (hsent _) (h.submitBatch _))
  next => exact h.lift (h.refl _)

theorem opens (ho : Opens c x m) : M c m := by
  cases ho with
  | delta => exact h.buffer c _
  | @replied _ message =>
    have hknown : M c { c with knownHead := max c.knownHead message.revision } := h.same rfl rfl rfl
    exact h.trans hknown (h.buffer _ message)
  | acked =>
    let head := c.queue.revision + c.queue.unacked.length
    have hqueue : M c { c.acknowledgeAll head with events := c.events } := h.same rfl rfl rfl
    have htold : M c (c.acknowledgeAll head) := h.trans hqueue (h.told _ (ackEvents_mild _ _ _))
    exact h.trans htold (h.settle _)

theorem direct (hd : Direct c x c') (hx : x ≠ .flush) : R c c' := by
  cases hd with
  | ignored => exact h.lift (h.refl c)
  | @connected _ revision result =>
    have hfresh : M c { c with queue := .new revision, knownHead := revision, retryAttempt := 0 } := h.same rfl rfl rfl
    rw [connect_eq_ok result]
    exact h.lift (h.trans (h.trans hfresh (h.listed _ rfl)) (h.enter _ _))
  | disconnected => exact h.disconnect c
  | submitted result =>
    have hrecorded (q : Queue Composite) : M c { c with queue := q } := h.same rfl rfl rfl
    obtain ⟨result, q, _, rfl | ⟨fault, rfl⟩⟩ := submit_eq_ok result
    · exact h.lift (h.trans (hrecorded q) (h.scheduleSend _))
    · exact h.before (hrecorded q) (h.fail _ fault)
  | began | heard | received => exact h.lift (h.same rfl rfl rfl)
  | ended result =>
    have hclosed : M c { c with compoundDepth := c.compoundDepth - 1 } := h.same rfl rfl rfl
    rcases endCompound_eq_ok result with rfl | rfl
    · exact h.lift hclosed
    · exact h.lift (h.trans hclosed (h.scheduleSend _))
  | flushed => exact absurd rfl hx
  | failed => exact h.handleFailure c _
  | waited => exact h.lift (h.trans (h.enter c .waitingSync) (h.listed _ rfl))

/-- What holds across the pieces holds across every call, a flush apart. -/
theorem perform (c : Channel) (hx : x ≠ .flush) : R c (c.perform x).2 := by
  cases hd : c.drains? x with
  | none => exact h.direct (perform_direct hd) hx
  | some m =>
    obtain ⟨hopens, hresult⟩ := drains?_opens hd
    have hdrained : R c m.drain := h.before (h.opens hopens) (h.drain m)
    rcases hresult with hsame | hsynced
    · rwa [hsame]
    · rw [hsynced]
      exact h.after hdrained checkSynced_of_closed (h.lift (h.checkSynced _))

end Piecewise

end Channel
end Coedit
