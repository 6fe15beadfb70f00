import Coedit.Channel.Run
import Coedit.Proofs.Channel.Calls

/-!
# When a batch is submitted again

After a failure the server may or may not have applied the batch in flight, so the channel asks for the head revision
before it submits the batch again.  It does not wait for the answer, though: any delta that leaves it in step with the
head it knows of makes it submit, even one that tells nothing new.  What the server applied meanwhile may then be
applied once more.

* `Channel.resubmits_iff` — the calls that submit a batch again, and when they do;
* `Channel.resubmitsInformed_iff` — the runs in which the server was always heard before;
* `Channel.not_resubmitsInformed_repeated` — a run in which it was not.
-/

namespace Coedit

namespace Queue

variable {q : Queue Composite}

/-! ## Nothing is put in flight by deltas -/

theorem takeEcho_unacked (q : Queue Composite) (revision : Nat) : (q.takeEcho revision).2.unacked = q.unacked := by
  unfold takeEcho
  split
  next => rfl
  next =>
    dsimp only
    split <;> rfl

theorem passQueued_unacked [Lengths] (q : Queue Composite) (revision : Nat) (op : Composite) :
    (q.passQueued revision op).2.unacked = q.unacked := by
  unfold passQueued
  split
  next => rfl
  next =>
    split
    next => rfl
    next =>
      dsimp only
      split <;> rfl

theorem receive_unacked [Lengths] (hu : q.unacked = []) (revision : Nat) (op : Composite) :
    (q.receive revision op).2.unacked = [] := by
  unfold receive
  rw [hu]
  split
  next => exact hu
  next =>
    split
    next => exact hu
    next => rw [passClients]; exact passQueued_unacked ..

end Queue

namespace Channel

variable {c c' c'' d : Channel} {q : Queue Composite} {op : Composite} {x : Call} {calls : List Call}

/-! ## Calls that submit nothing -/

theorem command_submissions (c : Channel) {y : Command} (h : y.submission? = none) :
    (c.command y).submissions = c.submissions := by
  show (c.commands ++ [y]).filterMap Command.submission? = _
  rw [List.filterMap_append, List.filterMap_cons, h]
  exact List.append_nil _

@[simp] theorem settle_submissions (c : Channel) : c.settle.submissions = c.submissions := by
  simp only [settle, scheduleSend_submissions, enter_submissions]
  rfl

@[simp] theorem disconnect_submissions (c : Channel) : c.disconnect.submissions = c.submissions := by
  unfold disconnect
  split
  next => exact command_submissions _ rfl
  next => rfl

@[simp] theorem fail_submissions (c : Channel) (fault : Fault) : (c.fail fault).submissions = c.submissions :=
  disconnect_submissions _

theorem handleFailure_submissions (c : Channel) (fault : Fault) :
    (c.handleFailure fault).submissions = c.submissions := by
  unfold handleFailure
  split
  next => exact fail_submissions c fault
  next => exact (command_submissions _ rfl).trans (enter_submissions _ _)

theorem connect_submissions {revision : Nat} (h : c.connect revision = .ok c') : c'.submissions = c.submissions := by
  obtain rfl := connect_eq_ok h
  exact (enter_submissions _ _).trans (command_submissions _ rfl)

theorem submit_submissions [Lengths] (h : c.submit op = .ok c') : c'.submissions = c.submissions := by
  obtain ⟨result, q, _, rfl | ⟨fault, rfl⟩⟩ := submit_eq_ok h
  · exact scheduleSend_submissions _
  · exact fail_submissions _ _

theorem endCompound_submissions (h : c.endCompound = .ok c') : c'.submissions = c.submissions := by
  rcases endCompound_eq_ok h with rfl | rfl
  · rfl
  · exact scheduleSend_submissions _

/-- No new batch is sent while one is in flight. -/
theorem flush_submissions [Lengths] (hu : c.queue.unacked ≠ []) : c.flush.submissions = c.submissions := by
  have hmay : ({ c with sendScheduled := false }.maySend) = false := by
    simp [maySend, List.isEmpty_eq_false_iff.2 hu]
  unfold flush
  dsimp only
  rw [hmay]
  rfl

/-! ## Taking in deltas -/

/-- Deltas were taken in: nothing was submitted or put in flight, and the channel waits for the head only if it did. -/
structure Absorbs (c c' : Channel) : Prop where
  submissions : c'.submissions = c.submissions
  waiting : c'.phase = .waitingSync → c.phase = .waitingSync
  unacked : c.queue.unacked = [] → c'.queue.unacked = []

theorem Absorbs.refl (c : Channel) : Absorbs c c := ⟨rfl, id, id⟩

theorem Absorbs.trans (h : Absorbs c c') (h' : Absorbs c' c'') : Absorbs c c'' :=
  ⟨h'.submissions.trans h.submissions, fun hp => h.waiting (h'.waiting hp), fun hu => h'.unacked (h.unacked hu)⟩

theorem queue_absorbs (h : c.queue.unacked = [] → q.unacked = []) : Absorbs c { c with queue := q } :=
  ⟨rfl, id, h⟩

theorem settle_absorbs (c : Channel) : Absorbs c c.settle where
  submissions := settle_submissions c
  waiting hp := by
    rw [settle, scheduleSend_phase, enter_phase] at hp
    cases hp
  unacked hu := by rw [settle_queue, hu]

theorem fail_absorbs (c : Channel) (fault : Fault) : Absorbs c (c.fail fault) where
  submissions := fail_submissions c fault
  waiting hp := by
    unfold fail disconnect at hp
    split at hp
    next => cases hp
    next => exact hp
  unacked hu := by
    unfold fail disconnect
    split <;> exact hu

section lengths
variable [Lengths]

/-- An echo was in flight, and an operation of another session adds nothing to what is. -/
theorem Taken.absorbs {revision : Nat} (h : c.Taken revision op c') : Absorbs c c' := by
  have hecho := c.queue.takeEcho_unacked revision
  have hreceive := fun hu => c.queue.receive_unacked hu revision op
  cases h with
  | refused fault => exact fail_absorbs c fault
  | conflict result =>
    rw [result] at hreceive
    exact (queue_absorbs hreceive).trans (fail_absorbs _ _)
  | echo result =>
    rw [result] at hecho
    exact queue_absorbs fun hu => hecho.trans hu
  | acked _ first _ => exact ⟨rfl, id, fun hu => by simp [hu] at first⟩
  | settled _ first _ _ =>
    refine Absorbs.trans ?_ (settle_absorbs _)
    exact ⟨rfl, id, fun hu => by simp [hu] at first⟩
  | received _ result =>
    rw [result] at hreceive
    exact ⟨rfl, id, hreceive⟩

theorem drain_absorbs (c : Channel) : Absorbs c c.drain :=
  drain_lift (R := Absorbs) .refl .trans (fun _ _ => ⟨rfl, id, id⟩) fun _ _ _ _ h => h.absorbs

theorem buffer_drain_absorbs (c : Channel) (m : DeltaMessage) : Absorbs c (c.buffer m).drain := by
  have hkept : Absorbs c (c.buffer m) := buffer_lift (R := Absorbs) .refl .trans c m fun _ _ _ => ⟨rfl, id, id⟩
  exact hkept.trans (drain_absorbs _)

/-! ## Submitting again -/

def submitted (c : Channel) (x : Call) : List DeltaRequest := (c.perform x).2.submissions.drop c.submissions.length

/-- The call submits something while a batch is in flight. -/
def Resubmits (c : Channel) (x : Call) : Prop := c.queue.unacked ≠ [] ∧ c.submitted x ≠ []

/-- The channel waits for the head, is in step with the one it knows of, and a batch is in flight. -/
def Resumes (c : Channel) : Prop :=
  c.phase = .waitingSync ∧ c.knownHead ≤ c.queue.revision ∧ c.queue.unacked ≠ []

/-- Whether the call is the reply that the channel waits for in `waitingSync`. -/
def answers (c : Channel) : Call → Bool
  | .revisionReply version _ => c.isCurrent version && c.phase == .waitingSync
  | _ => false

/-- The channel once it has taken in the deltas that a call brings. -/
def caughtUp? (c : Channel) : Call → Option Channel
  | .delta m => if c.isConnected then some (c.buffer m).drain else none
  | .revisionReply version m =>
    if c.answers (.revisionReply version m) then
      some ({ c with knownHead := max c.knownHead m.revision }.buffer m).drain
    else none
  | _ => none

theorem caughtUp?_eq_some (h : c.caughtUp? x = some d) : (c.perform x).2 = d.checkSynced ∧ Absorbs c d := by
  cases x with
  | delta m =>
    rw [caughtUp?] at h
    split at h
    next hconn =>
      obtain rfl := Option.some.inj h
      exact ⟨if_pos hconn, buffer_drain_absorbs c m⟩
    next => cases h
  | revisionReply version m =>
    rw [caughtUp?] at h
    split at h
    next hanswers =>
      obtain rfl := Option.some.inj h
      have hknown : Absorbs c { c with knownHead := max c.knownHead m.revision } := ⟨rfl, id, id⟩
      exact ⟨if_pos hanswers, hknown.trans (buffer_drain_absorbs _ m)⟩
    next => cases h
  | _ => cases h

omit [Lengths] in
theorem settled_submissions {r : Except ChannelFault Channel} (h : ∀ c', r = .ok c' → c'.submissions = c.submissions) :
    (c.settled r).2.submissions = c.submissions :=
  settled_lift (p := fun d => d.submissions = c.submissions) rfl h

/-- A call that brings no deltas submits nothing while a batch is in flight. -/
theorem perform_submissions (h : c.caughtUp? x = none) (hu : c.queue.unacked ≠ []) :
    (c.perform x).2.submissions = c.submissions := by
  cases x with
  | connect revision => exact settled_submissions fun _ => connect_submissions
  | disconnect => exact disconnect_submissions c
  | submit op => exact settled_submissions fun _ => submit_submissions
  | beginCompound => rfl
  | endCompound => exact settled_submissions fun _ => endCompound_submissions
  | flush => exact flush_submissions hu
  | submitAcked version head =>
    show (c.submitAcked version head).submissions = _
    unfold submitAcked
    split
    next =>
      dsimp only
      split
      next => rfl
      next => exact (drain_absorbs _).submissions.trans (settle_submissions _)
    next => rfl
  | submitFailed version fault =>
    show (c.submitFailed version fault).submissions = _
    unfold submitFailed
    split
    next => exact handleFailure_submissions c fault
    next => rfl
  | delta m =>
    rw [caughtUp?] at h
    split at h
    next => cases h
    next hconn =>
      show (c.delta m).submissions = _
      rw [Channel.delta, if_neg hconn]
  | resyncTimer version =>
    show (c.resyncTimer version).submissions = _
    unfold resyncTimer
    split
    next => exact (command_submissions _ rfl).trans (enter_submissions _ _)
    next => rfl
  | revisionReply version m =>
    rw [caughtUp?] at h
    split at h
    next => cases h
    next hanswers => exact congrArg submissions (if_neg hanswers)
  | revisionFailed version fault =>
    show (c.revisionFailed version fault).submissions = _
    unfold revisionFailed
    split
    next => exact handleFailure_submissions c fault
    next => rfl
  | receive => rfl

omit [Lengths] in
theorem checkSynced_of_resumes (h : d.Resumes) : d.checkSynced = d.submitBatch.enter .waitingAck := by
  obtain ⟨hphase, hhead, hu⟩ := h
  unfold checkSynced
  rw [if_neg (by simp [hphase, hhead]), if_neg (by simp [hu])]

omit [Lengths] in
theorem checkSynced_submissions (h : ¬ d.Resumes) : d.checkSynced.submissions = d.submissions := by
  unfold checkSynced
  split
  next => rfl
  next hstays =>
    split
    next => exact settle_submissions d
    next hu =>
      simp only [Bool.or_eq_true, bne_iff_ne, decide_eq_true_eq, not_or, not_not, Nat.not_lt] at hstays
      rw [List.isEmpty_iff] at hu
      exact absurd ⟨hstays.1, hstays.2, hu⟩ h

/-- A batch is submitted again by a call that brings deltas, and only if they leave the channel in step. -/
theorem resubmits_iff : c.Resubmits x ↔ ∃ d, c.caughtUp? x = some d ∧ d.Resumes := by
  constructor
  · rintro ⟨hu, hsubmitted⟩
    cases hd : c.caughtUp? x with
    | none =>
      refine absurd ?_ hsubmitted
      rw [submitted, perform_submissions hd hu, List.drop_length]
    | some d =>
      obtain ⟨hperform, habsorbs⟩ := caughtUp?_eq_some hd
      refine ⟨d, rfl, ?_⟩
      by_contra hresumes
      refine hsubmitted ?_
      rw [submitted, hperform, checkSynced_submissions hresumes, habsorbs.submissions, List.drop_length]
  · rintro ⟨d, hd, hresumes⟩
    obtain ⟨hperform, habsorbs⟩ := caughtUp?_eq_some hd
    refine ⟨fun hu => hresumes.2.2 (habsorbs.unacked hu), ?_⟩
    rw [submitted, hperform, checkSynced_of_resumes hresumes, enter_submissions, submitBatch_submissions,
      habsorbs.submissions, List.drop_left]
    exact List.cons_ne_nil _ _

/-! ## Runs -/

/-- Whether the reply was handled since the channel last entered `waitingSync`, if `told` says so of what came before
the calls. -/
def informed (c : Channel) (told : Bool) : List Call → Bool
  | [] => told
  | x :: calls =>
    let next := (c.perform x).2
    next.informed (next.phase == .waitingSync && (told || c.answers x)) calls

/-- Before a batch is submitted again the server was always asked for its head and answered. -/
def ResubmitsInformed (c : Channel) (calls : List Call) : Prop :=
  ∀ before x after, calls = before ++ x :: after → (c.run before).Resubmits x →
    (c.informed false before || (c.run before).answers x) = true

/-- **What makes a channel submit a batch again unasked.** The server is always heard first in just those runs in which
no delta that arrives before the reply finds the channel in step with the head it knows of. -/
theorem resubmitsInformed_iff : c.ResubmitsInformed calls ↔
    ∀ before m after, calls = before ++ .delta m :: after → c.informed false before = false →
      ¬ ((c.run before).buffer m).drain.Resumes := by
  constructor
  · intro h before m after hcalls htold hresumes
    -- taking in deltas never starts the waiting, so the channel was connected and waited before
    have hwaiting := (buffer_drain_absorbs (c.run before) m).waiting hresumes.1
    have hconn : (c.run before).isConnected = true := by
      rw [isConnected, hwaiting]
      rfl
    have hcaught : (c.run before).caughtUp? (.delta m) = some ((c.run before).buffer m).drain := if_pos hconn
    have hinformed := h before _ after hcalls (resubmits_iff.2 ⟨_, hcaught, hresumes⟩)
    rw [htold] at hinformed
    cases hinformed
  · intro h before x after hcalls hresubmits
    obtain ⟨d, hd, hresumes⟩ := resubmits_iff.1 hresubmits
    cases x with
    | delta m =>
      rw [caughtUp?] at hd
      split at hd
      next =>
        obtain rfl := Option.some.inj hd
        rw [Bool.or_eq_true]
        refine .inl ?_
        by_contra htold
        exact h before m after hcalls (Bool.eq_false_iff.2 htold) hresumes
      next => cases hd
    | revisionReply version m =>
      rw [caughtUp?] at hd
      split at hd
      next hanswers => rw [hanswers, Bool.or_true]
      next => cases hd
    | _ => cases hd

end lengths

/-- What another session did at revision 6. -/
def repeated : DeltaMessage :=
  ⟨⟨"remote"⟩, ⟨"them"⟩, 6, [.ofComponents [⟨⟨"body"⟩, .text (.insertAt 0 0 ['x'])⟩]]⟩

/-- An edit is sent, sending it fails, and after the backoff the channel asks for the head. -/
def unanswered : List Call :=
  [.connect 5, .delta repeated, .receive, .submit (.ofComponents [⟨⟨"body"⟩, .text (.insertAt 1 0 ['a'])⟩]),
    .flush, .submitFailed 0 (.transport "timeout" false), .resyncTimer 1]

/-- A delta that was taken in long before makes the channel submit the batch again, although nothing answered. -/
theorem not_resubmitsInformed_repeated :
    ¬ (new ⟨"doc"⟩ ⟨"me"⟩ ⟨"local"⟩ {}).ResubmitsInformed (unanswered ++ [.delta repeated]) := by
  intro h
  have hresumes : ((((new ⟨"doc"⟩ ⟨"me"⟩ ⟨"local"⟩ {}).run unanswered).buffer repeated).drain).Resumes :=
    ⟨by decide +kernel, by decide +kernel, List.isEmpty_eq_false_iff.1 (by decide +kernel)⟩
  have hinformed := h unanswered (.delta repeated) [] rfl (resubmits_iff.2 ⟨_, if_pos (by decide +kernel), hresumes⟩)
  exact absurd hinformed (by decide +kernel)

end Channel
end Coedit
