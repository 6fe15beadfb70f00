import Coedit.Proofs.Queue.Batch

/-!
# Revisions of a queue

A queue advances its revision in three ways: it receives an operation of another session, it acknowledges the oldest
operation in flight, or it acknowledges the whole batch.  Nothing else moves the revision, and what waits for delivery
keeps the revisions it came with, however often it is rewritten, until it is taken from the front.

* `Queue.Still` — a call that moves nothing, as every refused one is;
* `Queue.receive_revision` — an operation of another session is put up for delivery under the next revision;
* `Queue.ackFirst_revision`, `Queue.ackAll?_revision` — acknowledgements account for the next revisions.
-/

namespace Coedit

namespace Composite

variable [Lengths] {c c' s s' : Composite}

theorem transform_revision (h : s.transform c = .ok (s', c')) : s'.revision = s.revision := by
  obtain ⟨p, _, hp⟩ := map_eq_ok.1 h
  obtain ⟨rfl, rfl⟩ := Prod.mk.inj hp
  rfl

theorem passClients_revision : ∀ {cs : List Composite} {s s' : Composite}, (passClients s cs).2 = .ok s' →
    s'.revision = s.revision
  | [], _, _, h => by
    cases h
    rfl
  | c :: cs, s, s', h => by
    simp only [passClients] at h
    split at h
    next => cases h
    next s₁ c' ht =>
      have ht : s.transform c = .ok (s₁, c') := ht
      exact (passClients_revision h).trans (transform_revision ht)

theorem passServers_revision (ss : List Composite) (c : Composite) :
    (passServers c ss).1.map (·.revision) = ss.map (·.revision) :=
  map_eq_of_forall₂ (passServers_forall₂ (R := fun s s' => s'.revision = s.revision) (fun _ => rfl)
    (fun ht => transform_revision ht) ss c)

end Composite

namespace Queue

variable [Lengths] {q q' : Queue Composite} {op : Composite} {ops : List Composite} {revision head : Nat} {e : Fault}
  {done : Bool}

/-- The revisions of the operations that wait for delivery, the oldest first. -/
def undelivered (q : Queue Composite) : List (Option Nat) := q.serverOps.map (·.revision)

/-- Nothing was accounted for, put up for delivery or taken. -/
structure Still (q q' : Queue Composite) : Prop where
  revision : q'.revision = q.revision
  undelivered : q'.undelivered = q.undelivered

omit [Lengths] in
@[refl] theorem Still.refl (q : Queue Composite) : q.Still q := ⟨rfl, rfl⟩

/-! ## Calls that move nothing -/

/-- A local edit rewrites what waits for delivery, whether it fits or not. -/
theorem record_still (q : Queue Composite) (op : Composite) : q.Still (q.record op).2 := by
  have hs := Composite.passServers_revision q.serverOps op
  unfold record
  dsimp only
  split
  next => exact ⟨rfl, hs⟩
  next => exact ⟨rfl, hs⟩

theorem send_still (q : Queue Composite) : q.Still q.send.2 := by
  unfold send
  split
  next => rfl
  next => split <;> exact ⟨rfl, rfl⟩

omit [Lengths] in
theorem takeEcho_still (q : Queue Composite) (revision : Nat) : q.Still (q.takeEcho revision).2 := by
  unfold takeEcho
  split
  next => rfl
  next =>
    dsimp only
    split <;> exact ⟨rfl, rfl⟩

theorem passQueued_still (h : q.passQueued revision op = (.error e, q')) : q.Still q' := by
  unfold passQueued at h
  split at h
  next => cases h
  next =>
    split at h
    next =>
      obtain ⟨_, rfl⟩ := Prod.mk.inj h
      exact ⟨rfl, rfl⟩
    next =>
      dsimp only at h
      split at h
      next =>
        obtain ⟨_, rfl⟩ := Prod.mk.inj h
        exact ⟨rfl, rfl⟩
      next => cases h

/-- An operation of another session that is refused has at most rewritten local ones. -/
theorem receive_still (h : q.receive revision op = (.error e, q')) : q.Still q' := by
  unfold receive at h
  split at h
  next =>
    obtain ⟨_, rfl⟩ := Prod.mk.inj h
    rfl
  next =>
    split at h
    next =>
      obtain ⟨_, rfl⟩ := Prod.mk.inj h
      rfl
    next =>
      dsimp only at h
      split at h
      next =>
        obtain ⟨_, rfl⟩ := Prod.mk.inj h
        exact ⟨rfl, rfl⟩
      next =>
        obtain ⟨hr, hu⟩ := passQueued_still h
        exact ⟨hr, hu⟩

omit [Lengths] in
/-- An acknowledgement that is refused changes nothing. -/
theorem ackFirst_error (h : q.ackFirst revision = (.error e, q')) : q' = q := by
  unfold ackFirst at h
  split at h
  next => exact (Prod.mk.inj h).2.symm
  next =>
    split at h
    next => exact (Prod.mk.inj h).2.symm
    next =>
      split at h
      next => exact (Prod.mk.inj h).2.symm
      next => cases h

/-! ## Calls that account for revisions -/

omit [Lengths] in
theorem checkNext_eq_ok (h : q.checkNext revision = .ok ()) : revision = q.revision + 1 := by
  unfold checkNext at h
  split at h
  next hr => exact hr
  next => cases h

/-- An operation of another session is taken in under the next revision, and waits for delivery under its own. -/
theorem receive_revision (h : q.receive revision op = (.ok (), q')) :
    revision = q.revision + 1 ∧ q'.revision = revision ∧ q'.undelivered = q.undelivered ++ [op.revision] := by
  have hnext : revision = q.revision + 1 := by
    unfold receive at h
    split at h
    next => cases h
    next =>
      split at h
      next => cases h
      next hr => exact checkNext_eq_ok hr
  obtain ⟨unacked, op₁, queued, fresh, op₂, hu, rfl, hq⟩ := receive_eq_ok h
  have h₁ : op₁.revision = op.revision := Composite.passClients_revision (congrArg Prod.snd hu)
  have h₂ : op₂.revision = op₁.revision := by
    rcases hq with ⟨_, _, rfl⟩ | ⟨ops, _, hp, _⟩
    · rfl
    · exact Composite.passClients_revision (congrArg Prod.snd hp)
  refine ⟨hnext, rfl, ?_⟩
  show (q.serverOps ++ [op₂]).map (·.revision) = _
  rw [List.map_append, List.map_singleton, h₂, h₁]
  rfl

omit [Lengths] in
/-- The acknowledgement of the oldest operation in flight accounts for the next revision. -/
theorem ackFirst_revision (h : q.ackFirst revision = (.ok done, q')) :
    revision = q.revision + 1 ∧ q'.revision = revision ∧ q'.undelivered = q.undelivered := by
  unfold ackFirst at h
  split at h
  next => cases h
  next =>
    split at h
    next => cases h
    next =>
      split at h
      next => cases h
      next hr =>
        obtain ⟨_, rfl⟩ := Prod.mk.inj h
        exact ⟨checkNext_eq_ok hr, rfl, rfl⟩

omit [Lengths] in
/-- The acknowledgement of the batch accounts for one revision for each of its operations. -/
theorem ackAll?_revision (h : q.ackAll? head = (some ops, q')) :
    q'.revision = q.revision + ops.length ∧ q'.undelivered = q.undelivered := by
  unfold ackAll? at h
  split at h
  next => cases h
  next hmiss =>
    obtain ⟨hops, rfl⟩ := Prod.mk.inj h
    obtain rfl := Option.some.inj hops
    simp only [Bool.or_eq_true, bne_iff_ne, not_or, not_not] at hmiss
    exact ⟨hmiss.2, rfl⟩

omit [Lengths] in
/-- Delivery takes what waited longest. -/
theorem pop_undelivered (q : Queue Composite) :
    q.undelivered = q.pop.1.toList.map (·.revision) ++ q.pop.2.undelivered := by
  unfold undelivered pop
  cases q.serverOps <;> rfl

end Queue
end Coedit
