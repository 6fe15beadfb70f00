import Mathlib.Data.List.Forall2
import Coedit.Proofs.Queue.Revisions

/-!
# How local operations are rewritten

Local operations leave a queue in the order in which they entered it.  Meanwhile each operation of another session
that arrives rewrites them, and the server gives them their revisions.

* `Composite.Rewritten` — the same operations, in the same order, each as it is now;
* `Queue.record_eq_ok`, `Queue.send_eq_ok`, `Queue.receive_keeps` — calls that succeed;
* `Queue.Spoils` — calls that fail leave at most rewritten lists, and blame an operation rather than the queue.
-/

namespace Coedit

/-- The fault tells that the queue was driven out of sequence. -/
def Fault.queue? : Fault → Option QueueFault
  | .queue cause => some cause
  | _ => none

namespace Composite

variable [Lengths] {u v w : Composite} {us vs ws us' vs' : List Composite}

/-- The operation after it passed operations of others or was given a revision. -/
inductive Becomes (u : Composite) : Composite → Prop where
  | same : Becomes u u
  | passed {s s' v w : Composite} : Becomes u v → s.transform v = .ok (s', w) → Becomes u w
  | stamped {v : Composite} (revision : Nat) : Becomes u v → Becomes u (v.withRevision revision)

theorem Becomes.trans (h : u.Becomes v) (h' : v.Becomes w) : u.Becomes w := by
  induction h' with
  | same => exact h
  | passed _ ht ih => exact ih.passed ht
  | stamped revision _ ih => exact ih.stamped revision

instance : Std.Refl Becomes := ⟨fun _ => .same⟩

/-- The same operations, in the same order, as they are now. -/
def Rewritten (us vs : List Composite) : Prop := List.Forall₂ Becomes us vs

theorem Rewritten.refl (us : List Composite) : Rewritten us us := List.forall₂_refl us

theorem Rewritten.trans : ∀ {us vs ws : List Composite}, Rewritten us vs → Rewritten vs ws → Rewritten us ws
  | [], _, _, .nil, .nil => .nil
  | _ :: _, _, _, .cons h hs, .cons h' hs' => .cons (h.trans h') (Rewritten.trans hs hs')

theorem Rewritten.append (h : Rewritten us vs) (h' : Rewritten us' vs') : Rewritten (us ++ us') (vs ++ vs') :=
  List.rel_append h h'

theorem Rewritten.drop (h : Rewritten us vs) (n : Nat) : Rewritten (us.drop n) (vs.drop n) := List.forall₂_drop n h

theorem Rewritten.length_eq (h : Rewritten us vs) : us.length = vs.length := List.Forall₂.length_eq h

theorem Rewritten.eq_nil_iff (h : Rewritten us vs) : us = [] ↔ vs = [] := by
  rw [← List.length_eq_zero_iff, h.length_eq, List.length_eq_zero_iff]

/-- Operations of others rewrite the local ones that they pass, also when they get stuck on the way. -/
theorem passClients_rewrites (us : List Composite) (s : Composite) : Rewritten us (passClients s us).1 :=
  passClients_forall₂ (fun _ => .same) (fun ht => Becomes.same.passed ht) us s

end Composite

namespace Queue

open Composite (Rewritten)

variable [Lengths] {q q' : Queue Composite} {op : Composite} {batch : List Composite} {revision : Nat} {fault : Fault} {o : Origin}

/-! ## Calls that succeed -/

/-- A local operation is queued last. -/
theorem record_eq_ok (h : q.record op = (.ok (), q')) :
    ∃ serverOps op', (passServers op q.serverOps).2 = .ok op' ∧
      q' = { q with serverOps, queued := q.queued ++ [op'], fresh := true } := by
  unfold record at h
  cases hp : passServers op q.serverOps with
  | mk serverOps result =>
    rw [hp] at h
    cases result with
    | error e => cases (Prod.mk.inj h).1
    | ok op' => exact ⟨serverOps, op', rfl, (Prod.mk.inj h).2.symm⟩

theorem record_unacked (q : Queue Composite) (op : Composite) : (q.record op).2.unacked = q.unacked := by
  unfold record
  dsimp only
  split <;> rfl

def sent (q : Queue Composite) (batch : List Composite) : Queue Composite :=
  { q with queued := [], unacked := batch, fresh := false }

theorem send_eq_ok (h : q.send = (.ok batch, q')) : q.compacted = .ok batch ∧ q' = q.sent batch := by
  unfold send at h
  unfold compacted
  split at h
  next => cases h
  next =>
    split at h
    next => cases h
    next ops hops =>
      obtain ⟨hb, rfl⟩ := Prod.mk.inj h
      obtain rfl := Except.ok.inj hb
      exact ⟨hops, rfl⟩

omit [Lengths] in
/-- An expected echo is expected no more. -/
theorem takeEcho_eq_true (h : q.takeEcho revision = (.ok true, q')) :
    q.expectedAcks ≠ 0 ∧ q' = { q with expectedAcks := q.expectedAcks - 1 } := by
  unfold takeEcho at h
  split at h
  next => cases (Prod.mk.inj h).1
  next due =>
    dsimp only at h
    split at h
    next => exact ⟨due, (Prod.mk.inj h).2.symm⟩
    next => cases (Prod.mk.inj h).1

omit [Lengths] in
/-- An acknowledgement leaves the expected echoes alone. -/
theorem ackFirst_expectedAcks {done : Bool} (h : q.ackFirst revision = (.ok done, q')) :
    q'.expectedAcks = q.expectedAcks := by
  unfold ackFirst at h
  split at h
  next => cases h
  next =>
    split at h
    next => cases h
    next =>
      split at h
      next => cases h
      next =>
        obtain ⟨_, rfl⟩ := Prod.mk.inj h
        rfl

/-- An operation of another session rewrites what is in flight. -/
theorem receive_keeps (h : q.receive revision op = (.ok (), q')) :
    q'.expectedAcks = q.expectedAcks ∧ Rewritten q.unacked q'.unacked := by
  obtain ⟨unacked, op₁, queued, fresh, op₂, hu, rfl, _⟩ := receive_eq_ok h
  have hrewritten := Composite.passClients_rewrites q.unacked op
  rw [hu] at hrewritten
  exact ⟨rfl, hrewritten⟩

/-! ## Stamps -/

theorem Stamped.record (hs : q.Stamped o) (ho : op.origin = o) (h : q.record op = (.ok (), q')) : q'.Stamped o := by
  obtain ⟨serverOps, op', hp, rfl⟩ := record_eq_ok h
  refine ⟨hs.unacked, fun x hx => ?_, nofun⟩
  rcases List.mem_append.1 hx with hx | hx
  · exact hs.queued x hx
  · rw [List.mem_singleton.1 hx]
    exact (Composite.passServers_origin hp).trans ho

theorem Stamped.sent (hs : q.Stamped o) (h : q.compacted = .ok batch) :
    (q.sent batch).Stamped o ∧ batch.length ≤ 1 := by
  obtain ⟨ho, hlen⟩ := hs.compacted h
  exact ⟨⟨ho, fun _ h => absurd h List.not_mem_nil, fun _ => Nat.zero_le _⟩, hlen⟩

omit [Lengths] in
/-- Acknowledgements take operations out of flight. -/
theorem Stamped.acknowledge (hs : q.Stamped o) {us : List Composite} (hu : ∀ op ∈ us, op ∈ q.unacked)
    (revision expectedAcks : Nat) : Stamped o { q with revision, unacked := us, expectedAcks } :=
  ⟨fun op hop => hs.unacked op (hu op hop), hs.queued, hs.single⟩

/-! ## Calls that fail -/

/-- A call failed: lists were rewritten at most, and queued operations may be lost. -/
structure Spoils (q q' : Queue Composite) : Prop where
  revision : q'.revision = q.revision
  expectedAcks : q'.expectedAcks = q.expectedAcks
  unacked : Rewritten q.unacked q'.unacked

theorem Spoils.refl (q : Queue Composite) : q.Spoils q := ⟨rfl, rfl, .refl _⟩

theorem record_error (h : q.record op = (.error fault, q')) : q.Spoils q' ∧ fault.queue? = none := by
  unfold record at h
  dsimp only at h
  split at h
  next =>
    obtain ⟨hf, rfl⟩ := Prod.mk.inj h
    obtain rfl := Except.error.inj hf
    exact ⟨⟨rfl, rfl, .refl _⟩, rfl⟩
  next => cases h

theorem send_error (hu : q.unacked = []) (h : q.send = (.error fault, q')) : q.Spoils q' ∧ fault.queue? = none := by
  unfold send at h
  split at h
  next hne => simp [hu] at hne
  next =>
    split at h
    next =>
      obtain ⟨hf, rfl⟩ := Prod.mk.inj h
      obtain rfl := Except.error.inj hf
      exact ⟨⟨rfl, rfl, .refl _⟩, rfl⟩
    next => cases h

theorem passQueued_error (h : q.passQueued revision op = (.error fault, q')) :
    q.Spoils q' ∧ fault.queue? = none := by
  unfold passQueued at h
  split at h
  next => cases h
  next =>
    split at h
    next =>
      obtain ⟨hf, rfl⟩ := Prod.mk.inj h
      obtain rfl := Except.error.inj hf
      exact ⟨⟨rfl, rfl, .refl _⟩, rfl⟩
    next =>
      dsimp only at h
      split at h
      next =>
        obtain ⟨hf, rfl⟩ := Prod.mk.inj h
        obtain rfl := Except.error.inj hf
        exact ⟨⟨rfl, rfl, .refl _⟩, rfl⟩
      next => cases h

/-- In its turn, an operation of another session is refused only if it does not pass the local ones. -/
theorem receive_error (he : q.expectedAcks = 0) (h : q.receive (q.revision + 1) op = (.error fault, q')) :
    q.Spoils q' ∧ fault.queue? = none := by
  unfold receive at h
  rw [if_neg (by simp [he])] at h
  simp only [checkNext, Revisions.arithmetic_exact, Arithmetic.wrap_exact, if_true] at h
  have hrewritten := Composite.passClients_rewrites q.unacked op
  split at h
  next =>
    obtain ⟨hf, rfl⟩ := Prod.mk.inj h
    obtain rfl := Except.error.inj hf
    exact ⟨⟨rfl, rfl, hrewritten⟩, rfl⟩
  next =>
    obtain ⟨⟨hr, ha, hu⟩, hf⟩ := passQueued_error h
    exact ⟨⟨hr, ha, hrewritten.trans hu⟩, hf⟩

end Queue
end Coedit
