import Coedit.Proofs.Calculus

/-!
# Balanced queues

A queue stands between the value of its client and the value of the server.  It is balanced if the local
operations, those in flight and then those queued, lead from the server's value to the same value as the
undelivered remote operations lead to from the client's.

Every call of a queue keeps the balance while one of the two values takes the step that the call is about,
and none of the calls fails, as long as what has been added to the values fits.
-/

namespace Coedit

variable {ω τ : Type} [Operation ω τ] [L : Lengths]

/-- Local operations from the server's value `y` and undelivered ones from the client's value `x` meet, and either value
has room for what fits beyond `length`. -/
structure Calculus.Balanced (K : Calculus ω τ) (length : Nat) (q : Queue ω) (x y : τ) : Prop where
  meet : ∃ z, K.Chain (q.unacked ++ q.queued) y z ∧ K.Chain q.serverOps x z
  clientRoom : ∀ n, L.arithmetic.Fits (length + n) → K.Room (K.costs q.serverOps + n) x
  serverRoom : ∀ n, L.arithmetic.Fits (length + n) → K.Room (K.costs (q.unacked ++ q.queued) + n) y

namespace Calculus.Balanced

variable {K : Calculus ω τ} {length : Nat} {q q' : Queue ω} {x x' y y' : τ}

theorem same_client (h : K.Balanced length q x y) : K.Same x x :=
  let ⟨_, _, hr⟩ := h.meet
  hr.left

theorem same_server (h : K.Balanced length q x y) : K.Same y y :=
  let ⟨_, hl, _⟩ := h.meet
  hl.left

theorem congr (h : K.Balanced length q x y) (hx : K.Same x x') (hy : K.Same y y') : K.Balanced length q x' y' := by
  obtain ⟨⟨z, hl, hr⟩, hc, hs⟩ := h
  exact ⟨⟨z, hl.congr_left hy, hr.congr_left hx⟩, fun n hn => K.room_same hx (hc n hn),
    fun n hn => K.room_same hy (hs n hn)⟩

/-- Revisions and expected echoes do not matter. -/
theorem of_lists (h : K.Balanced length q x y) (hu : q'.unacked = q.unacked) (hq : q'.queued = q.queued)
    (hs : q'.serverOps = q.serverOps) : K.Balanced length q' x y := by
  obtain ⟨hm, hc, hr⟩ := h
  rw [← hu, ← hq] at hm hr
  rw [← hs] at hm hc
  exact ⟨hm, hc, hr⟩

end Calculus.Balanced

namespace Queue

/-- The queued operations as they are sent or passed: compacted, if a local one was recorded since they last
were. -/
def compacted (q : Queue ω) : Except ComposeFault (List ω) :=
  if q.fresh then compact q.queued else .ok q.queued

variable {K : Calculus ω τ} {length : Nat} {q : Queue ω} {op u : ω} {ops us : List ω} {x x' y y' : τ}

theorem balanced_new (h : K.Same x y) (hr : ∀ n, L.arithmetic.Fits (length + n) → K.Room n x) (revision : Nat) :
    K.Balanced length (.new revision) x y := by
  have hr : ∀ n, L.arithmetic.Fits (length + n) → K.Room (0 + n) x := fun n hn => by
    rw [Nat.zero_add]
    exact hr n hn
  exact ⟨⟨y, Calculus.right h, h⟩, hr, fun n hn => K.room_same h (hr n hn)⟩

/-- With nothing local and nothing undelivered both values are the same. -/
theorem same_of_balanced (h : K.Balanced length q x y) (hc : q.isClean = true) (hs : q.serverOps = []) :
    K.Same x y := by
  obtain ⟨z, hl, hr⟩ := h.meet
  simp only [isClean, Bool.and_eq_true, List.isEmpty_iff] at hc
  rw [hc.1, hc.2] at hl
  rw [hs] at hr
  exact K.trans hr (K.symm hl)

/-! ## The client's side -/

/-- A local operation passes what is not yet delivered. -/
theorem record_balanced (h : K.Balanced length q x y) (hf : L.arithmetic.Fits (length + K.cost op))
    (hm : K.Maps op x x') :
    ∃ ss op', passServers op q.serverOps = (ss, .ok op') ∧
      q.record op = (.ok (), { q with serverOps := ss, queued := q.queued ++ [op'], fresh := true }) ∧
      K.Balanced (length + K.cost op) { q with serverOps := ss, queued := q.queued ++ [op'], fresh := true } x' y ∧
      K.cost op' ≤ K.cost op := by
  obtain ⟨⟨z, hl, hr⟩, hcr, hsr⟩ := h
  obtain ⟨ss, op', w, hp, ⟨hop, hkop⟩, hss, hkss⟩ :=
    Calculus.passServers_maps hm hr (K.room_le (hcr _ hf) (by omega))
  refine ⟨ss, op', hp, ?_, ⟨⟨w, ?_, hss⟩, fun n hn => ?_, fun n hn => ?_⟩, hkop⟩
  · simp only [record, hp]
  · rw [← List.append_assoc]
    exact hl.snoc hop
  · rw [Nat.add_assoc] at hn
    exact hm.room (K.room_le (hcr _ hn) (by dsimp only; omega))
  · rw [Nat.add_assoc] at hn
    refine K.room_le (hsr _ hn) ?_
    simp only [Calculus.costs_append, Calculus.costs_cons, Calculus.costs_nil]
    omega

/-- The oldest undelivered operation applies to the client's value. -/
theorem deliver_balanced {s : ω} {ss : List ω} (h : K.Balanced length q x y) (hs : q.serverOps = s :: ss) :
    ∃ x', K.Maps s x x' ∧ K.Balanced length { q with serverOps := ss } x' y := by
  obtain ⟨⟨z, hl, hr⟩, hcr, hsr⟩ := h
  rw [hs] at hr hcr
  obtain ⟨x', hm, hr⟩ := hr
  refine ⟨x', hm, ⟨z, hl, hr⟩, fun n hn => hm.room ?_, hsr⟩
  rw [← Nat.add_assoc, ← Calculus.costs_cons]
  exact hcr n hn

/-! ## The server's side -/

omit L in
/-- Without expected echoes nothing is one. -/
theorem takeEcho_of_eq_zero [Revisions] (he : q.expectedAcks = 0) (revision : Nat) :
    q.takeEcho revision = (.ok false, q) := by
  rw [takeEcho, if_pos he]

omit L in
/-- The echo that is expected next is taken. -/
theorem takeEcho_next [R : Revisions] {revision : Nat} (hf : R.arithmetic.Fits (q.revision + 1))
    (he : q.expectedAcks ≠ 0) (h : revision = q.revision + 1 - q.expectedAcks) :
    q.takeEcho revision = (.ok true, { q with expectedAcks := q.expectedAcks - 1 }) := by
  rw [takeEcho, if_neg he, Arithmetic.wrap_of_fits hf, if_pos h]

omit L in
/-- The oldest operation in flight is acknowledged under the next revision. -/
theorem ackFirst_next [R : Revisions] (hf : R.arithmetic.Fits (q.revision + 1)) (he : q.expectedAcks = 0)
    (hu : q.unacked = u :: ops) :
    q.ackFirst (q.revision + 1) =
      (.ok ops.isEmpty, { q with revision := q.revision + 1, unacked := ops }) := by
  simp only [ackFirst, he, ne_eq, not_true_eq_false, if_false, hu, checkNext, Arithmetic.wrap_of_fits hf, if_true]

omit L in
theorem ackAll?_eq (q : Queue ω) (head : Nat) :
    q.ackAll? head =
      if q.unacked.isEmpty || head != q.revision + q.unacked.length then (none, q)
      else (some q.unacked,
        { q with revision := head, unacked := [], expectedAcks := q.expectedAcks + q.unacked.length }) :=
  rfl

/-- The operations in flight apply in turn to the server's value. -/
theorem ack_balanced (h : K.Balanced length q x y) (hu : q.unacked = us ++ ops) :
    ∃ y', K.Chain us y y' ∧ K.Balanced length { q with unacked := ops } x y' := by
  obtain ⟨⟨z, hl, hr⟩, hcr, hsr⟩ := h
  rw [hu, List.append_assoc] at hl hsr
  obtain ⟨y', hus, hl⟩ := Calculus.chain_append.1 hl
  refine ⟨y', hus, ⟨z, hl, hr⟩, hcr, fun n hn => hus.room ?_⟩
  rw [← Nat.add_assoc, ← Calculus.costs_append]
  exact hsr n hn

variable (hj : ∀ a b : ω, Operation.canCompose a b = true → K.Joins a b)
include hj

omit L in
theorem chain_compacted (h : K.Chain q.queued x y) :
    ∃ ops, q.compacted = .ok ops ∧ K.Chain ops x y ∧ K.costs ops ≤ K.costs q.queued := by
  unfold compacted
  split
  next => exact Calculus.chain_compact hj h
  next => exact ⟨q.queued, rfl, h, Nat.le_refl _⟩

/-- The queued operations go in flight. -/
theorem send_balanced (h : K.Balanced length q x y) (hu : q.unacked = []) :
    ∃ ops, q.compacted = .ok ops ∧
      q.send = (.ok ops, { q with queued := [], unacked := ops, fresh := false }) ∧
      K.Balanced length { q with queued := [], unacked := ops, fresh := false } x y ∧
      K.costs ops ≤ K.costs q.queued := by
  obtain ⟨⟨z, hl, hr⟩, hcr, hsr⟩ := h
  rw [hu, List.nil_append] at hl hsr
  obtain ⟨ops, hc, hops, hk⟩ := chain_compacted hj hl
  refine ⟨ops, hc, ?_, ⟨⟨z, ?_, hr⟩, hcr, fun n hn => K.room_le (hsr n hn) ?_⟩, hk⟩
  · unfold send
    unfold compacted at hc
    simp only [hu, List.isEmpty_nil, Bool.not_true, Bool.false_eq_true, if_false, hc]
  · simpa only [List.append_nil] using hops
  · simp only [List.append_nil]
    omega

omit L in
/-- A remote operation passes the queued ones. -/
theorem passQueued_maps {w w' z : τ} (hq : K.Chain q.queued w z) (hm : K.Maps op w w')
    (hr : K.Room (K.cost op + K.costs q.queued) w) (revision : Nat) :
    ∃ queued fresh op' z',
      q.passQueued revision op = (.ok (), { q with queued, fresh }.deliverable revision op') ∧
        (K.Chain queued w' z' ∧ K.costs queued ≤ K.costs q.queued) ∧ K.Maps op' z z' ∧ K.cost op' ≤ K.cost op := by
  unfold passQueued
  split
  next he =>
    have he : q.queued = [] := List.isEmpty_iff.1 he
    rw [he] at hq
    exact ⟨q.queued, q.fresh, op, w', rfl, ⟨by rw [he]; exact hm.right, Nat.le_refl _⟩, hm.congr hq hm.right,
      Nat.le_refl _⟩
  next =>
    obtain ⟨ops, hc, hops, hk⟩ := chain_compacted hj hq
    obtain ⟨queued, op', z', hp, ⟨hqueued, hk'⟩, hop', hkop⟩ :=
      Calculus.passClients_maps hm hops (K.room_le hr (Nat.add_le_add_left hk _))
    unfold compacted at hc
    exact ⟨queued, false, op', z', by simp only [hc, hp], ⟨hqueued, Nat.le_trans hk' hk⟩, hop', hkop⟩

/-- An operation of another session passes all local ones. -/
theorem receive_balanced [R : Revisions] (h : K.Balanced length q x y) (hf : L.arithmetic.Fits (length + K.cost op))
    (hn : R.arithmetic.Fits (q.revision + 1)) (he : q.expectedAcks = 0) (hm : K.Maps op y y') :
    ∃ q', q.receive (q.revision + 1) op = (.ok (), q') ∧ K.Balanced (length + K.cost op) q' x y' ∧
      K.costs (q'.unacked ++ q'.queued) ≤ K.costs (q.unacked ++ q.queued) := by
  obtain ⟨⟨z, hl, hr⟩, hcr, hsr⟩ := h
  obtain ⟨w, hu, hq⟩ := Calculus.chain_append.1 hl
  have hroom := hsr _ hf
  rw [Calculus.costs_append] at hroom
  obtain ⟨us, op₁, w', hp, ⟨hus, hkus⟩, hop₁, hkop₁⟩ := Calculus.passClients_maps hm hu (K.room_le hroom (by omega))
  obtain ⟨queued, fresh, op', z', hpq, ⟨hqueued, hkq⟩, hop', hkop'⟩ :=
    passQueued_maps hj (q := { q with unacked := us }) hq hop₁
      (hu.room (K.room_le hroom (by dsimp only; omega))) (q.revision + 1)
  have hk : K.costs (us ++ queued) ≤ K.costs (q.unacked ++ q.queued) := by
    rw [Calculus.costs_append, Calculus.costs_append]
    exact Nat.add_le_add hkus hkq
  refine ⟨({ q with unacked := us, queued, fresh } : Queue ω).deliverable (q.revision + 1) op', ?_,
    ⟨⟨z', ?_, ?_⟩, fun n hn => ?_, fun n hn => ?_⟩, hk⟩
  · unfold receive
    rw [if_neg (by simp [he])]
    simp only [checkNext, Arithmetic.wrap_of_fits hn, if_true, hp]
    exact hpq
  · exact Calculus.chain_append.2 ⟨w', hus, hqueued⟩
  · exact hr.snoc hop'
  · rw [Nat.add_assoc] at hn
    refine K.room_le (hcr _ hn) ?_
    simp only [deliverable, Calculus.costs_append, Calculus.costs_cons, Calculus.costs_nil]
    omega
  · rw [Nat.add_assoc] at hn
    refine hm.room (K.room_le (hsr _ hn) ?_)
    simp only [deliverable]
    omega

end Queue
end Coedit
