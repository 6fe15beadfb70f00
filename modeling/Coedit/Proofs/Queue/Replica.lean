import Mathlib
import Coedit.Proofs.Queue.Balance
import Coedit.Proofs.Sequence.Composition

/-!
# A queue between a client and a server

A replica is a queue together with the value of its client and the value of the server.  Its moves are the calls
that the queue may receive; with each of them the value that it is about takes its step.  A move fails if the
queue refuses the call or if an operation named by it does not apply.

* `Replica.perform_balanced` — a move that is due succeeds and keeps the queue balanced;
* `Replica.reachable_sound` — so it is in every state that moves lead to, for texts and for lists, as long as the lengths
  and revisions on the way fit.
-/

namespace Coedit

/-- A queue and the values on either side of it. -/
structure Replica (ω τ : Type) where
  queue : Queue ω
  clientValue : τ
  serverValue : τ

inductive Move (ω : Type) where
  /-- The client makes an edit. -/
  | edit (op : ω)
  /-- The queued operations go in flight. -/
  | send
  /-- The server applies an operation of another session. -/
  | receive (op : ω)
  /-- The server applies the oldest operation in flight. -/
  | ack
  /-- The server applies all operations in flight, and nothing in between. -/
  | ackAll
  /-- The echo that is expected next arrives. -/
  | echo
  /-- The oldest undelivered operation is delivered to the client. -/
  | deliver

/-- Elements that the operation of a move inserts. -/
def Move.insertLength {α : Type} [Element α] : Move (Edit α) → Nat
  | .edit op => op.insertLength
  | .receive op => op.insertLength
  | _ => 0

namespace Replica

variable {ω τ : Type} [Operation ω τ]

/-- Applies operations to a value, as a step of a move. -/
def applied (ops : List ω) (x : τ) : Except Fault τ := (Operation.applyAll ops x).mapError .apply

section moves
variable [R : Revisions]

def perform (r : Replica ω τ) : Move ω → Except Fault (Replica ω τ)
  | .edit op => do
    let x ← applied [op] r.clientValue
    match r.queue.record op with
    | (.ok (), queue) => .ok { r with queue, clientValue := x }
    | (.error e, _) => .error e
  | .send =>
    match r.queue.send with
    | (.ok _, queue) => .ok { r with queue }
    | (.error e, _) => .error e
  | .receive op => do
    let y ← applied [op] r.serverValue
    match r.queue.receive (r.queue.revision + 1) op with
    | (.ok (), queue) => .ok { r with queue, serverValue := y }
    | (.error e, _) => .error e
  | .ack => do
    let y ← applied (r.queue.unacked.take 1) r.serverValue
    match r.queue.ackFirst (r.queue.revision + 1) with
    | (.ok _, queue) => .ok { r with queue, serverValue := y }
    | (.error e, _) => .error e
  | .ackAll =>
    match r.queue.ackAll? (r.queue.revision + r.queue.unacked.length) with
    | (some acked, queue) => do
      let y ← applied acked r.serverValue
      .ok { r with queue, serverValue := y }
    | (none, _) => .error (.queue (.nothingInFlight r.queue.revision))
  | .echo =>
    match r.queue.takeEcho (r.queue.revision + 1 - r.queue.expectedAcks) with
    | (.ok _, queue) => .ok { r with queue }
    | (.error e, _) => .error e
  | .deliver =>
    match r.queue.pop with
    | (some op, queue) => do
      let x ← applied [op] r.clientValue
      .ok { r with queue, clientValue := x }
    | (none, queue) => .ok { r with queue }

end moves

/-! ## Moves keep the balance -/

section balance
variable [L : Lengths] [R : Revisions] {K : Calculus ω τ} {r r' : Replica ω τ} {op : ω} {ops : List ω} {length : Nat}
  {x x' y : τ}

omit L R in
theorem chain_applied (h : K.Chain ops x y) : ∃ z, applied ops x = .ok z ∧ K.Same z y := by
  obtain ⟨z, hz, hs⟩ := h.applyAll
  exact ⟨z, by rw [applied, hz]; rfl, hs⟩

omit L R in
theorem maps_applied (h : K.Maps op x y) : ∃ z, applied [op] x = .ok z ∧ K.Same z y :=
  chain_applied (Calculus.chain_singleton.2 h)

/-- The queue of a replica is balanced between its two values. -/
def Balanced (K : Calculus ω τ) (length : Nat) (r : Replica ω τ) : Prop :=
  K.Balanced length r.queue r.clientValue r.serverValue

theorem edit_balanced (h : r.Balanced K length) (hl : L.arithmetic.Fits (length + K.cost op)) (hf : K.Fit op)
    (hx : Operation.apply op r.clientValue = .ok x) :
    ∃ r', r.perform (.edit op) = .ok r' ∧ r'.Balanced K (length + K.cost op) := by
  have hm := Calculus.maps_of_apply hf h.same_client hx
  obtain ⟨ss, op', _, hq, hb, _⟩ := Queue.record_balanced h hl hm
  obtain ⟨x', hx', hs⟩ := maps_applied hm
  refine ⟨{ r with queue := _, clientValue := x' }, ?_, hb.congr (K.symm hs) h.same_server⟩
  simp only [perform, hx', hq, bind, Except.bind]

theorem receive_balanced (hj : ∀ a b : ω, Operation.canCompose a b = true → K.Joins a b)
    (h : r.Balanced K length) (hl : L.arithmetic.Fits (length + K.cost op)) (hf : K.Fit op)
    (hr : R.arithmetic.Fits (r.queue.revision + 1)) (he : r.queue.expectedAcks = 0)
    (hy : Operation.apply op r.serverValue = .ok y) :
    ∃ r', r.perform (.receive op) = .ok r' ∧ r'.Balanced K (length + K.cost op) := by
  have hm := Calculus.maps_of_apply hf h.same_server hy
  obtain ⟨q', hq, hb, _⟩ := Queue.receive_balanced hj h hl hr he hm
  obtain ⟨y', hy', hs⟩ := maps_applied hm
  refine ⟨{ r with queue := q', serverValue := y' }, ?_, hb.congr h.same_client (K.symm hs)⟩
  simp only [perform, hy', hq, bind, Except.bind]

theorem send_balanced (hj : ∀ a b : ω, Operation.canCompose a b = true → K.Joins a b) (h : r.Balanced K length)
    (hu : r.queue.unacked = []) : ∃ r', r.perform .send = .ok r' ∧ r'.Balanced K length := by
  obtain ⟨ops, _, hq, hb, _⟩ := Queue.send_balanced hj h hu
  refine ⟨{ r with queue := _ }, ?_, hb⟩
  simp only [perform, hq]

theorem ack_balanced (h : r.Balanced K length) (hr : R.arithmetic.Fits (r.queue.revision + 1))
    (he : r.queue.expectedAcks = 0) (hu : r.queue.unacked ≠ []) :
    ∃ r', r.perform .ack = .ok r' ∧ r'.Balanced K length := by
  obtain ⟨u, ops, hu⟩ := List.exists_cons_of_ne_nil hu
  have hcons : r.queue.unacked = [u] ++ ops := hu
  obtain ⟨y, hy, hb⟩ := Queue.ack_balanced h hcons
  obtain ⟨y', hy', hs⟩ := chain_applied hy
  refine ⟨{ r with
    queue := { r.queue with revision := r.queue.revision + 1, unacked := ops }
    serverValue := y' }, ?_, (hb.congr h.same_client (K.symm hs)).of_lists rfl rfl rfl⟩
  rw [perform, Queue.ackFirst_next hr he hu, hu]
  simp only [List.take_succ_cons, List.take_zero, hy', bind, Except.bind]

theorem ackAll_balanced (h : r.Balanced K length)
    (hr : R.arithmetic.Fits (r.queue.revision + r.queue.unacked.length)) (hu : r.queue.unacked ≠ []) :
    ∃ r', r.perform .ackAll = .ok r' ∧ r'.Balanced K length := by
  have hall : r.queue.unacked = r.queue.unacked ++ [] := (List.append_nil _).symm
  obtain ⟨y, hy, hb⟩ := Queue.ack_balanced h hall
  obtain ⟨y', hy', hs⟩ := chain_applied hy
  have hne : r.queue.unacked.isEmpty = false := by simpa using hu
  refine ⟨{ r with
    queue := { r.queue with
      revision := r.queue.revision + r.queue.unacked.length
      unacked := []
      expectedAcks := r.queue.expectedAcks + r.queue.unacked.length }
    serverValue := y' }, ?_, (hb.congr h.same_client (K.symm hs)).of_lists rfl rfl rfl⟩
  simp only [perform, Queue.ackAll?, hne, Arithmetic.wrap_of_fits hr, bne_self_eq_false, Bool.or_false,
    Bool.false_eq_true, if_false, hy', bind, Except.bind]

theorem echo_balanced (h : r.Balanced K length) (hr : R.arithmetic.Fits (r.queue.revision + 1)) :
    ∃ r', r.perform .echo = .ok r' ∧ r'.Balanced K length := by
  unfold perform
  by_cases he : r.queue.expectedAcks = 0
  · exact ⟨r, by simp only [Queue.takeEcho_of_eq_zero he], h⟩
  · refine ⟨{ r with queue := { r.queue with expectedAcks := r.queue.expectedAcks - 1 } }, ?_, h.of_lists rfl rfl rfl⟩
    simp only [Queue.takeEcho_next hr he rfl]

theorem deliver_balanced (h : r.Balanced K length) :
    ∃ r', r.perform .deliver = .ok r' ∧ r'.Balanced K length := by
  unfold perform Queue.pop
  cases hs : r.queue.serverOps with
  | nil =>
    refine ⟨_, rfl, ?_⟩
    rw [List.tail_nil, ← hs]
    exact h
  | cons s ss =>
    obtain ⟨x, hx, hb⟩ := Queue.deliver_balanced h hs
    obtain ⟨x', hx', hsame⟩ := maps_applied hx
    refine ⟨{ r with queue := { r.queue with serverOps := ss }, clientValue := x' }, ?_,
      hb.congr (K.symm hsame) h.same_server⟩
    simp only [List.head?_cons, List.tail_cons, hx', bind, Except.bind]

end balance

/-! ## Reached states -/

section reached
variable {α : Type} [Element α] [L : Lengths] [R : Revisions] {r r' : Replica (Edit α) (List α)} {m : Move (Edit α)}
  {n length revision : Nat} {base : List α}

/-- Whether a move may be made: its operation applies, its own lengths fit, and so does the revision that it is about. -/
def Due (r : Replica (Edit α) (List α)) : Move (Edit α) → Prop
  | .edit op => op.Fits ∧ ∃ x, op.apply r.clientValue = .ok x
  | .send => r.queue.unacked = []
  | .receive op =>
    r.queue.expectedAcks = 0 ∧ R.arithmetic.Fits (r.queue.revision + 1) ∧ op.Fits ∧
      ∃ y, op.apply r.serverValue = .ok y
  | .ack => r.queue.expectedAcks = 0 ∧ R.arithmetic.Fits (r.queue.revision + 1) ∧ r.queue.unacked ≠ []
  | .ackAll => R.arithmetic.Fits (r.queue.revision + r.queue.unacked.length) ∧ r.queue.unacked ≠ []
  | .echo => R.arithmetic.Fits (r.queue.revision + 1)
  | .deliver => True

/-- The states that moves lead to from an empty queue at `revision` between two copies of `base`, with the number of
elements that their operations inserted. -/
inductive Reachable (revision : Nat) (base : List α) : Nat → Replica (Edit α) (List α) → Prop where
  | start : Reachable revision base 0 ⟨.new revision, base, base⟩
  | move {n : Nat} {r r' : Replica (Edit α) (List α)} {m : Move (Edit α)} : Reachable revision base n r → r.Due m →
      r.perform m = .ok r' → Reachable revision base (n + m.insertLength) r'

/-- What a reached state promises, once values may have grown to `length`: no move that is due fails as long as what it
inserts fits, and local operations from the server's value meet undelivered ones from the client's, so that with none of
either the values are the same. -/
def Sound (same : List α → List α → Prop) (length : Nat) (r : Replica (Edit α) (List α)) : Prop :=
  (∀ m, r.Due m → L.arithmetic.Fits (length + m.insertLength) → ∃ r', r.perform m = .ok r') ∧
    (∃ z w, Operation.applyAll (r.queue.unacked ++ r.queue.queued) r.serverValue = .ok z ∧
      Operation.applyAll r.queue.serverOps r.clientValue = .ok w ∧ same z w) ∧
    (r.queue.isClean = true → r.queue.serverOps = [] → same r.clientValue r.serverValue)

variable [EquivBEq α]

/-- A move that is due succeeds and keeps the balance. -/
theorem perform_balanced (h : r.Balanced (Edit.calculus α) length) (hl : L.arithmetic.Fits (length + m.insertLength))
    (hd : r.Due m) : ∃ r', r.perform m = .ok r' ∧ r'.Balanced (Edit.calculus α) (length + m.insertLength) := by
  have hj : ∀ a b : Edit α, Operation.canCompose a b = true → (Edit.calculus α).Joins a b := fun _ _ _ => trivial
  cases m with
  | edit op =>
    obtain ⟨hf, x, hx⟩ := hd
    exact edit_balanced h hl hf hx
  | send => exact send_balanced hj h hd
  | receive op =>
    obtain ⟨he, hr, hf, y, hy⟩ := hd
    exact receive_balanced hj h hl hf hr he hy
  | ack =>
    obtain ⟨he, hr, hu⟩ := hd
    exact ack_balanced h hr he hu
  | ackAll => exact ackAll_balanced h hd.1 hd.2
  | echo => exact echo_balanced h hd
  | deliver => exact deliver_balanced h

theorem reachable_balanced (h : Reachable revision base n r) (hn : L.arithmetic.Fits (base.length + n)) :
    r.Balanced (Edit.calculus α) (base.length + n) := by
  induction h with
  | start => exact Queue.balanced_new (K := Edit.calculus α) (.refl base) (fun _ hk => hk) revision
  | @move n r r' m _ hd hp ih =>
    rw [← Nat.add_assoc] at hn
    obtain ⟨r'', hr, hb⟩ := perform_balanced (ih (hn.of_le (Nat.le_add_right ..))) hn hd
    obtain rfl := Except.ok.inj (hp.symm.trans hr)
    rwa [Nat.add_assoc] at hb

theorem reachable_sound_alike (h : Reachable revision base n r) (hn : L.arithmetic.Fits (base.length + n)) :
    r.Sound Alike (base.length + n) := by
  have hb := reachable_balanced h hn
  refine ⟨fun m hd hm => ?_, ?_, fun hc hs => Queue.same_of_balanced hb hc hs⟩
  · obtain ⟨r', hr, _⟩ := perform_balanced hb hm hd
    exact ⟨r', hr⟩
  · obtain ⟨v, hl, hr⟩ := hb.meet
    obtain ⟨z, hz, hzv⟩ := hl.applyAll
    obtain ⟨w, hw, hwv⟩ := hr.applyAll
    exact ⟨z, w, hz, hw, Alike.trans hzv (Alike.symm hwv)⟩

end reached

section words
attribute [local instance] Lengths.word Revisions.word

/-- A text between two insertions that cross, once others were sent, acknowledged one by one and at once, and their echo
was taken. -/
def crossed : Replica TextEdit (List Char) :=
  ⟨⟨7, [Edit.insertAt 6 0 ['p']], [], [Edit.insertAt 6 6 ['q']], 0, false⟩, ['p', 'a', 'y', 'x', 'b', 'z'],
    ['a', 'y', 'x', 'b', 'z', 'q']⟩

/-- The empty text after an edit of the client and one of another session, whose lengths do not fit. -/
def widened : Replica TextEdit (List Char) :=
  ⟨⟨1, [Edit.insertBetween (halfWord + 1) 'a' halfWord], [],
      [Edit.insertBetween halfWord 'b' (halfWord + 1)], 0, false⟩,
    ['a'], ['b']⟩

end words

end Replica
end Coedit
