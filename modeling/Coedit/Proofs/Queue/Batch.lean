import Coedit.Proofs.Document.Composite
import Coedit.Proofs.Queue.Balance
import Coedit.Proofs.Queue.Compaction

/-!
# Batches of one session

All that a queue of composites holds back comes from one session, so compacting leaves at most one composite: a
batch in flight is a single operation.

* `Composite.compact_single` — operations of one origin are compacted into at most one;
* `Queue.Stamped` — every local operation of a queue carries one stamp, and at most one is queued once the queue
  was compacted;
* `Queue.receive_eq_ok` — what a queue keeps of an operation of another session.
-/

namespace Coedit

namespace Composite

variable [Lengths] {a b c s s' c' : Composite} {cs ops merged ss ss' : List Composite} {o : Origin}

/-! ## Stamps -/

theorem transform_origin (h : s.transform c = .ok (s', c')) : s'.origin = s.origin ∧ c'.origin = c.origin := by
  obtain ⟨p, _, hp⟩ := map_eq_ok.1 h
  obtain ⟨rfl, rfl⟩ := Prod.mk.inj hp
  exact ⟨rfl, rfl⟩

/-- The revision is not looked at. -/
theorem transform_withRevision (s c : Composite) (revision : Nat) :
    (s.withRevision revision).transform c = (s.transform c).map fun p => (p.1.withRevision revision, p.2) := by
  unfold transform withRevision
  cases transformComponents s.components c.components <;> rfl

theorem compose_origin (h : a.compose b = .ok c) : c.origin = b.origin := by
  unfold compose at h
  split at h
  next => cases h
  next =>
    obtain ⟨_, _, rfl⟩ := map_eq_ok.1 h
    rfl

theorem passClients_origin (cs : List Composite) (s : Composite) :
    (passClients s cs).1.map (·.origin) = cs.map (·.origin) :=
  map_eq_of_forall₂ (passClients_forall₂ (R := fun c c' => c'.origin = c.origin) (fun _ => rfl)
    (fun ht => (transform_origin ht).2) cs s)

theorem passServers_origin : ∀ {ss : List Composite} {c c' : Composite}, (passServers c ss).2 = .ok c' →
    c'.origin = c.origin
  | [], _, _, h => by
    cases h
    rfl
  | s :: ss, c, c', h => by
    simp only [passServers] at h
    split at h
    next => cases h
    next s' c₁ ht =>
      have ht : s.transform c = .ok (s', c₁) := ht
      exact (passServers_origin h).trans (transform_origin ht).2

/-! ## Compaction -/

/-- Operations of one origin are compacted into at most one. -/
theorem compact_single (ho : ∀ op ∈ ops, op.origin = o) (h : compact ops = .ok merged) :
    (∀ op ∈ merged, op.origin = o) ∧ merged.length ≤ 1 := by
  refine Coedit.compact_single (P := fun op => op.origin = o) (fun a b ha hb => ?_) (fun a b c _ hb hc => ?_) ho h
  · show (a.origin == b.origin) = true
    rw [ha, hb]
    exact BEq.rfl
  · have hc : a.compose b = .ok c := hc
    exact (compose_origin hc).trans hb

end Composite

/-! ## Queues of one session -/

namespace Queue

/-- All local operations carry one stamp, and no more than one is queued unless it is yet to be compacted. -/
structure Stamped (o : Origin) (q : Queue Composite) : Prop where
  unacked : ∀ op ∈ q.unacked, op.origin = o
  queued : ∀ op ∈ q.queued, op.origin = o
  single : q.fresh = false → q.queued.length ≤ 1

variable [Lengths] {q q' : Queue Composite} {o : Origin} {op op' : Composite} {ops us : List Composite} {revision : Nat}

omit [Lengths] in
theorem stamped_new (o : Origin) (revision : Nat) : Stamped o (.new revision) :=
  ⟨fun _ h => absurd h List.not_mem_nil, fun _ h => absurd h List.not_mem_nil, fun _ => Nat.zero_le _⟩

/-- What is sent or passed is one operation at most. -/
theorem Stamped.compacted (h : q.Stamped o) (hc : q.compacted = .ok ops) :
    (∀ op ∈ ops, op.origin = o) ∧ ops.length ≤ 1 := by
  unfold Queue.compacted at hc
  split at hc
  next => exact Composite.compact_single h.queued hc
  next hf =>
    obtain rfl := Except.ok.inj hc
    exact ⟨h.queued, h.single (by simpa using hf)⟩

omit [Lengths] in
theorem origin_of_map_eq {l m : List Composite} (h : l.map (·.origin) = m.map (·.origin))
    (hm : ∀ op ∈ m, op.origin = o) : ∀ op ∈ l, op.origin = o := by
  intro op hop
  have hop : op.origin ∈ l.map (·.origin) := List.mem_map_of_mem hop
  rw [h] at hop
  obtain ⟨op', hop', he⟩ := List.mem_map.1 hop
  exact he ▸ hm op' hop'

/-- An operation that passed the queued ones is put up for delivery. -/
theorem passQueued_eq_ok (h : q.passQueued revision op = (.ok (), q')) :
    ∃ queued fresh op₁, q' = { q with queued, fresh }.deliverable revision op₁ ∧
      ((queued = q.queued ∧ fresh = q.fresh ∧ op₁ = op) ∨
        ∃ ops, q.compacted = .ok ops ∧ passClients op ops = (queued, .ok op₁) ∧ fresh = false) := by
  unfold passQueued at h
  split at h
  next =>
    obtain ⟨_, rfl⟩ := Prod.mk.inj h
    exact ⟨q.queued, q.fresh, op, rfl, .inl ⟨rfl, rfl, rfl⟩⟩
  next =>
    split at h
    next => cases h
    next ops hc =>
      cases hp : passClients op ops with
      | mk queued result =>
        simp only [hp] at h
        split at h
        next => cases h
        next op₁ =>
          obtain ⟨_, rfl⟩ := Prod.mk.inj h
          exact ⟨queued, false, op₁, rfl, .inr ⟨ops, hc, hp, rfl⟩⟩

/-- An operation of another session passes the local ones before it is put up for delivery. -/
theorem receive_eq_ok (h : q.receive revision op = (.ok (), q')) :
    ∃ unacked op₁ queued fresh op₂, passClients op q.unacked = (unacked, .ok op₁) ∧
      q' = { q with unacked, queued, fresh }.deliverable revision op₂ ∧
      ((queued = q.queued ∧ fresh = q.fresh ∧ op₂ = op₁) ∨
        ∃ ops, q.compacted = .ok ops ∧ passClients op₁ ops = (queued, .ok op₂) ∧ fresh = false) := by
  unfold receive at h
  split at h
  next => cases h
  next =>
    split at h
    next => cases h
    next =>
      cases hp : passClients op q.unacked with
      | mk unacked result =>
        simp only [hp] at h
        split at h
        next => cases h
        next op₁ =>
          obtain ⟨queued, fresh, op₂, hq, hc⟩ := passQueued_eq_ok h
          exact ⟨unacked, op₁, queued, fresh, op₂, rfl, hq, hc⟩

theorem Stamped.receive (hs : q.Stamped o) (h : q.receive revision op = (.ok (), q')) : q'.Stamped o := by
  obtain ⟨unacked, op₁, queued, fresh, op₂, hu, rfl, hq⟩ := receive_eq_ok h
  have hmap := Composite.passClients_origin q.unacked op
  rw [hu] at hmap
  refine ⟨origin_of_map_eq hmap hs.unacked, ?_, ?_⟩
  · rcases hq with ⟨rfl, _⟩ | ⟨ops, hc, hp, _⟩
    · exact hs.queued
    · have hmap := Composite.passClients_origin ops op₁
      rw [hp] at hmap
      exact origin_of_map_eq hmap (hs.compacted hc).1
  · rcases hq with ⟨rfl, rfl, _⟩ | ⟨ops, hc, hp, _⟩
    · exact hs.single
    · have hlen := congrArg List.length (Composite.passClients_origin ops op₁)
      rw [hp, List.length_map, List.length_map] at hlen
      exact fun _ => Nat.le_trans (Nat.le_of_eq hlen) (hs.compacted hc).2

end Queue
end Coedit
