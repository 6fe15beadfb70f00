import Coedit.Proofs.Channel.DeliveryOrder
import Coedit.Proofs.Channel.LateReplies

/-!
# Two ways to be acknowledged

The server takes a batch, replies to its session and tells everyone.  If the reply comes first, the channel acknowledges
the batch at once and lets the echo pass when it comes.  If the echo comes first, it acknowledges the batch, and the
reply tells nothing new.  Either way the channel comes to the same.

* `Channel.keep_drain` — a delta that comes next is taken in, and after it those that waited for it;
* `Channel.acknowledged_comm_next`, `Channel.acknowledged_comm_later` — reply and echo of the operation in flight, in
  either order;
* `Channel.run_acknowledged` — reply and echoes of a batch, in every state of every run.
-/

namespace Coedit

namespace Table

open Std (TransOrd LawfulEqOrd)

variable {κ ν : Type} [Ord κ] [TransOrd κ] [LawfulEqOrd κ] {t : Table κ ν} {k : κ}

/-- What comes before everything else is listed first. -/
theorem entries_insert_first (h : ∀ k', t.contains k' = true → compare k k' = .lt) (v : ν) :
    (t.insert k v).entries = (k, v) :: t.entries := by
  show insertEntry k v t.entries = _
  cases hentries : t.entries with
  | nil => rfl
  | cons e rest =>
    have hfirst : compare k e.1 = .lt := h e.1 (by rw [contains, get?_first hentries]; rfl)
    simp only [insertEntry, hfirst]

theorem erase_insert_first (h : ∀ k', t.contains k' = true → compare k k' = .lt) (v : ν) :
    (t.insert k v).erase k = t :=
  Table.ext (entries_erase_first (entries_insert_first h v))

end Table

namespace Channel

variable {c : Channel} {op u : Composite} {m : DeltaMessage}

/-- The channel once it knows that the server has reached a head. -/
def aware (c : Channel) (head : Nat) : Channel := { c with knownHead := max c.knownHead head }

/-! ## Draining -/

/-- Nothing at hand is due. -/
theorem drain_of_drained (hd : c.Drained) : c.drain = c := by
  unfold drain
  cases hentries : c.buffered.entries with
  | nil => rfl
  | cons e rest =>
    have hgap := hd e.1 (by rw [Table.contains, Table.get?_first hentries]; rfl)
    rw [drainEntries, if_pos (by simp [hgap])]

theorem drainEntries_of_closed (h : c.isConnected = false) (entries : List (Nat × Composite)) :
    drainEntries entries c = c := by
  cases entries with
  | nil => rfl
  | cons e rest => rw [drainEntries, if_pos (by simp [h])]

/-- A delta that comes next is taken in, and after it those that waited for it. -/
theorem keep_drain (hopen : c.isConnected = true) (hd : c.Drained) (op : Composite) :
    (c.keep (c.floor + 1, op)).drain =
      ((c.aware (c.floor + 1)).applyDelta (c.floor + 1) op).drain := by
  have hfirst : ∀ r, c.buffered.contains r = true → compare (c.floor + 1) r = .lt := fun r hr =>
    Nat.compare_eq_lt.2 (hd r hr)
  have hnew : ¬ c.buffered.contains (c.floor + 1) = true := fun hat => Nat.lt_irrefl _ (hd _ hat)
  have hentries : (c.keep (c.floor + 1, op)).buffered.entries = (c.floor + 1, op) :: c.buffered.entries := by
    simp only [keep, if_neg hnew, Table.entries_insert_first hfirst]
  have hrest : { c.keep (c.floor + 1, op) with buffered := (c.keep (c.floor + 1, op)).buffered.erase (c.floor + 1) } =
      c.aware (c.floor + 1) := by
    simp only [keep, if_neg hnew, Table.erase_insert_first hfirst, aware]
  have htaken : (c.keep (c.floor + 1, op)).drain = drainEntries c.buffered.entries
      ((c.aware (c.floor + 1)).applyDelta (c.floor + 1) op) := by
    have hnext : ¬ (!(c.keep (c.floor + 1, op)).isConnected ||
        decide ((c.keep (c.floor + 1, op)).floor + 1 < c.floor + 1)) = true := by
      simp [keep, isConnected, floor] at hopen ⊢
      exact hopen
    have hdue : ¬ c.floor + 1 ≤ (c.keep (c.floor + 1, op)).floor := Nat.not_succ_le_self _
    rw [drain, hentries, drainEntries, if_neg hnext]
    dsimp only
    rw [if_neg hdue, hrest]
  rw [htaken]
  have happlied := applyDelta_taken (c.aware (c.floor + 1)) (c.floor + 1) op
  cases hconn : ((c.aware (c.floor + 1)).applyDelta (c.floor + 1) op).isConnected with
  | false => rw [drain, drainEntries_of_closed hconn, drainEntries_of_closed hconn]
  | true =>
    rw [drain, happlied.buffered hconn]
    rfl

/-! ## Settling -/

/-- The channel with other deltas at hand, another head that it knows of, and another number of echoes to come. -/
def apart (c : Channel) (head : Nat) (buffered : Table Nat Composite) (echoes : Nat) : Channel :=
  { c with knownHead := head, buffered, queue := { c.queue with expectedAcks := echoes } }

theorem enter_apart (c : Channel) (phase : Phase) (head : Nat) (buffered : Table Nat Composite) (echoes : Nat) :
    (c.apart head buffered echoes).enter phase = (c.enter phase).apart head buffered echoes := by
  simp only [enter, apply_ite (apart · head buffered echoes)]
  rfl

theorem scheduleSend_apart (c : Channel) (head : Nat) (buffered : Table Nat Composite) (echoes : Nat) :
    (c.apart head buffered echoes).scheduleSend = c.scheduleSend.apart head buffered echoes := by
  simp only [scheduleSend, apply_ite (apart · head buffered echoes)]
  rfl

theorem settle_apart (c : Channel) (head : Nat) (buffered : Table Nat Composite) (echoes : Nat) :
    (c.apart head buffered echoes).settle = c.settle.apart head buffered echoes := by
  rw [settle, settle, ← scheduleSend_apart, ← enter_apart]
  rfl

theorem settle_keep (c : Channel) (e : Nat × Composite) : c.settle.keep e = (c.keep e).settle := by
  have hkeep : c.keep e = c.apart (c.keep e).knownHead (c.keep e).buffered c.queue.expectedAcks := rfl
  rw [hkeep, settle_apart]
  simp only [keep, apart, settle_knownHead, settle_buffered, settle_queue]

/-! ## Reply and echo -/

theorem delta_single (hopen : c.isConnected = true) (hphase : c.phase ≠ .waitingSync) {e : Nat × Composite}
    (hm : m.revisions = [e]) : c.delta m = (c.keep e).drain := by
  have hbuffer : c.buffer m = c.keep e := by rw [buffer_eq, hm, List.foldl_cons, List.foldl_nil]
  have habsorbs := buffer_drain_absorbs c m
  rw [hbuffer] at habsorbs
  rw [delta, if_pos hopen, hbuffer, checkSynced_of_ne (mt habsorbs.waiting hphase)]

/-- The channel once the reply to the operation in flight was taken in. -/
def replied (c : Channel) : Channel := (c.acknowledgeAll (c.queue.revision + 1)).settle

theorem replied_phase (c : Channel) : c.replied.phase = .allAcked := by
  rw [replied, settle, scheduleSend_phase, enter_phase]

theorem replied_isConnected (c : Channel) : c.replied.isConnected = true := by
  rw [isConnected, replied_phase]
  rfl

theorem replied_floor (hu : c.queue.unacked = [u]) : c.replied.floor = c.floor := by
  rw [floor_eq, replied, settle_queue]
  simp only [acknowledgeAll, hu, List.length_singleton, floor_eq]
  omega

theorem replied_drained (hd : c.Drained) (hu : c.queue.unacked = [u]) : c.replied.Drained :=
  hd.of_rests (.inl ⟨replied_floor hu, settle_buffered _⟩)

theorem submitAcked_single (hd : c.Drained) (hphase : c.phase = .waitingAck) (hu : c.queue.unacked = [u]) :
    c.submitAcked c.retryVersion (c.queue.revision + 1) = c.replied := by
  have hcurrent : c.isCurrent c.retryVersion = true := isCurrent_iff.2 ⟨by simp [hphase], rfl⟩
  rw [submitAcked_eq hcurrent hphase, if_neg (by simp [hu])]
  exact drain_of_drained (replied_drained hd hu)

/-- An expected echo that comes next is expected no more. -/
theorem applyDelta_expected (due : c.queue.expectedAcks ≠ 0) {revision : Nat}
    (next : revision = c.queue.revision + 1 - c.queue.expectedAcks) (op : Composite) :
    c.applyDelta revision op = c.apart c.knownHead c.buffered (c.queue.expectedAcks - 1) := by
  simp only [applyDelta, Queue.takeEcho_next (R := .exact) trivial due next]
  rfl

/-- The operation in flight is acknowledged by its echo as by the reply, after which the echo is let pass. -/
theorem applyDelta_replied (hphase : c.phase = .waitingAck) (hu : c.queue.unacked = [u])
    (due : c.queue.expectedAcks = 0) (own : op.IsFrom c.session) :
    (c.replied.aware (c.queue.revision + 1)).applyDelta (c.queue.revision + 1) op =
      (c.aware (c.queue.revision + 1)).applyDelta (c.queue.revision + 1) op := by
  let told : Channel := event { c.aware (c.queue.revision + 1) with queue := acknowledged c.queue 0 }
    (.ack (u.withRevision (c.queue.revision + 1)) (isClean { c with queue := acknowledged c.queue 0 }))
  have hecho : (c.aware (c.queue.revision + 1)).applyDelta (c.queue.revision + 1) op = told.settle :=
    applyDelta_own (c := c.aware (c.queue.revision + 1)) due hu hphase own
  have hreply : c.acknowledgeAll (c.queue.revision + 1) = told.apart told.knownHead told.buffered 1 := by
    simp only [acknowledgeAll, hu, due, ackEvents]
    rfl
  have hreplied : c.replied.aware (c.queue.revision + 1) = told.settle.apart told.knownHead told.buffered 1 := by
    have hhead : max told.knownHead (c.queue.revision + 1) = told.knownHead := Nat.max_eq_left (Nat.le_max_right ..)
    rw [replied, hreply, settle_apart]
    show told.settle.apart (max told.knownHead (c.queue.revision + 1)) told.buffered 1 = _
    rw [hhead]
  have hnext : c.queue.revision + 1 = told.settle.queue.revision + 1 - 1 := by
    rw [settle_queue]
    rfl
  rw [hecho, hreplied, applyDelta_expected Nat.one_ne_zero hnext]
  show told.settle.apart told.knownHead told.buffered 0 = told.settle
  rw [← settle_apart]
  rfl

/-- The echo of the operation in flight comes next. -/
theorem acknowledged_comm_next (hc : c.Orderly) (hdated : c.Dated) (hd : c.Drained) (hphase : c.phase = .waitingAck)
    (hu : c.queue.unacked = [u]) (due : c.queue.expectedAcks = 0)
    (hm : m.revisions = [(c.queue.revision + 1, op)]) (own : op.IsFrom c.session) :
    c.replied.delta m = (c.delta m).submitAcked c.retryVersion (c.queue.revision + 1) := by
  have hopen : c.isConnected = true := isConnected_iff.2 (by simp [hphase])
  have hfloor : c.floor = c.queue.revision := by rw [floor_eq, due, Nat.sub_zero]
  -- taken in as the echo of what is in flight, or as an echo that is expected
  have hfirst : c.delta m = ((c.aware (c.queue.revision + 1)).applyDelta (c.queue.revision + 1) op).drain := by
    rw [delta_single hopen (by simp [hphase]) hm, ← hfloor, keep_drain hopen hd]
  have hsecond : c.replied.delta m =
      ((c.replied.aware (c.queue.revision + 1)).applyDelta (c.queue.revision + 1) op).drain := by
    rw [delta_single (replied_isConnected c) (by simp [replied_phase]) hm, ← hfloor, ← replied_floor hu,
      keep_drain (replied_isConnected c) (replied_drained hd hu)]
  have happlied : (c.replied.aware (c.queue.revision + 1)).applyDelta (c.queue.revision + 1) op =
      (c.aware (c.queue.revision + 1)).applyDelta (c.queue.revision + 1) op := applyDelta_replied hphase hu due own
  have hsame : c.replied.delta m = c.delta m := by rw [hfirst, hsecond, happlied]
  have hreply : c.submitAcked c.retryVersion (c.queue.revision + 1) = c.replied := submitAcked_single hd hphase hu
  have horderly : c.replied.Orderly := hreply ▸ perform_orderly hc (.submitAcked c.retryVersion (c.queue.revision + 1))
  have hgrows : c.replied.revision ≤ (c.replied.delta m).revision := by
    have hdated : c.replied.Dated := hreply ▸ perform_dated hdated (.submitAcked c.retryVersion (c.queue.revision + 1))
    exact (perform_advances hdated (x := .delta m) (by simp)).grows
  rw [← hsame]
  refine (submitAcked_of_le (perform_orderly horderly (.delta m)) fun _ => ?_).symm
  refine Nat.le_trans ?_ hgrows
  rw [revision, replied, settle_queue]
  exact Nat.le_refl _

/-- The echo of the operation in flight has to wait for others that are expected. -/
theorem acknowledged_comm_later (hd : c.Drained) (hphase : c.phase = .waitingAck) (hu : c.queue.unacked = [u])
    (hle : c.queue.expectedAcks ≤ c.queue.revision) (due : c.queue.expectedAcks ≠ 0)
    (hm : m.revisions = [(c.queue.revision + 1, op)]) :
    c.replied.delta m = (c.delta m).submitAcked c.retryVersion (c.queue.revision + 1) := by
  have hopen : c.isConnected = true := isConnected_iff.2 (by simp [hphase])
  have hgap : c.floor + 1 < c.queue.revision + 1 := by
    simp only [floor_eq]
    omega
  have keeps : ∀ {d : Channel}, d.Drained → d.floor = c.floor → (d.keep (c.queue.revision + 1, op)).Drained := by
    intro d hd hfloor r hr
    rw [keep_contains, Bool.or_eq_true, beq_iff_eq] at hr
    show d.floor + 1 < r
    rcases hr with rfl | hr
    · rw [hfloor]
      exact hgap
    · exact hd r hr
  have hkept := keeps hd rfl
  have hfirst : c.delta m = c.keep (c.queue.revision + 1, op) := by
    rw [delta_single hopen (by simp [hphase]) hm, drain_of_drained hkept]
  have hsecond : c.replied.delta m = c.replied.keep (c.queue.revision + 1, op) := by
    rw [delta_single (replied_isConnected c) (by simp [replied_phase]) hm,
      drain_of_drained (keeps (replied_drained hd hu) (replied_floor hu))]
  have hreply : (c.keep (c.queue.revision + 1, op)).submitAcked c.retryVersion (c.queue.revision + 1) =
      (c.keep (c.queue.revision + 1, op)).replied := submitAcked_single hkept hphase hu
  rw [hfirst, hsecond, hreply, replied, replied, settle_keep]
  rfl

/-- **Reply and echo commute.** In every state in which a channel waits for a batch, the reply that the server took it
with nothing in between and the echoes of its operations may come in either order: the channel comes to the same, with
the same queue and deltas at hand, and it tells and asks for the same. -/
theorem run_acknowledged {document : DocumentId} {user : UserId} {session : SessionId} {config : Config}
    {calls : List Call} (hc : (new document user session config).run calls = c) (hphase : c.phase = .waitingAck)
    (hm : m.revisions.map (·.1) = List.range' (c.queue.revision + 1) c.queue.unacked.length)
    (own : ∀ e ∈ m.revisions, e.2.IsFrom c.session) :
    (c.submitAcked c.retryVersion (c.queue.revision + c.queue.unacked.length)).delta m =
      (c.delta m).submitAcked c.retryVersion (c.queue.revision + c.queue.unacked.length) := by
  have hnew := new_orderly document user session config
  have horderly : c.Orderly := hc ▸ run_orderly calls hnew
  have hdrained : c.Drained := hc ▸ run_drained calls hnew (new_drained _ _ _ _)
  have hdated : c.Dated := hc ▸ run_dated calls (new_dated _ _ _ _)
  -- the batch is a single operation
  obtain ⟨u, hu⟩ : ∃ u, c.queue.unacked = [u] := by
    have hflying := List.length_pos_iff.2 (horderly.flying hphase)
    have hsingle := horderly.single (by simp [hphase])
    exact List.length_eq_one_iff.1 (by omega)
  rw [hu, List.length_singleton] at hm ⊢
  obtain ⟨⟨revision, op⟩, he, hrevision⟩ := List.map_eq_singleton_iff.1 hm
  obtain rfl : revision = c.queue.revision + 1 := hrevision
  have own := own _ (he ▸ List.mem_singleton_self _)
  rw [submitAcked_single hdrained hphase hu]
  by_cases due : c.queue.expectedAcks = 0
  · exact acknowledged_comm_next horderly hdated hdrained hphase hu due he own
  · exact acknowledged_comm_later hdrained hphase hu horderly.echoes due he

/-- A second edit is in flight and a third one queued; the echo of the first is still to come, and a later delta waits
for that of the second. -/
def overtaken : List Call :=
  [.connect 5, .submit (typed 0 0 'a'), .flush, .submitAcked 0 6, .submit (typed 1 1 'b'), .flush,
    .submit (typed 2 2 'c'), .delta (told "them" 8 (typed 2 0 'x'))]

theorem run_acknowledged_overtaken :
    let c := (new ⟨"doc"⟩ ⟨"me"⟩ ⟨"me"⟩ {}).run overtaken
    (c.phase, c.queue.revision, c.queue.expectedAcks) = (.waitingAck, 6, 1) ∧
      (c.submitAcked 0 7).delta (told "me" 7 (typed 1 1 'b')) = (c.delta (told "me" 7 (typed 1 1 'b'))).submitAcked 0 7 := by
  intro c
  have hphase : c.phase = .waitingAck := by decide +kernel
  have hrevisions : (told "me" 7 (typed 1 1 'b')).revisions.map (·.1) =
      List.range' (c.queue.revision + 1) c.queue.unacked.length := by decide +kernel
  have hsession : c.session = ⟨"me"⟩ := by decide +kernel
  have own : ∀ e ∈ (told "me" 7 (typed 1 1 'b')).revisions, e.2.IsFrom c.session := by
    rw [hsession]
    exact List.forall_mem_singleton.2 rfl
  have hversion : c.retryVersion = 0 := by decide +kernel
  have hhead : c.queue.revision + c.queue.unacked.length = 7 := by decide +kernel
  have hcomm := run_acknowledged (show (new ⟨"doc"⟩ ⟨"me"⟩ ⟨"me"⟩ {}).run overtaken = c from rfl) hphase hrevisions own
  rw [hversion, hhead] at hcomm
  exact ⟨by decide +kernel, hcomm⟩

end Channel
end Coedit
