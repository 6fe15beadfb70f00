import Coedit.Proofs.Channel.Follows

/-!
# Deltas in order

A channel takes in buffered deltas one revision after the other.  Each is an echo that is expected, the echo of the
operation in flight, or an operation of another session, and after each the channel follows the server one revision
further.

* `Channel.Flight.echo`, `Channel.Flight.pass` — where the operation in flight is after one revision more;
* `Channel.applyDelta_takesIn` — the delta after the floor.
-/

namespace Coedit
namespace Channel

variable {σ : Schema} {w : Setting} {c : Channel} {q q' : Queue Composite} {h op : Composite} {revision : Nat}
  {D y : Document} {phase : Phase} {requests : List DeltaRequest}

/-! ## The next operation of the history -/

section next
variable [Lengths] {H : List Composite} {r : Nat}

/-- What follows a revision in the history leads from the document there to the present one. -/
theorem chain_drop (hH : (Composite.calculus σ).Chain H .empty D)
    (hy : (Composite.calculus σ).Chain (H.take r) .empty y) : (Composite.calculus σ).Chain (H.drop r) y D := by
  rw [← List.take_append_drop r H] at hH
  obtain ⟨y', hy', hD⟩ := Calculus.chain_append.1 hH
  exact hD.congr_left (hy'.unique hy)

/-- The next operation of the history applies to the server's document before it. -/
theorem next_maps (hH : (Composite.calculus σ).Chain H .empty D)
    (hy : (Composite.calculus σ).Chain (H.take r) .empty y) (hr : H[r]? = some h) :
    ∃ y', (Composite.calculus σ).Maps h y y' ∧ (Composite.calculus σ).Chain (H.take (r + 1)) .empty y' := by
  have hD := chain_drop hH hy
  rw [drop_of_getElem? hr] at hD
  obtain ⟨y', hm, _⟩ := hD
  refine ⟨y', hm, ?_⟩
  rw [take_of_getElem? hr]
  exact hy.snoc hm

end next

theorem maps_withRevision [Lengths] {x : Document} (hm : (Composite.calculus σ).Maps op x y) (revision : Nat) :
    (Composite.calculus σ).Maps (op.withRevision revision) x y := hm

/-! ## Where the operation in flight is afterwards -/

/-- The next operation comes from this session: it is the one in flight, as it was applied. -/
theorem Flight.echo [Lengths] (hf : Flight w q phase requests) (hr : w.history[q.revision]? = some h)
    (own : h.IsFrom w.session) (hu : q'.unacked = []) (hrev : q'.revision = q.revision + 1) :
    q.unacked = [h] ∧ phase = .waitingAck ∧ Flight w q' .allAcked requests := by
  have hdrop := drop_of_getElem? hr
  cases hf with
  | idle unacked later heads => exact absurd own (later h (by rw [hdrop]; exact List.mem_cons_self ..))
  | sent unacked deltas revision span passed later heads =>
    exact absurd own (later h (by rw [hdrop]; exact List.mem_cons_self ..))
  | @served u echo ahead rest unacked span passed _ before later heads =>
    rw [hdrop] at span
    cases ahead with
    | cons a ahead =>
      obtain ⟨rfl, _⟩ := List.cons.inj span
      exact absurd own (before h (List.mem_cons_self ..))
    | nil =>
      obtain ⟨rfl, hrest⟩ := List.cons.inj span
      obtain rfl : u = h := Except.ok.inj passed
      refine ⟨unacked, rfl, .idle hu ?_ ?_⟩
      · rw [hrev, hrest]
        exact later
      · intro n hn
        have := heads n hn
        simp only [List.length_nil] at this
        omega

/-- An operation of the history passes the one in flight as `passServers` has it too. -/
theorem passClients_single [Lengths] {u : Composite} {us : List Composite}
    (hp : passClients (h.withRevision revision) [u] = (us, .ok op)) :
    ∃ h' u', Operation.transform h u = .ok (h', u') ∧ us = [u'] := by
  obtain ⟨h₁, u', us', ht, hnil, rfl⟩ := passClients_cons_eq_ok.1 hp
  cases hnil
  have ht : (h.withRevision revision).transform u = .ok (_, u') := ht
  rw [Composite.transform_withRevision, map_eq_ok] at ht
  obtain ⟨⟨h', v⟩, htv, he⟩ := ht
  obtain ⟨_, rfl⟩ := Prod.mk.inj he
  exact ⟨h', v, htv, rfl⟩

/-- The next operation comes from another session: the one in flight passes it. -/
theorem Flight.pass [Lengths] (hf : Flight w q phase requests) (hr : w.history[q.revision]? = some h)
    (foreign : ¬ h.IsFrom w.session)
    (hp : passClients (h.withRevision revision) q.unacked = (q'.unacked, .ok op))
    (hrev : q'.revision = q.revision + 1) : Flight w q' phase requests := by
  have hdrop := drop_of_getElem? hr
  have still (later : Foreign w.session (w.history.drop q.revision)) :
      Foreign w.session (w.history.drop q'.revision) := by
    rw [hdrop] at later
    rw [hrev]
    exact fun a ha => later a (List.mem_cons_of_mem _ ha)
  cases hf with
  | idle unacked later heads =>
    rw [unacked] at hp
    refine .idle (Prod.mk.inj hp).1.symm (still later) fun n hn => ?_
    have := heads n hn
    omega
  | @sent request made u between unacked deltas revision span passed later heads =>
    rw [unacked] at hp
    obtain ⟨h', u', ht, hu'⟩ := passClients_single hp
    have hspan : w.history.drop request.revision = (between ++ [h]) ++ w.history.drop q'.revision := by
      rw [span, hrev, hdrop, List.append_assoc]
      rfl
    have hpassed : (passServers made (between ++ [h])).2 = .ok u' := by
      rw [passServers_append [h] passed]
      simp only [passServers, ht]
    refine .sent hu' deltas (by omega) hspan hpassed (still later) fun n hn => ?_
    have := heads n hn
    omega
  | @served u echo ahead rest unacked span passed own before later heads =>
    rw [unacked] at hp
    obtain ⟨h', u', ht, hu'⟩ := passClients_single hp
    rw [hdrop] at span
    cases ahead with
    | nil =>
      obtain ⟨rfl, _⟩ := List.cons.inj span
      exact absurd own foreign
    | cons a ahead =>
      obtain ⟨rfl, hrest⟩ := List.cons.inj span
      have hspan : w.history.drop q'.revision = ahead ++ echo :: rest := hrev ▸ hrest
      have hpassed : (passServers u' ahead).2 = .ok echo := by simpa only [passServers, ht] using passed
      refine .served hu' hspan hpassed own (fun a ha => before a (List.mem_cons_of_mem _ ha)) later fun n hn => ?_
      have := heads n hn
      simp only [List.length_cons] at this
      omega

/-! ## One delta -/

/-- The channel after a call has taken in `revision` and left the other deltas where they are. -/
structure TakesIn [Lengths] (σ : Schema) (w : Setting) (c : Channel) (revision : Nat) (c' : Channel) : Prop where
  follows : c'.Follows σ w
  floor : c'.floor = revision
  buffered : c'.buffered = c.buffered

/-- An echo that is expected was accounted for before. -/
theorem takeEcho_takesIn [Lengths] (h : c.Follows σ w) (he : c.queue.expectedAcks ≠ 0) :
    TakesIn σ w c (c.floor + 1) { c with queue := { c.queue with expectedAcks := c.queue.expectedAcks - 1 } } where
  follows :=
    { h with
      echoes := Nat.le_trans (Nat.sub_le ..) h.echoes
      balanced :=
        let ⟨y, hy, hb⟩ := h.balanced
        ⟨y, hy, hb.of_lists rfl rfl rfl⟩
      stamped := ⟨h.stamped.unacked, h.stamped.queued, h.stamped.single⟩
      flight := h.flight.of_eq rfl rfl }
  floor := by
    have := h.echoes
    simp only [floor_eq]
    omega
  buffered := rfl

/-- The queue once the operation in flight was acknowledged, with so many echoes expected. -/
def acknowledged (q : Queue Composite) (echoes : Nat) : Queue Composite :=
  { q with revision := q.revision + 1, unacked := [], expectedAcks := echoes }

/-- The operation in flight is the next one of the history, so it may be accounted for. -/
theorem acknowledged_holds [Lengths] (hc : c.Holds σ w) (hu : c.queue.unacked = [h])
    (hr : w.history[c.queue.revision]? = some h) (own : h.IsFrom w.session) {echoes : Nat}
    (he : echoes ≤ c.queue.revision + 1) :
    Holds σ w { c with queue := acknowledged c.queue echoes } := by
  obtain ⟨y, hy, hb⟩ := hc.balanced
  have hall : c.queue.unacked = [h] ++ [] := hu
  obtain ⟨y', hm, hb'⟩ := Queue.ack_balanced hb hall
  exact
    { hc with
      echoes := he
      head := (List.getElem?_eq_some_iff.1 hr).1
      stamped := ⟨fun _ h => absurd h List.not_mem_nil, hc.stamped.queued, hc.stamped.single⟩
      balanced := by
        refine ⟨y', ?_, ?_⟩
        · show (Composite.calculus σ).Chain (w.history.take (c.queue.revision + 1)) .empty y'
          rw [take_of_getElem? hr]
          exact Calculus.chain_append.2 ⟨y, hy, hm⟩
        · show (Composite.calculus σ).Balanced (w.added (c.queue.revision + 1)) (acknowledged c.queue echoes) _ _
          rw [Setting.added_own hr own]
          exact hb'.of_lists rfl rfl rfl
      owed := by
        have := hc.owed
        rw [hu, Setting.ahead_own hr own, Composite.insertLengths_append, Composite.insertLengths_cons] at this
        show Composite.insertLengths c.queue.queued ≤ w.pending + w.ahead (c.queue.revision + 1)
        omega }

theorem applyDelta_own [Lengths] (he : c.queue.expectedAcks = 0) (hu : c.queue.unacked = [h])
    (hphase : c.phase = .waitingAck) (own : op.IsFrom c.session) :
    c.applyDelta (c.queue.revision + 1) op =
      (event { c with queue := acknowledged c.queue 0 } (.ack (h.withRevision (c.queue.revision + 1))
        (isClean { c with queue := acknowledged c.queue 0 }))).settle := by
  have hhead : c.queue.unacked.head? = some h := by rw [hu, List.head?_cons]
  have own : op.origin.session = some c.session := own
  have hack : c.queue.ackFirst (c.queue.revision + 1) = (.ok true, acknowledged c.queue 0) := by
    rw [Queue.ackFirst_next (R := .exact) trivial he hu, acknowledged, ← he]
    rfl
  simp only [applyDelta, Queue.takeEcho_of_eq_zero he, own, if_true, hhead, hack, Bool.true_and]
  exact if_pos (by simp [event, hphase])

/-- The echo of the operation in flight acknowledges it. -/
theorem ack_takesIn [Lengths] (hc : c.Follows σ w) (he : c.queue.expectedAcks = 0)
    (hr : w.history[c.queue.revision]? = some h) (own : h.IsFrom w.session) :
    TakesIn σ w c (c.queue.revision + 1)
      (c.applyDelta (c.queue.revision + 1) (h.withRevision (c.queue.revision + 1))) := by
  have hacked : (acknowledged c.queue 0).unacked = [] := rfl
  obtain ⟨hu, hphase, hflight⟩ := hc.flight.echo hr own hacked rfl
  have hholds := acknowledged_holds hc.toHolds hu hr own (Nat.zero_le _)
  have hown : (h.withRevision (c.queue.revision + 1)).IsFrom c.session := by
    rw [hc.session]
    exact own
  rw [applyDelta_own he hu hphase hown]
  refine ⟨settle_follows (event_holds hholds rfl rfl) hflight, ?_, settle_buffered _⟩
  rw [floor_eq, settle_queue]
  rfl

/-- An operation of another session is put up for delivery. -/
theorem receive_takesIn [L : Lengths] (hc : c.Follows σ w) (hH : (Composite.calculus σ).Chain w.history .empty D)
    (hw : L.arithmetic.Fits w.total) (he : c.queue.expectedAcks = 0) (hr : w.history[c.queue.revision]? = some h) (foreign : ¬ h.IsFrom w.session) :
    TakesIn σ w c (c.queue.revision + 1)
      (c.applyDelta (c.queue.revision + 1) (h.withRevision (c.queue.revision + 1))) := by
  obtain ⟨y, hy, hb⟩ := hc.balanced
  obtain ⟨y', hm, hy'⟩ := next_maps hH hy hr
  have hadded : w.added (c.queue.revision + 1) = w.added c.queue.revision + h.insertLength :=
    Setting.added_foreign hr foreign
  have hfits : L.arithmetic.Fits (w.added c.queue.revision + (h.withRevision (c.queue.revision + 1)).insertLength) :=
    hadded ▸ hw.of_le (w.added_le_total _)
  obtain ⟨q', hq, hb', howed⟩ :=
    Queue.receive_balanced (R := .exact) Composite.joins_of_canCompose hb hfits trivial he
      (maps_withRevision hm (c.queue.revision + 1))
  have hstamped := hc.stamped.receive hq
  obtain ⟨unacked, op₁, queued, fresh, op₂, hp, rfl, _⟩ := Queue.receive_eq_ok hq
  have hsession : ¬ (h.withRevision (c.queue.revision + 1)).origin.session = some c.session := hc.session ▸ foreign
  have hlt := (List.getElem?_eq_some_iff.1 hr).1
  let received : Queue Composite :=
    { c.queue with unacked, queued, fresh }.deliverable (c.queue.revision + 1) op₂
  have hflight : Flight w received c.phase (w.mail ++ c.submissions) := hc.flight.pass hr foreign hp rfl
  have hdelta : c.applyDelta (c.queue.revision + 1) (h.withRevision (c.queue.revision + 1)) =
      { c with queue := received }.event (.remoteOp (c.queue.revision + 1)) := by
    simp only [applyDelta, Queue.takeEcho_of_eq_zero he, hsession, if_false, hq, received]
  rw [hdelta]
  refine ⟨⟨?_, hflight⟩, ?_, rfl⟩
  · exact
      { hc with
        echoes := by
          show c.queue.expectedAcks ≤ c.queue.revision + 1
          omega
        head := hlt
        stamped := hstamped
        balanced := by
          refine ⟨y', hy', ?_⟩
          show (Composite.calculus σ).Balanced (w.added (c.queue.revision + 1)) received _ _
          rw [hadded]
          exact hb'
        owed := by
          have hbefore := hc.owed
          rw [Setting.ahead_foreign hr foreign] at hbefore
          exact Nat.le_trans howed hbefore
        faultless := fun e he => by
          rcases List.mem_append.1 he with he | he
          · exact hc.faultless e he
          · rw [List.mem_singleton.1 he]
            rfl
        announced := by
          show (c.events ++ [_]).countP Event.isRemote = (c.queue.serverOps ++ [op₂]).length
          rw [List.countP_append, hc.announced, List.length_append]
          rfl }
  · show c.queue.revision + 1 - c.queue.expectedAcks = _
    omega

/-- The delta after the floor takes the channel one revision further. -/
theorem applyDelta_takesIn [L : Lengths] (hc : c.Follows σ w) (hH : (Composite.calculus σ).Chain w.history .empty D)
    (hw : L.arithmetic.Fits w.total) (hrec : Records w.history revision op) (hrev : revision = c.floor + 1) :
    TakesIn σ w c revision (c.applyDelta revision op) := by
  have hle := hc.echoes
  by_cases he : c.queue.expectedAcks = 0
  · obtain ⟨k, h, hr, rfl, rfl⟩ := hrec
    have hk : k = c.queue.revision := by
      simp only [floor_eq, he] at hrev
      omega
    subst hk
    by_cases own : h.IsFrom w.session
    · exact ack_takesIn hc he hr own
    · exact receive_takesIn hc hH hw he hr own
  · have hexp : revision = c.queue.revision + 1 - c.queue.expectedAcks := by
      simp only [floor_eq] at hrev
      omega
    have hdelta : c.applyDelta revision op =
        { c with queue := { c.queue with expectedAcks := c.queue.expectedAcks - 1 } } := by
      simp only [applyDelta, Queue.takeEcho_next (R := .exact) trivial he hexp]
    rw [hdelta, hrev]
    exact takeEcho_takesIn hc he

end Channel
end Coedit
