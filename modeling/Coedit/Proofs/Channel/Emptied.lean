import Coedit.Proofs.Channel.SaveState
import Coedit.Proofs.Queue.Runs

/-!
# Queued operations that are emptied

Compaction leaves out what changes nothing, and is due whenever an operation was recorded since the last one.  A queued
operation can lose its content later, though: an operation of another session that does the same empties it, and it
stays in the queue, where the next flush finds it and sends it.

* `Queue.Hollow` — an operation without components is queued, and no compaction is due;
* `Channel.Requeued`, `Channel.Step.requeued` — what an act does to the queued operations;
* `Channel.Empties`, `Channel.Step.hollow` — how an operation comes to be queued without components, and that it comes
  to be so in no other way;
* `Channel.submits_noop_iff` — when a flush submits an operation that changes nothing.
-/

namespace Coedit

namespace Composite

variable {s c s' c' : Composite}

/-- The composite has no components, unless it changes something. -/
def Pruned (c : Composite) : Prop := c.isNoop = true → c.components = []

/-- Of an operation that was passed only components that change something are left. -/
theorem transform_pruned (h : s.transform c = .ok (s', c')) : c'.Pruned := by
  obtain ⟨p, -, hp⟩ := map_eq_ok.1 h
  obtain ⟨-, rfl⟩ := Prod.mk.inj hp
  intro hn
  refine List.filter_eq_nil_iff.2 fun t ht hkept => ?_
  have htn := List.all_eq_true.1 hn t (List.mem_filter.2 ⟨ht, hkept⟩)
  rw [htn] at hkept
  cases hkept

theorem transform_of_components_nil (h : s.transform c = .ok (s', c')) (hc : c.components = []) : c'.components = [] := by
  obtain ⟨p, hp, hp'⟩ := map_eq_ok.1 h
  obtain ⟨-, rfl⟩ := Prod.mk.inj hp'
  rw [hc] at hp
  obtain rfl := Except.ok.inj hp
  rfl

theorem isNoop_of_components_nil (h : c.components = []) : c.isNoop = true := by
  rw [isNoop, h]
  rfl

end Composite

/-! ## Queues -/

namespace Queue

variable {q q' : Queue Composite} {op u v : Composite} {ops : List Composite} {revision : Nat} {o : Origin}

/-- An operation without components is queued, and no compaction is due. -/
structure Hollow (q : Queue Composite) : Prop where
  fresh : q.fresh = false
  empty : ∃ op ∈ q.queued, op.components = []

/-- Unless compaction is due, what is queued and changes nothing has no components. -/
def Pruned (q : Queue Composite) : Prop := q.fresh = false → ∀ op ∈ q.queued, op.Pruned

theorem pruned_of_queued_nil (h : q.queued = []) : q.Pruned := fun _ op hop => by
  rw [h] at hop
  exact absurd hop List.not_mem_nil

theorem compacted_of_not_fresh (h : q.fresh = false) : q.compacted = .ok q.queued := by
  rw [compacted, if_neg (by simp [h])]

theorem send_of_compacted (hnone : q.unacked = []) (hc : q.compacted = .ok ops) : q.send = (.ok ops, q.sent ops) := by
  rw [compacted] at hc
  rw [send, if_neg (by simp [hnone]), hc]
  rfl

theorem send_of_compacted_error {e : ComposeFault} (hnone : q.unacked = []) (hc : q.compacted = .error e) :
    q.send = (.error (.compose e), { q with queued := [] }) := by
  rw [compacted] at hc
  rw [send, if_neg (by simp [hnone]), hc]

/-- What is sent or passed changes something, unless it was emptied before. -/
theorem Pruned.hollow (hp : q.Pruned) (hc : q.compacted = .ok ops) (hop : op ∈ ops) (hn : op.isNoop = true) :
    q.Hollow := by
  cases hf : q.fresh with
  | true =>
    rw [compacted, if_pos hf] at hc
    have hno : op.isNoop = false := isNoop_of_mem_compact hc hop
    rw [hn] at hno
    cases hno
  | false =>
    rw [compacted_of_not_fresh hf] at hc
    obtain rfl := Except.ok.inj hc
    exact ⟨hf, op, hop, hp hf op hop hn⟩

/-- What an operation of another session does to the queued ones, of which compaction leaves one at most. -/
inductive Passes (q q' : Queue Composite) : Prop where
  | same (queued : q'.queued = q.queued) (fresh : q'.fresh = q.fresh)
  | cancelled (compacted : q.compacted = .ok []) (queued : q'.queued = [])
  | passed {u u' : Composite} (compacted : q.compacted = .ok [u]) (queued : q'.queued = [u']) (fresh : q'.fresh = false)
      (pruned : u'.Pruned) (empty : u.components = [] → u'.components = [])

theorem Stamped.passes (hs : q.Stamped o) (h : q.receive revision op = (.ok (), q')) : q.Passes q' := by
  obtain ⟨unacked, op₁, queued, fresh, op₂, -, rfl, ⟨rfl, rfl, -⟩ | ⟨ops, hcompacted, hpassed, rfl⟩⟩ := receive_eq_ok h
  · exact .same rfl rfl
  · have hlen := (hs.compacted hcompacted).2
    cases ops with
    | nil =>
      obtain ⟨rfl, -⟩ := Prod.mk.inj hpassed
      exact .cancelled hcompacted rfl
    | cons u us =>
      obtain rfl : us = [] := List.length_eq_zero_iff.1 (by simpa using hlen)
      obtain ⟨_, u', _, ht, hnil, rfl⟩ := passClients_cons_eq_ok.1 hpassed
      obtain ⟨rfl, -⟩ := Prod.mk.inj hnil
      exact .passed hcompacted rfl rfl (Composite.transform_pruned ht) (Composite.transform_of_components_nil ht)

theorem Passes.pruned (h : q.Passes q') (hp : q.Pruned) : q'.Pruned := by
  cases h with
  | same queued fresh => rwa [Pruned, queued, fresh]
  | cancelled _ queued => exact pruned_of_queued_nil queued
  | passed _ queued _ pruned =>
    intro _ u' hu'
    rw [queued] at hu'
    rwa [List.mem_singleton.1 hu']

/-- An operation without components stays so, whatever it is passed by. -/
theorem Passes.hollow (h : q.Passes q') (hq : q.Hollow) : q'.Hollow := by
  obtain ⟨hfresh, u, hu, hnone⟩ := hq
  have hqueued := compacted_of_not_fresh hfresh
  cases h with
  | same queued fresh => exact ⟨fresh.trans hfresh, u, queued ▸ hu, hnone⟩
  | cancelled compacted =>
    rw [Except.ok.inj (hqueued.symm.trans compacted)] at hu
    exact absurd hu List.not_mem_nil
  | passed compacted queued fresh _ empty =>
    rw [Except.ok.inj (hqueued.symm.trans compacted)] at hu
    obtain rfl := List.mem_singleton.1 hu
    exact ⟨fresh, _, queued ▸ List.mem_singleton_self _, empty hnone⟩

/-- A single operation that changes nothing is not compacted into one that does. -/
theorem isNoop_of_compacted (hq : q.queued = [u]) (hn : u.isNoop = true) (hc : q.compacted = .ok [v]) :
    v.isNoop = true := by
  cases hf : q.fresh with
  | true =>
    have hn : Operation.isNoop u = true := hn
    rw [compacted, if_pos hf, hq, compact_of_settled (.singleton u), List.filter_cons_of_neg (by simp [hn])] at hc
    cases hc
  | false =>
    rw [compacted_of_not_fresh hf, hq] at hc
    cases hc
    exact hn

end Queue

/-! ## Acts -/

namespace Channel

variable {c c' : Channel} {x : Call} {calls : List Call}

/-- What an act does to the queued operations, if it leaves the channel connected. -/
inductive Requeued (x : Call) (c c' : Channel) : Prop where
  | none (queued : c'.queue.queued = [])
  | recorded {op : Composite} (call : x = .submit op) (fresh : c'.queue.fresh = true)
  | received {revision : Nat} {op : Composite} (phase : c.phase ≠ .uninitialized)
      (result : c.queue.receive revision op = (.ok (), c'.queue))
  | same (phase : c.phase ≠ .uninitialized) (queued : c'.queue.queued = c.queue.queued)
      (fresh : c'.queue.fresh = c.queue.fresh)

theorem Act.requeued (h : Act x c c') (hopen : c'.phase ≠ .uninitialized) : Requeued x c c' := by
  cases h with
  | connected => exact .none rfl
  | ended => exact absurd rfl hopen
  | recorded call _ result =>
    obtain ⟨_, _, -, rfl⟩ := Queue.record_eq_ok result
    exact .recorded call rfl
  | cancelled | sent => exact .none rfl
  | received phase _ result => exact .received phase result
  | stayed | delivered => exact .same hopen rfl rfl
  | heard phase | echoed phase | acked phase => exact .same phase rfl rfl
  | settled phase | delayed _ _ phase => exact .same (by rcases phase with h | h <;> simp [h]) rfl rfl
  | ackedAll _ phase | waited _ phase | synced phase | resumed phase => exact .same (by simp [phase]) rfl rfl

theorem Step.requeued (h : Step x c c') (hopen : c'.phase ≠ .uninitialized) : Requeued x c c' := by
  obtain ⟨m, hact, ⟨_, _, _⟩⟩ := h
  cases hact.requeued hopen with
  | none queued => exact .none queued
  | recorded call fresh => exact .recorded call fresh
  | received phase result => exact .received phase result
  | same phase queued fresh => exact .same phase queued fresh

/-- While it is connected, what is queued and changes nothing has no components, unless compaction is due. -/
def Pruned (c : Channel) : Prop := c.phase ≠ .uninitialized → c.queue.Pruned

theorem Step.pruned (h : Step x c c') (hc : c.Orderly) (hp : c.Pruned) : c'.Pruned := by
  intro hopen
  cases h.requeued hopen with
  | none queued => exact Queue.pruned_of_queued_nil queued
  | recorded _ fresh =>
    intro hf
    rw [fresh] at hf
    cases hf
  | received phase result => exact ((hc.stamped phase).passes result).pruned (hp phase)
  | same phase queued fresh =>
    have hq := hp phase
    rwa [Queue.Pruned, ← queued, ← fresh] at hq

/-- An operation without components is queued, and no compaction is due. -/
structure Hollow (c : Channel) : Prop where
  phase : c.phase ≠ .uninitialized
  queue : c.queue.Hollow

/-- An operation of another session is taken in that empties what is queued: compaction leaves an operation that
changes something, and that one changes nothing once it was passed. -/
structure Empties (c c' : Channel) : Prop where
  phase : c.phase ≠ .uninitialized
  received : ∃ revision op, c.queue.receive revision op = (.ok (), c'.queue)
  before : ∃ u, c.queue.compacted = .ok [u] ∧ u.isNoop = false
  after : ∃ u, c'.queue.queued = [u] ∧ u.isNoop = true

/-- An operation comes to be queued without components in one way only. -/
theorem Step.hollow (h : Step x c c') (hc : c.Orderly) (hp : c.Pruned) (hh : c'.Hollow) : c.Hollow ∨ c.Empties c' := by
  obtain ⟨hopen, hfresh', u, hu, hnone⟩ := hh
  cases h.requeued hopen with
  | none queued =>
    rw [queued] at hu
    exact absurd hu List.not_mem_nil
  | recorded _ fresh =>
    rw [hfresh'] at fresh
    cases fresh
  | received phase result =>
    cases (hc.stamped phase).passes result with
    | same queued fresh => exact .inl ⟨phase, fresh ▸ hfresh', u, queued ▸ hu, hnone⟩
    | cancelled _ queued =>
      rw [queued] at hu
      exact absurd hu List.not_mem_nil
    | @passed v u' compacted queued =>
      rw [queued] at hu
      obtain rfl := List.mem_singleton.1 hu
      cases hv : v.isNoop with
      | true => exact .inl ⟨phase, (hp phase).hollow compacted (List.mem_singleton_self v) hv⟩
      | false => exact .inr ⟨phase, ⟨_, _, result⟩, ⟨v, compacted, hv⟩, ⟨u, queued, Composite.isNoop_of_components_nil hnone⟩⟩
  | same phase queued fresh => exact .inl ⟨phase, fresh ▸ hfresh', u, queued ▸ hu, hnone⟩

/-- Nothing is queued that a flush could send, except without components. -/
def Spent (c : Channel) : Prop := c.phase = .uninitialized ∨ c.queue.queued = [] ∨ c.queue.Hollow

theorem Spent.hollow (h : c.Spent) (hmay : c.maySend = true) : c.Hollow := by
  obtain ⟨hphase, -, -, hqueued⟩ := maySend_iff.1 hmay
  have hopen : c.phase ≠ .uninitialized := by simp [hphase]
  exact ⟨hopen, (h.resolve_left hopen).resolve_left hqueued⟩

theorem Step.spent (h : Step x c c') (hc : c.Orderly) (hx : ∀ op, x ≠ .submit op) (hs : c.Spent) : c'.Spent := by
  by_cases hopen : c'.phase = .uninitialized
  · exact .inl hopen
  refine .inr ?_
  cases h.requeued hopen with
  | none queued => exact .inl queued
  | recorded call => exact absurd call (hx _)
  | received phase result =>
    rcases hs.resolve_left phase with hq | hq
    · exact .inl ((congrArg (fun r => r.2.queued) result).symm.trans (Queue.receive_queued hq _ _))
    · exact .inr (((hc.stamped phase).passes result).hollow hq)
  | same phase queued fresh =>
    rcases hs.resolve_left phase with hq | ⟨hf, hempty⟩
    · exact .inl (queued.trans hq)
    · exact .inr ⟨fresh.trans hf, queued ▸ hempty⟩

theorem Empties.spent (he : c.Empties c') (hc : c.Orderly) : c'.Spent := by
  obtain ⟨phase, ⟨_, _, result⟩, ⟨u, hu, hsome⟩, u', hu', hnone⟩ := he
  refine .inr ?_
  cases (hc.stamped phase).passes result with
  | same queued =>
    have hn := Queue.isNoop_of_compacted (queued.symm.trans hu') hnone hu
    rw [hsome] at hn
    cases hn
  | cancelled _ queued => exact .inl queued
  | passed _ queued fresh pruned =>
    obtain rfl := List.singleton_inj.1 (hu'.symm.trans queued)
    exact .inr ⟨fresh, u', queued ▸ List.mem_singleton_self u', pruned hnone⟩

/-! ## Calls and runs -/

theorem new_pruned (document : DocumentId) (user : UserId) (session : SessionId) (config : Config) :
    (new document user session config).Pruned := fun h => absurd rfl h

theorem stages_pruned (hc : c.Orderly) (hp : c.Pruned) (x : Call) : ∀ d ∈ c.stages x, d.Pruned :=
  stages_all hc hp fun _ hd hstep hp => hstep.pruned hd hp

theorem perform_pruned (hc : c.Orderly) (hp : c.Pruned) (x : Call) : (c.perform x).2.Pruned :=
  stages_pruned hc hp x _ (perform_mem_stages hc x)

theorem run_pruned : ∀ (calls : List Call) {c : Channel}, c.Orderly → c.Pruned → (c.run calls).Pruned
  | [], _, _, hp => hp
  | x :: calls, _, hc, hp => run_pruned calls (perform_orderly hc x) (perform_pruned hc hp x)

/-- What holds at the end of a chain held at its start, or it came about between two neighbours. -/
theorem exists_infix_of_isChain {α : Type} {P : α → Prop} {Q : α → α → Prop} : ∀ {l : List α} {a b : α},
    (a :: l).IsChain (fun a b => P b → P a ∨ Q a b) → (a :: l).getLast? = some b → P b →
      P a ∨ ∃ m m', [m, m'] <:+: a :: l ∧ Q m m'
  | [], _, _, _, hlast, hb => by
    obtain rfl := Option.some.inj hlast
    exact .inl hb
  | m :: l, a, b, h, hlast, hb => by
    obtain ⟨ham, hrest⟩ := List.isChain_cons_cons.1 h
    rw [List.getLast?_cons_cons] at hlast
    rcases exists_infix_of_isChain hrest hlast hb with hm | ⟨n, n', hinfix, hn⟩
    · exact (ham hm).imp id fun hq => ⟨a, m, (List.prefix_append [a, m] l).isInfix, hq⟩
    · exact .inr ⟨n, n', hinfix.trans (List.suffix_cons a _).isInfix, hn⟩

/-- In the course of the call an operation of another session empties what is queued. -/
def EmptiesIn (c : Channel) (x : Call) : Prop := ∃ a a', [a, a'] <:+: c.stages x ∧ a.Empties a'

theorem perform_hollow (hc : c.Orderly) (hp : c.Pruned) (h : (c.perform x).2.Hollow) : c.Hollow ∨ c.EmptiesIn x := by
  obtain ⟨rest, hstages, hchain, hlast⟩ := stages_isChain hc x
  have hpruned := stages_pruned hc hp x
  have horderly := stages_orderly hc x
  rw [EmptiesIn, hstages]
  rw [hstages] at hpruned horderly
  refine exists_infix_of_isChain ((List.IsChain.iff_mem.1 hchain).imp fun a b hab => ?_) hlast h
  exact hab.2.2.hollow (horderly a hab.1) (hpruned a hab.1)

/-- A channel that took an edit is due for compaction, or lost its connection. -/
theorem submit_not_hollow {op : Composite} (h : c.submit op = .ok c') : ¬ c'.Hollow := by
  unfold submit at h
  split at h
  next => cases h
  next =>
    split at h
    next =>
      obtain rfl := Except.ok.inj h
      intro hh
      have hopen := isConnected_iff.2 hh.phase
      rw [fail_isConnected] at hopen
      cases hopen
    next result =>
      obtain rfl := Except.ok.inj h
      obtain ⟨_, _, -, rfl⟩ := Queue.record_eq_ok result
      intro hh
      have hfresh := hh.queue.fresh
      rw [scheduleSend_queue] at hfresh
      cases hfresh

theorem perform_not_hollow (c : Channel) (op : Composite) : ¬ (c.perform (.submit op)).2.Hollow := by
  intro hh
  rw [perform] at hh
  cases h : c.submit op with
  | error e =>
    -- only a channel that is not connected refuses an edit
    rw [h] at hh
    have hopen : c.isConnected = true := isConnected_iff.2 hh.phase
    rw [submit, if_neg (by simp [hopen])] at h
    split at h <;> cases h
  | ok c' =>
    rw [h] at hh
    exact submit_not_hollow h hh

/-- An operation that is queued without components at the end of a run was emptied in its course, or was so at the
start, and no edit was made since. -/
theorem run_hollow : ∀ (calls : List Call) {c : Channel}, c.Orderly → c.Pruned → (c.run calls).Hollow →
    (c.Hollow ∧ ∀ op, .submit op ∉ calls) ∨ ∃ before x after, calls = before ++ x :: after ∧
      (c.run before).EmptiesIn x ∧ ∀ op, .submit op ∉ x :: after
  | [], _, _, _, h => .inl ⟨h, fun _ => List.not_mem_nil⟩
  | x :: calls, c, hc, hp, h => by
    rcases run_hollow calls (perform_orderly hc x) (perform_pruned hc hp x) h with
      ⟨hh, hcalls⟩ | ⟨before, y, after, rfl, hempties, hafter⟩
    · have hsubmit : ∀ op, .submit op ∉ x :: calls := by
        intro op hop
        rcases List.mem_cons.1 hop with rfl | hop
        · exact perform_not_hollow c op hh
        · exact hcalls op hop
      rcases perform_hollow hc hp hh with hh | hempties
      · exact .inl ⟨hh, hsubmit⟩
      · exact .inr ⟨[], x, calls, rfl, hempties, hsubmit⟩
    · exact .inr ⟨x :: before, y, after, rfl, hempties, hafter⟩

theorem run_spent : ∀ (calls : List Call) {c : Channel}, c.Orderly → (∀ op, .submit op ∉ calls) → c.Spent →
    (c.run calls).Spent
  | [], _, _, _, h => h
  | x :: calls, c, hc, hcalls, h => by
    have hx : ∀ op, x ≠ .submit op := fun op hop => hcalls op (hop ▸ List.mem_cons_self)
    have hnext : (c.perform x).2.Spent :=
      stages_all hc h (fun _ hd hstep hs => hstep.spent hd hx hs) _ (perform_mem_stages hc x)
    exact run_spent calls (perform_orderly hc x) (fun op hop => hcalls op (List.mem_cons_of_mem _ hop)) hnext

theorem EmptiesIn.spent (h : c.EmptiesIn x) (hc : c.Orderly) (hx : ∀ op, x ≠ .submit op) : (c.perform x).2.Spent := by
  obtain ⟨a, a', ⟨before, after, hinfix⟩, hempties⟩ := h
  obtain ⟨rest, hstages, hchain, hlast⟩ := stages_isChain hc x
  have horderly := stages_orderly hc x
  have hsplit : c :: rest = (before ++ [a]) ++ a' :: after := by simp [← hstages, ← hinfix]
  rw [hstages, hsplit] at horderly
  rw [hsplit] at hchain hlast
  rw [List.getLast?_append_of_ne_nil _ (List.cons_ne_nil _ _)] at hlast
  -- what the later acts keep holds from the state in which it was emptied on
  have hafter : ∀ d ∈ a' :: after, d.Orderly := fun d hd => horderly d (List.mem_append_right _ hd)
  have hspent : a'.Spent := hempties.spent (horderly a (by simp))
  have hall := (List.IsChain.iff_mem.1 (List.isChain_append.1 hchain).2.1).induction Spent _
    (fun d d' ⟨hd, _, hstep⟩ hs => hstep.spent (hafter d hd) hx hs) fun _ => hspent
  exact hall _ (List.mem_of_getLast? hlast)

/-! ## Flushing -/

theorem submitted_of_append {rs : List DeltaRequest} (h : (c.perform x).2.submissions = c.submissions ++ rs) :
    c.submitted x = rs := by
  rw [submitted, h, List.drop_left]

/-- A flush submits what compaction leaves of the queued operations. -/
theorem mem_submitted_flush {r : DeltaRequest} : r ∈ c.submitted .flush ↔ c.maySend = true ∧
    ∃ batch, c.queue.compacted = .ok batch ∧ batch ≠ [] ∧ r = ⟨c.document, c.session, c.queue.revision, batch⟩ := by
  have hnothing : c.flush.submissions = c.submissions → r ∉ c.submitted .flush := by
    intro h
    have hnone : c.submitted .flush = [] := submitted_of_append (h.trans (List.append_nil _).symm)
    exact hnone ▸ List.not_mem_nil
  by_cases hmay : c.maySend = true
  · have hmay' : ({ c with sendScheduled := false } : Channel).maySend = true := hmay
    have hnone := (maySend_iff.1 hmay).2.2.1
    simp only [hmay, true_and]
    cases hc : c.queue.compacted with
    | error e =>
      have hsend := Queue.send_of_compacted_error hnone hc
      constructor
      · refine fun hr => absurd hr (hnothing ?_)
        simp only [flush, if_pos hmay', hsend, fail_submissions]
        rfl
      · rintro ⟨_, h, -⟩
        cases h
    | ok batch =>
      have hsend := Queue.send_of_compacted hnone hc
      by_cases hb : batch = []
      · constructor
        · refine fun hr => absurd hr (hnothing ?_)
          simp only [flush, if_pos hmay', hsend, hb, List.isEmpty_nil, if_true]
          rfl
        · rintro ⟨ops, hops, hne, -⟩
          exact absurd (Except.ok.inj hops ▸ hb) hne
      · have hsubmitted : c.submitted .flush = [⟨c.document, c.session, c.queue.revision, batch⟩] := by
          refine submitted_of_append ?_
          simp only [perform, flush, if_pos hmay', hsend, List.isEmpty_iff, if_neg hb, enter_submissions,
            submitBatch_submissions]
          rfl
        rw [hsubmitted, List.mem_singleton]
        constructor
        · exact fun hr => ⟨batch, rfl, hb, hr⟩
        · rintro ⟨ops, hops, -, hr⟩
          rwa [← Except.ok.inj hops] at hr
  · have hmay' : ¬ ({ c with sendScheduled := false } : Channel).maySend = true := hmay
    refine ⟨fun hr => absurd hr (hnothing ?_), fun h => absurd h.1 hmay⟩
    rw [flush]
    dsimp only
    rw [if_neg hmay']
    rfl

/-- A flush submits an operation that changes nothing exactly if it finds one queued without components. -/
theorem flush_noop_iff (hp : c.Pruned) : (∃ r ∈ c.submitted .flush, ∃ op ∈ r.deltas, op.isNoop = true) ↔
    c.maySend = true ∧ c.Hollow := by
  constructor
  · rintro ⟨r, hr, op, hop, hn⟩
    obtain ⟨hmay, batch, hcompacted, -, rfl⟩ := mem_submitted_flush.1 hr
    have hphase : c.phase ≠ .uninitialized := by simp [(maySend_iff.1 hmay).1]
    exact ⟨hmay, hphase, (hp hphase).hollow hcompacted hop hn⟩
  · rintro ⟨hmay, hh⟩
    obtain ⟨hfresh, op, hop, hnone⟩ := hh.queue
    have hqueued := (maySend_iff.1 hmay).2.2.2
    have hr := mem_submitted_flush.2 ⟨hmay, _, Queue.compacted_of_not_fresh hfresh, hqueued, rfl⟩
    exact ⟨_, hr, op, hop, Composite.isNoop_of_components_nil hnone⟩

/-- **When an edit is sent that changes nothing.** Whatever calls a channel was given, a flush submits an operation that
changes nothing exactly if the channel may send and an operation of another session emptied what was queued, with no
edit made since. So what cancelled out against other edits of the session is never sent, and neither is what was emptied
before a later edit. -/
theorem submits_noop_iff (document : DocumentId) (user : UserId) (session : SessionId) (config : Config)
    (calls : List Call) :
    (∃ r ∈ ((new document user session config).run calls).submitted .flush, ∃ op ∈ r.deltas, op.isNoop = true) ↔
      ((new document user session config).run calls).maySend = true ∧
        ∃ before x after, calls = before ++ x :: after ∧ ((new document user session config).run before).EmptiesIn x ∧
          ∀ op, .submit op ∉ x :: after := by
  have horderly := new_orderly document user session config
  have hpruned := new_pruned document user session config
  rw [flush_noop_iff (run_pruned calls horderly hpruned)]
  refine and_congr_right fun hmay => ⟨fun hh => ?_, ?_⟩
  · exact (run_hollow calls horderly hpruned hh).resolve_left fun hnew => hnew.1.phase rfl
  · rintro ⟨before, x, after, rfl, hempties, hafter⟩
    have hrun : (new document user session config).run (before ++ x :: after)
        = (((new document user session config).run before).perform x).2.run after := by
      rw [run, List.foldl_append, List.foldl_cons]
      rfl
    rw [hrun] at hmay ⊢
    have hbefore := run_orderly before horderly
    have hx : ∀ op, x ≠ .submit op := fun op hop => hafter op (hop ▸ List.mem_cons_self)
    have hspent := run_spent after (perform_orderly hbefore x) (fun op hop => hafter op (List.mem_cons_of_mem _ hop))
      (hempties.spent hbefore hx)
    exact hspent.hollow hmay

/-- The session and another one delete the same character. -/
def bothDelete : List Call :=
  [.connect 0, .submit (.ofComponents [⟨⟨"body"⟩, .text (.deleteAt 1 0 ['a'])⟩]),
    .delta (told "them" 1 (.ofComponents [⟨⟨"body"⟩, .text (.deleteAt 1 0 ['a'])⟩]))]

/-- The flush that follows submits an operation without components. -/
theorem not_submits_something : ¬ ∀ (document : DocumentId) (user : UserId) (session : SessionId) (config : Config)
    (calls : List Call), ∀ r ∈ ((new document user session config).run calls).submitted .flush, ∀ op ∈ r.deltas,
      op.isNoop = false := by
  intro h
  have hsent : ¬ ∀ r ∈ (fresh.run bothDelete).submitted .flush, ∀ op ∈ r.deltas, op.isNoop = false := by decide +kernel
  exact hsent (h _ _ _ _ bothDelete)

end Channel
end Coedit
