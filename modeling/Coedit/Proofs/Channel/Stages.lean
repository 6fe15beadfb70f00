import Mathlib.Data.List.Chain
import Coedit.Proofs.Channel.Acts

/-!
# The acts of a call

A call leads a channel through a list of states, from each to the next by one act.  Whatever every act keeps, every
call and every run keeps.

* `Channel.applyDelta_step`, `Channel.perform_step` — the act behind a delta and behind a call that takes in none;
* `Channel.Draining`, `Channel.drain_draining` — how the deltas at hand are taken in;
* `Channel.Direct`, `Channel.perform_direct` — what a call that takes in no deltas can do;
* `Channel.Opens`, `Channel.drains?_opens` — how another one begins;
* `Channel.stages`, `Channel.stages_isChain` — the states that a call leads through;
* `Channel.run_orderly`, `Channel.stages_all`, `Channel.perform_lift` — from acts to calls and runs.
-/

namespace Coedit
namespace Channel

variable {c c' c'' m : Channel} {x : Call} {q : Queue Composite} {op : Composite} {revision head : Nat}

/-! ## Losing the connection -/

theorem disconnect_eq (h : c.phase ≠ .uninitialized) : c.disconnect = c.cut c.queue [] := by
  unfold disconnect
  rw [if_pos (isConnected_iff.2 h)]
  simp only [cut, List.map_nil, List.append_nil]
  rfl

theorem disconnect_isConnected (c : Channel) : c.disconnect.isConnected = false := by
  unfold disconnect
  split
  next => rfl
  next hclosed => exact Bool.eq_false_iff.2 hclosed

theorem disconnect_events (c : Channel) : c.disconnect.events = c.events := by
  unfold disconnect
  split <;> rfl

theorem disconnect_queue (c : Channel) : c.disconnect.queue = c.queue := by
  unfold disconnect
  split <;> rfl

theorem fail_isConnected (c : Channel) (fault : Fault) : (c.fail fault).isConnected = false := disconnect_isConnected _

theorem fail_events (c : Channel) (fault : Fault) : (c.fail fault).events = c.events ++ [.error fault true] :=
  disconnect_events _

theorem fail_queue (c : Channel) (fault : Fault) : (c.fail fault).queue = c.queue := disconnect_queue _

theorem fail_eq (h : c.phase ≠ .uninitialized) (fault : Fault) : c.fail fault = c.cut c.queue [fault] := by
  have hopen : (c.event (.error fault true)).isConnected = true := isConnected_iff.2 h
  unfold fail disconnect
  rw [if_pos hopen]
  rfl

section lengths
variable [Lengths]

theorem fail_step (h : c.phase ≠ .uninitialized) {fault : Fault} (spoils : c.queue.Spoils q)
    (cause : x.reported? = some fault ∨ c.MayRaise fault) : Step x c ({ c with queue := q }.fail fault) := by
  rw [fail_eq (c := { c with queue := q }) h]
  have hact : Act x c (c.cut q [fault]) :=
    .ended h spoils fun f hf => by
      rw [List.mem_singleton.1 hf]
      exact cause
  exact hact.step

/-! ## One delta -/

theorem applyDelta_own_step (hphase : c.phase ≠ .uninitialized) (due : c.queue.expectedAcks = 0)
    (known : c.queue.revision < c.knownHead) (own : op.IsFrom c.session) :
    Step x c (c.applyDelta (c.queue.revision + 1) op) := by
  unfold applyDelta
  simp only [Queue.takeEcho_of_eq_zero due]
  rw [if_pos (show op.origin.session = some c.session from own)]
  cases flight : c.queue.unacked with
  | nil =>
    simp only [List.head?_nil]
    exact fail_step hphase (.refl _) (.inr (by rintro cause ⟨⟩; exact ⟨flight, rfl⟩))
  | cons u us =>
    simp only [List.head?_cons, Queue.ackFirst_next (R := .exact) trivial due flight]
    split
    next hdone =>
      simp only [Bool.and_eq_true, List.isEmpty_iff, Bool.or_eq_true, beq_iff_eq] at hdone
      obtain ⟨rfl, phase⟩ := hdone
      have hquiet := settle_quiet (event
        { c with queue := { c.queue with revision := c.queue.revision + 1, unacked := [] } }
        (.ack (u.withRevision (c.queue.revision + 1))
          (isClean { c with queue := { c.queue with revision := c.queue.revision + 1, unacked := [] } })))
      exact ⟨_, .settled phase due flight known, hquiet⟩
    next hwaits =>
      simp only [Bool.and_eq_true, List.isEmpty_iff, Bool.or_eq_true, beq_iff_eq, not_and_or] at hwaits
      have hact : Act x c (event
          { c with queue := { c.queue with revision := c.queue.revision + 1, unacked := us } }
          (.ack (u.withRevision (c.queue.revision + 1))
            (isClean { c with queue := { c.queue with revision := c.queue.revision + 1, unacked := us } }))) :=
        .acked hphase due flight known hwaits
      exact hact.step

theorem applyDelta_foreign_step (hphase : c.phase ≠ .uninitialized) (due : c.queue.expectedAcks = 0)
    (known : c.queue.revision < c.knownHead) (foreign : ¬ op.IsFrom c.session) :
    Step x c (c.applyDelta (c.queue.revision + 1) op) := by
  unfold applyDelta
  simp only [Queue.takeEcho_of_eq_zero due]
  rw [if_neg (show op.origin.session ≠ some c.session from foreign)]
  split
  next fault q result =>
    obtain ⟨spoils, hfault⟩ := Queue.receive_error due result
    exact fail_step hphase spoils (.inr (mayRaise_of_queue? c hfault))
  next q result =>
    have hact : Act x c ({ c with queue := q }.event (.remoteOp (c.queue.revision + 1))) :=
      .received hphase due result known
    exact hact.step

/-- The delta after the floor is an echo, or it is put up for delivery, or it ends the connection. -/
theorem applyDelta_step (hc : c.Orderly) (hphase : c.phase ≠ .uninitialized) (known : c.floor < c.knownHead)
    (op : Composite) : Step x c (c.applyDelta (c.floor + 1) op) := by
  have hle := hc.echoes
  by_cases due : c.queue.expectedAcks = 0
  · have hfloor : c.floor = c.queue.revision := by rw [floor_eq, due, Nat.sub_zero]
    rw [hfloor] at known ⊢
    by_cases own : op.IsFrom c.session
    · exact applyDelta_own_step hphase due known own
    · exact applyDelta_foreign_step hphase due known own
  · have hnext : c.floor + 1 = c.queue.revision + 1 - c.queue.expectedAcks := by
      simp only [floor_eq]
      omega
    have hecho : c.applyDelta (c.floor + 1) op =
        { c with queue := { c.queue with expectedAcks := c.queue.expectedAcks - 1 } } := by
      simp only [applyDelta, Queue.takeEcho_next (R := .exact) trivial due hnext]
    rw [hecho]
    exact (Act.echoed hphase due).step

theorem erase_step (h : c.phase ≠ .uninitialized) (revision : Nat) :
    Step x c { c with buffered := c.buffered.erase revision } := by
  have hact : Act x c { c with knownHead := c.knownHead, buffered := c.buffered.erase revision } :=
    .heard h (Nat.le_refl _) fun r hr => by
      rw [Table.contains_erase, Bool.and_eq_true] at hr
      exact .inl hr.2
  exact hact.step

/-- A channel that is still connected has only the deltas left that were not taken in. -/
theorem Taken.buffered (h : c.Taken revision op c') (hopen : c'.isConnected = true) : c'.buffered = c.buffered := by
  cases h with
  | refused fault => cases (fail_isConnected c fault).symm.trans hopen
  | conflict result => cases (fail_isConnected _ _).symm.trans hopen
  | echo result => rfl
  | acked own first result => rfl
  | settled own first result phase => exact settle_buffered _
  | received foreign result => rfl

/-! ## Draining -/

/-- The states that the channel goes through as it takes in deltas. -/
def drainStages [R : Revisions] : List (Nat × Composite) → Channel → List Channel
  | [], c => [c]
  | (revision, op) :: rest, c =>
    if !c.isConnected || c.floor + 1 < revision then [c]
    else
      let taken := { c with buffered := c.buffered.erase revision }
      if revision ≤ c.floor then c :: drainStages rest taken
      else c :: taken :: drainStages rest (taken.applyDelta revision op)

/-- A channel drains, by way of states, to another. -/
inductive Draining : Channel → List Channel → Channel → Prop where
  /-- The next delta is not at hand. -/
  | stops {c : Channel} (drained : c.isConnected = true → c.Drained) : Draining c [c] c
  /-- The first delta at hand is accounted for already. -/
  | drops {c d : Channel} {revision : Nat} {ds : List Channel} (connected : c.isConnected = true)
      (passed : revision ≤ c.floor) (rest : Draining { c with buffered := c.buffered.erase revision } ds d) :
      Draining c (c :: ds) d
  | takes {c d : Channel} {op : Composite} {ds : List Channel} (connected : c.isConnected = true)
      (next : c.buffered.get? (c.floor + 1) = some op)
      (rest : Draining (applyDelta { c with buffered := c.buffered.erase (c.floor + 1) } (c.floor + 1) op) ds d) :
      Draining c (c :: { c with buffered := c.buffered.erase (c.floor + 1) } :: ds) d

theorem drainEntries_draining (entries : List (Nat × Composite)) : ∀ {c : Channel},
    (c.isConnected = true → c.buffered.entries = entries) →
      Draining c (drainStages entries c) (drainEntries entries c) := by
  induction entries with
  | nil =>
    refine fun hentries => .stops fun hopen r hr => ?_
    rw [Table.contains, Table.get?, hentries hopen] at hr
    cases hr
  | cons e rest ih =>
    intro c hentries
    obtain ⟨revision, op⟩ := e
    unfold drainStages drainEntries
    split
    next hstop =>
      refine .stops fun hopen r hr => ?_
      have hgap : c.floor + 1 < revision := by simpa [hopen] using hstop
      exact Nat.lt_of_lt_of_le hgap (Nat.isLE_compare.1 (Table.isLE_of_contains (hentries hopen) hr))
    next hnext =>
      simp only [Bool.or_eq_true, Bool.not_eq_true', decide_eq_true_eq, not_or, Bool.not_eq_false, Nat.not_lt] at hnext
      obtain ⟨hopen, hgap⟩ := hnext
      have hrest := Table.entries_erase_first (hentries hopen)
      dsimp only
      split
      next hle => exact .drops hopen hle (ih fun _ => hrest)
      next hlt =>
        obtain rfl : revision = c.floor + 1 := by omega
        exact .takes hopen (Table.get?_first (hentries hopen)) (ih fun h =>
          ((applyDelta_taken _ _ op).buffered h).symm ▸ hrest)

theorem drain_draining (c : Channel) : Draining c (drainStages c.buffered.entries c) c.drain :=
  drainEntries_draining _ fun _ => rfl

omit [Lengths] in
/-- The next delta at hand lies within the head that the channel knows of. -/
theorem Orderly.floor_lt (hc : c.Orderly) (next : c.buffered.get? (c.floor + 1) = some op) : c.floor < c.knownHead := by
  refine hc.ahead _ ?_
  rw [Table.contains, next]
  rfl

theorem erase_orderly (hc : c.Orderly) (h : c.isConnected = true) (revision : Nat) :
    Orderly { c with buffered := c.buffered.erase revision } :=
  (erase_step (x := .flush) (isConnected_iff.1 h) revision).orderly hc

/-- Taking in the next delta at hand is one act. -/
theorem take_step (hc : c.Orderly) (h : c.isConnected = true) (next : c.buffered.get? (c.floor + 1) = some op) :
    Step x { c with buffered := c.buffered.erase (c.floor + 1) }
      (applyDelta { c with buffered := c.buffered.erase (c.floor + 1) } (c.floor + 1) op) :=
  applyDelta_step (erase_orderly hc h _) (isConnected_iff.1 h) (hc.floor_lt next) op

theorem take_orderly (hc : c.Orderly) (h : c.isConnected = true) (next : c.buffered.get? (c.floor + 1) = some op) :
    (applyDelta { c with buffered := c.buffered.erase (c.floor + 1) } (c.floor + 1) op).Orderly :=
  (take_step (x := .flush) hc h next).orderly (erase_orderly hc h _)

/-- `R` holds across each of the pieces that deltas are taken in by. -/
structure Stepwise (R : Channel → Channel → Prop) : Prop where
  refl (c : Channel) : R c c
  drops {c : Channel} : c.Orderly → c.isConnected = true → ∀ revision,
    R c { c with buffered := c.buffered.erase revision }
  takes {c : Channel} {op : Composite} : c.Orderly → c.isConnected = true → c.buffered.get? (c.floor + 1) = some op →
    R { c with buffered := c.buffered.erase (c.floor + 1) }
      (applyDelta { c with buffered := c.buffered.erase (c.floor + 1) } (c.floor + 1) op)
  synced (c : Channel) : R c c.checkSynced

theorem Draining.isChain {R : Channel → Channel → Prop} {ds : List Channel} (h : Draining c ds c') (hR : Stepwise R)
    (hc : c.Orderly) : ∃ rest, ds = c :: rest ∧ (c :: rest).IsChain R ∧ (c :: rest).getLast? = some c' := by
  induction h with
  | stops => exact ⟨[], rfl, .singleton _, rfl⟩
  | @drops c _ revision _ connected _ _ ih =>
    obtain ⟨rest, rfl, hchain, hlast⟩ := ih (erase_orderly hc connected _)
    exact ⟨_, rfl, hchain.cons_cons (hR.drops hc connected _), by rw [List.getLast?_cons_cons, hlast]⟩
  | @takes c _ op _ connected next _ ih =>
    obtain ⟨rest, rfl, hchain, hlast⟩ := ih (take_orderly hc connected next)
    exact ⟨_, rfl, (hchain.cons_cons (hR.takes hc connected next)).cons_cons (hR.drops hc connected _),
      by rw [List.getLast?_cons_cons, List.getLast?_cons_cons, hlast]⟩

theorem Draining.orderly {ds : List Channel} (h : Draining c ds c') (hc : c.Orderly) : c'.Orderly := by
  induction h with
  | stops => exact hc
  | drops connected _ _ ih => exact ih (erase_orderly hc connected _)
  | takes connected next _ ih => exact ih (take_orderly hc connected next)

/-! ## Hearing of deltas -/

/-- The highest revision known of grows as deltas arrive, and covers them. -/
structure Hears (c c' : Channel) : Prop where
  eq : c' = { c with knownHead := c'.knownHead, buffered := c'.buffered }
  later : c.knownHead ≤ c'.knownHead
  told : ∀ r, c'.buffered.contains r = true → c.buffered.contains r = true ∨ r ≤ c'.knownHead

omit [Lengths] in
theorem Hears.refl (c : Channel) : c.Hears c := ⟨rfl, Nat.le_refl _, fun _ => .inl⟩

omit [Lengths] in
theorem Hears.trans (h : c.Hears c') (h' : c'.Hears c'') : c.Hears c'' where
  eq := by
    rw [h'.eq, h.eq]
  later := Nat.le_trans h.later h'.later
  told r hr := by
    rcases h'.told r hr with hr | hr
    · exact (h.told r hr).imp id fun hr => Nat.le_trans hr h'.later
    · exact .inr hr

theorem Hears.step (h : c.Hears c') (hphase : c.phase ≠ .uninitialized) : Step x c c' := by
  rw [h.eq]
  exact (Act.heard hphase h.later h.told).step

omit [Lengths] in
theorem buffer_hears (c : Channel) (m : DeltaMessage) : c.Hears (c.buffer m) :=
  buffer_lift (R := Hears) .refl .trans c m fun e _ d =>
    { eq := rfl
      later := Nat.le_max_left ..
      told := fun r hr => by
        rw [keep_contains, Bool.or_eq_true, beq_iff_eq] at hr
        rcases hr with rfl | hr
        · exact .inr (Nat.le_max_right ..)
        · exact .inl hr }

theorem checkSynced_step (c : Channel) : Step x c c.checkSynced := by
  unfold checkSynced
  split
  next => exact (Quiet.refl c).step
  next hsynced =>
    simp only [Bool.or_eq_true, bne_iff_ne, ne_eq, decide_eq_true_eq, not_or, not_not, Nat.not_lt] at hsynced
    obtain ⟨phase, caught⟩ := hsynced
    split
    next hnone => exact ⟨_, .synced phase caught (List.isEmpty_iff.1 hnone), settle_quiet c⟩
    next hsome =>
      rw [List.isEmpty_iff] at hsome
      exact ⟨_, .resumed phase caught hsome, enter_quiet c.submitBatch .waitingAck⟩

/-! ## Stages -/

/-- Everything in flight is acknowledged at once. -/
def acknowledgeAll [R : Revisions] (c : Channel) (head : Nat) : Channel :=
  let queue : Queue Composite :=
    { c.queue with
      revision := head
      unacked := []
      expectedAcks := c.queue.expectedAcks + c.queue.unacked.length }
  { c with
    knownHead := max c.knownHead head
    queue
    events := c.events ++ ackEvents queue.isClean (R.arithmetic.wrap (c.queue.revision + 1)) c.queue.unacked }

/-- The channel whose deltas at hand a call takes in. -/
def drains? [R : Revisions] (c : Channel) : Call → Option Channel
  | .delta m => if c.isConnected then some (c.buffer m) else none
  | .revisionReply version m =>
    if c.isCurrent version && c.phase == .waitingSync then
      some ({ c with knownHead := max c.knownHead m.revision }.buffer m)
    else none
  | .submitAcked version head =>
    if c.isCurrent version && c.phase == .waitingAck &&
        !(c.queue.unacked.isEmpty || head != R.arithmetic.wrap (c.queue.revision + c.queue.unacked.length)) then
      some (c.acknowledgeAll head).settle
    else none
  | _ => none

/-- The states that a call leads through, from the one it is made in to the one it leaves behind. -/
def stages [R : Revisions] (c : Channel) (x : Call) : List Channel :=
  match c.drains? x with
  | some d => c :: (drainStages d.buffered.entries d ++ [(c.perform x).2])
  | none => [c, (c.perform x).2]

theorem acknowledgeAll_step (phase : c.phase = .waitingAck) (version : Nat) :
    Step (.submitAcked version (c.queue.revision + c.queue.unacked.length)) c
      (c.acknowledgeAll (c.queue.revision + c.queue.unacked.length)).settle :=
  ⟨_, .ackedAll rfl phase, settle_quiet (c.acknowledgeAll _)⟩

theorem submitAcked_wraps [R : Revisions] {version : Nat} (hcurrent : c.isCurrent version = true)
    (phase : c.phase = .waitingAck) :
    c.submitAcked version head =
      if c.queue.unacked.isEmpty || head != R.arithmetic.wrap (c.queue.revision + c.queue.unacked.length) then
        { c with knownHead := max c.knownHead head }
      else (c.acknowledgeAll head).settle.drain := by
  unfold submitAcked
  rw [if_pos (by simp [hcurrent, phase])]
  dsimp only
  unfold Queue.ackAll?
  by_cases hnone :
      (c.queue.unacked.isEmpty || head != R.arithmetic.wrap (c.queue.revision + c.queue.unacked.length)) = true
  · simp only [if_pos hnone]
  · simp only [if_neg hnone]
    rfl

theorem submitAcked_eq {version : Nat} (hcurrent : c.isCurrent version = true) (phase : c.phase = .waitingAck) :
    c.submitAcked version head =
      if c.queue.unacked.isEmpty || head != c.queue.revision + c.queue.unacked.length then
        { c with knownHead := max c.knownHead head }
      else (c.acknowledgeAll head).settle.drain :=
  submitAcked_wraps hcurrent phase

/-- A reply to a submission is ignored, or tells of a head, or acknowledges what is in flight. -/
theorem submitAcked_cases (c : Channel) (version head : Nat) :
    c.submitAcked version head = c ∨
      version = c.retryVersion ∧ c.phase = .waitingAck ∧
        (c.submitAcked version head = { c with knownHead := max c.knownHead head } ∨
          c.queue.unacked ≠ [] ∧ head = c.queue.revision + c.queue.unacked.length ∧
            c.submitAcked version head = (c.acknowledgeAll head).settle.drain) := by
  by_cases hdue : (c.isCurrent version && c.phase == .waitingAck) = true
  · obtain ⟨hcurrent, hphase⟩ := Bool.and_eq_true_iff.1 hdue
    rw [beq_iff_eq] at hphase
    have hversion : version = c.retryVersion := by simpa [isCurrent] using (Bool.and_eq_true_iff.1 hcurrent).2
    refine .inr ⟨hversion, hphase, ?_⟩
    rw [submitAcked_eq hcurrent hphase]
    split
    next => exact .inl rfl
    next hall =>
      simp only [Bool.or_eq_true, List.isEmpty_iff, bne_iff_ne, not_or, not_not] at hall
      exact .inr ⟨hall.1, hall.2, rfl⟩
  · exact .inl (if_neg hdue)

theorem submitAcked_of_drains? {version : Nat} (h : c.drains? (.submitAcked version head) = none) :
    c.submitAcked version head = c ∨
      c.phase = .waitingAck ∧ c.submitAcked version head = { c with knownHead := max c.knownHead head } := by
  by_cases hdue : (c.isCurrent version && c.phase == .waitingAck) = true
  · obtain ⟨hcurrent, hphase⟩ := Bool.and_eq_true_iff.1 hdue
    rw [beq_iff_eq] at hphase
    have hsome : (c.queue.unacked.isEmpty || head != c.queue.revision + c.queue.unacked.length) = true := by
      simpa [drains?, hcurrent, hphase, imp_iff_not_or] using h
    exact .inr ⟨hphase, by rw [submitAcked_eq hcurrent hphase, if_pos hsome]⟩
  · exact .inl (if_neg hdue)

/-- How a call puts deltas at hand before it takes them in. -/
inductive Opens (c : Channel) : Call → Channel → Prop where
  | delta {message : DeltaMessage} (connected : c.isConnected = true) : Opens c (.delta message) (c.buffer message)
  | replied {version : Nat} {message : DeltaMessage} (phase : c.phase = .waitingSync) :
      Opens c (.revisionReply version message) ({ c with knownHead := max c.knownHead message.revision }.buffer message)
  | acked {version : Nat} (phase : c.phase = .waitingAck) :
      Opens c (.submitAcked version (c.queue.revision + c.queue.unacked.length))
        (c.acknowledgeAll (c.queue.revision + c.queue.unacked.length)).settle

/-- A call that takes in deltas puts them at hand first, and at last may leave `waitingSync`. -/
theorem drains?_opens (h : c.drains? x = some m) :
    Opens c x m ∧ ((c.perform x).2 = m.drain ∨ (c.perform x).2 = m.drain.checkSynced) := by
  unfold drains? at h
  split at h
  next message =>
    split at h
    next hopen =>
      obtain rfl := Option.some.inj h
      rw [perform, delta, if_pos hopen]
      exact ⟨.delta hopen, .inr rfl⟩
    next => cases h
  next version message =>
    split at h
    next hdue =>
      obtain rfl := Option.some.inj h
      rw [perform, revisionReply, if_pos hdue]
      exact ⟨.replied (by simpa using (Bool.and_eq_true_iff.1 hdue).2), .inr rfl⟩
    next => cases h
  next version head =>
    split at h
    next hdue =>
      obtain rfl := Option.some.inj h
      simp only [Revisions.arithmetic_exact, Arithmetic.wrap_exact, Bool.and_eq_true, beq_iff_eq,
        Bool.not_eq_true'] at hdue
      obtain ⟨⟨hcurrent, phase⟩, hall⟩ := hdue
      obtain rfl : head = c.queue.revision + c.queue.unacked.length := by simpa using (Bool.or_eq_false_iff.1 hall).2
      rw [perform, submitAcked_eq hcurrent phase, if_neg (Bool.eq_false_iff.1 hall)]
      exact ⟨.acked phase, .inl rfl⟩
    next => cases h
  next => cases h

theorem Opens.step (h : Opens c x m) : Step x c m := by
  cases h with
  | delta connected => exact (buffer_hears c _).step (isConnected_iff.1 connected)
  | @replied _ message phase =>
    have hknown : c.Hears { c with knownHead := max c.knownHead message.revision } :=
      ⟨rfl, Nat.le_max_left .., fun _ => .inl⟩
    exact (hknown.trans (buffer_hears _ message)).step (by simp [phase])
  | acked phase => exact acknowledgeAll_step phase _

/-! ## Calls that take in no deltas -/

/-- What a call that takes in no deltas can do. -/
inductive Direct (c : Channel) : Call → Channel → Prop where
  /-- It is refused, or answers nothing that the channel waits for. -/
  | ignored {x : Call} : Direct c x c
  | connected {c' : Channel} {revision : Nat} (result : c.connect revision = .ok c') : Direct c (.connect revision) c'
  | disconnected : Direct c .disconnect c.disconnect
  | submitted {c' : Channel} {op : Composite} (result : c.submit op = .ok c') : Direct c (.submit op) c'
  | began : Direct c .beginCompound c.beginCompound
  | ended {c' : Channel} (result : c.endCompound = .ok c') : Direct c .endCompound c'
  | flushed : Direct c .flush c.flush
  /-- Others came in between, so the echoes tell. -/
  | heard {version head : Nat} (phase : c.phase = .waitingAck) :
      Direct c (.submitAcked version head) { c with knownHead := max c.knownHead head }
  | failed {x : Call} {fault : Fault} (call : x.reported? = some fault)
      (phase : c.phase = .waitingAck ∨ c.phase = .waitingSync) : Direct c x (c.handleFailure fault)
  | waited {version : Nat} (phase : c.phase = .delayResync) :
      Direct c (.resyncTimer version) ((c.enter .waitingSync).command (.requestRevision c.retryVersion c.floor))
  | received : Direct c .receive c.receive.2

theorem settled_direct {r : Except ChannelFault Channel} (h : ∀ c', r = .ok c' → Direct c x c') :
    Direct c x (c.settled r).2 := settled_lift .ignored h

theorem perform_direct (h : c.drains? x = none) : Direct c x (c.perform x).2 := by
  cases x with
  | connect revision => exact settled_direct fun _ => .connected
  | disconnect => exact .disconnected
  | submit op => exact settled_direct fun _ => .submitted
  | beginCompound => exact .began
  | endCompound => exact settled_direct fun _ => .ended
  | flush => exact .flushed
  | submitAcked version head =>
    rw [perform]
    rcases submitAcked_of_drains? h with hsame | ⟨hphase, hknown⟩
    · rw [hsame]
      exact .ignored
    · rw [hknown]
      exact .heard hphase
  | submitFailed version fault =>
    rw [perform, submitFailed]
    split
    next hdue => exact .failed rfl (.inl (by simpa using (Bool.and_eq_true_iff.1 hdue).2))
    next => exact .ignored
  | delta message =>
    rw [drains?] at h
    split at h
    next => cases h
    next hclosed =>
      rw [perform, delta, if_neg hclosed]
      exact .ignored
  | resyncTimer version =>
    rw [perform, resyncTimer]
    split
    next hdue => exact .waited (by simpa using (Bool.and_eq_true_iff.1 hdue).2)
    next => exact .ignored
  | revisionReply version message =>
    rw [drains?] at h
    split at h
    next => cases h
    next hdue =>
      rw [perform, revisionReply, if_neg hdue]
      exact .ignored
  | revisionFailed version fault =>
    rw [perform, revisionFailed]
    split
    next hdue => exact .failed rfl (.inr (by simpa using (Bool.and_eq_true_iff.1 hdue).2))
    next => exact .ignored
  | receive => exact .received

omit [Lengths] in
theorem enter_command (c : Channel) (phase : Phase) (y : Command) :
    (c.enter phase).command y = (c.command y).enter phase := by
  unfold enter
  by_cases h : c.phase = phase
  · rw [if_pos h, if_pos (show (c.command y).phase = phase from h)]
  · rw [if_neg h, if_neg (show (c.command y).phase ≠ phase from h)]
    dsimp only
    split <;> split <;> first | rfl | contradiction

theorem handleFailure_step {fault : Fault} (call : x.reported? = some fault)
    (phase : c.phase = .waitingAck ∨ c.phase = .waitingSync) : Step x c (c.handleFailure fault) := by
  have hphase : c.phase ≠ .uninitialized := by rcases phase with h | h <;> simp [h]
  unfold handleFailure
  split
  next => exact fail_step hphase (.refl c.queue) (.inl call)
  next mild =>
    dsimp only
    rw [enter_command]
    exact ⟨_, .delayed call (Bool.eq_false_iff.2 mild) phase, enter_quiet (command (event { c with
      retryAttempt := min (c.retryAttempt + 1) attemptLimit
      retryVersion := c.retryVersion + 1 } (.error fault false))
      (.scheduleResync (c.retryVersion + 1) (c.config.retry.delay c.retryAttempt))) .delayResync⟩

theorem disconnect_step (c : Channel) : Step x c c.disconnect := by
  by_cases hphase : c.phase = .uninitialized
  · rw [show c.disconnect = c from if_neg (by simp [isConnected, hphase])]
    exact (Quiet.refl c).step
  · rw [disconnect_eq hphase]
    have hact : Act x c (c.cut c.queue []) := .ended hphase (.refl c.queue) nofun
    exact hact.step

omit [Lengths] in
theorem connect_phase (h : c.connect revision = .ok c') : c.phase = .uninitialized := by
  by_contra hphase
  rw [connect, if_pos (isConnected_iff.2 hphase)] at h
  cases h

theorem connect_step (h : c.connect revision = .ok c') : Step (.connect revision) c c' := by
  rw [connect_eq_ok h]
  exact ⟨_, .connected rfl (connect_phase h), enter_quiet (command
    { c with queue := .new revision, knownHead := revision, retryAttempt := 0 } (.subscribe c.document)) .allAcked⟩

theorem submit_step (h : c.submit op = .ok c') : Step (.submit op) c c' := by
  unfold submit at h
  split at h
  next => cases h
  next hopen =>
    have hphase : c.phase ≠ .uninitialized := isConnected_iff.1 (by simpa using hopen)
    split at h
    next result =>
      obtain rfl := Except.ok.inj h
      obtain ⟨spoils, hfault⟩ := Queue.record_error result
      exact fail_step hphase spoils (.inr (mayRaise_of_queue? c hfault))
    next result =>
      obtain rfl := Except.ok.inj h
      exact ⟨_, .recorded rfl hphase result, scheduleSend_quiet _⟩

theorem endCompound_step (h : c.endCompound = .ok c') : Step .endCompound c c' := by
  have hclosed : c.Quiet { c with compoundDepth := c.compoundDepth - 1 } := quiet_of_eq rfl
  rcases endCompound_eq_ok h with rfl | rfl
  · exact hclosed.step
  · exact (hclosed.trans (scheduleSend_quiet _)).step

theorem flush_step (c : Channel) : Step .flush c c.flush := by
  have hoff : c.Quiet { c with sendScheduled := false } := quiet_of_eq rfl
  unfold flush
  dsimp only
  split
  next may =>
    have may : c.maySend = true := may
    obtain ⟨phase, -, hnone, -⟩ := maySend_iff.1 may
    have hphase : c.phase ≠ .uninitialized := by simp [phase]
    split
    next fault q result =>
      obtain ⟨spoils, hfault⟩ := Queue.send_error hnone result
      have hact : Act .flush c (c.cut q [fault]) :=
        .ended hphase spoils fun f hf => by
          rw [List.mem_singleton.1 hf]
          exact .inr (mayRaise_of_queue? c hfault)
      rw [fail_eq (c := { c with sendScheduled := false, queue := q }) hphase]
      exact hact.step
    next batch q result =>
      obtain ⟨compacted, rfl⟩ := Queue.send_eq_ok result
      split
      next hempty =>
        obtain rfl := List.isEmpty_iff.1 hempty
        have hquiet : Quiet { c with queue := c.queue.sent [] }
            { c with sendScheduled := false, queue := c.queue.sent [] } := quiet_of_eq rfl
        exact ⟨_, .cancelled rfl may compacted, hquiet.trans (emitSaveState_quiet _)⟩
      next hsome =>
        have hact := Act.sent rfl may compacted (mt List.isEmpty_iff.2 hsome)
        refine ⟨_, hact, .trans (quiet_of_eq rfl) (enter_quiet
          (submitBatch { c with sendScheduled := false, queue := c.queue.sent batch }) .waitingAck)⟩
  next => exact hoff.step

/-- A call that takes in no deltas is a single act. -/
theorem Direct.step (h : Direct c x c') : Step x c c' := by
  cases h with
  | ignored => exact (Quiet.refl c).step
  | connected result => exact connect_step result
  | disconnected => exact disconnect_step c
  | submitted result => exact submit_step result
  | began => exact (quiet_of_eq rfl).step
  | ended result => exact endCompound_step result
  | flushed => exact flush_step c
  | @heard _ head phase =>
    have hhears : c.Hears { c with knownHead := max c.knownHead head } := ⟨rfl, Nat.le_max_left .., fun _ => .inl⟩
    exact hhears.step (by simp [phase])
  | failed call phase => exact handleFailure_step call phase
  | waited phase =>
    rw [enter_command]
    exact ⟨_, .waited rfl phase, enter_quiet (command c (.requestRevision c.retryVersion c.floor)) .waitingSync⟩
  | received => exact (Act.delivered rfl).step

theorem perform_step (h : c.drains? x = none) : Step x c (c.perform x).2 := (perform_direct h).step

/-! ## What every call keeps -/

/-- What holds across the pieces of a call holds from each state that it leads through to the next. -/
theorem stages_linked {R : Channel → Channel → Prop} (hR : Stepwise R) (hc : c.Orderly)
    (direct : ∀ {c'}, Direct c x c' → R c c') (opens : ∀ {d}, Opens c x d → R c d) :
    ∃ rest, c.stages x = c :: rest ∧ (c :: rest).IsChain R ∧ (c :: rest).getLast? = some (c.perform x).2 := by
  cases hd : c.drains? x with
  | none =>
    exact ⟨[(c.perform x).2], by rw [stages, hd], .cons_cons (direct (perform_direct hd)) (.singleton _), rfl⟩
  | some d =>
    obtain ⟨hopens, hresult⟩ := drains?_opens hd
    have hlast : R d.drain (c.perform x).2 := by
      rcases hresult with h | h <;> rw [h]
      · exact hR.refl _
      · exact hR.synced _
    obtain ⟨rest, hstages, hchain, hend⟩ := (drain_draining d).isChain hR (hopens.step.orderly hc)
    refine ⟨d :: rest ++ [(c.perform x).2], by simp only [stages, hd, hstages], ?_, ?_⟩
    · refine .cons_cons (opens hopens) (hchain.append (.singleton _) fun a ha b hb => ?_)
      obtain rfl := Option.some.inj (hend.symm.trans ha)
      obtain rfl := Option.some.inj hb
      exact hlast
    · rw [← List.cons_append, List.getLast?_append, List.getLast?_singleton, Option.some_or]

theorem stepwise_step (x : Call) : Stepwise (Step x) where
  refl c := (Quiet.refl c).step
  drops _ hopen := erase_step (isConnected_iff.1 hopen)
  takes := take_step
  synced := checkSynced_step

theorem stages_isChain (hc : c.Orderly) (x : Call) : ∃ rest, c.stages x = c :: rest ∧
    (c :: rest).IsChain (Step x) ∧ (c :: rest).getLast? = some (c.perform x).2 :=
  stages_linked (stepwise_step x) hc Direct.step Opens.step

theorem perform_mem_stages (hc : c.Orderly) (x : Call) : (c.perform x).2 ∈ c.stages x := by
  obtain ⟨rest, hstages, -, hlast⟩ := stages_isChain hc x
  rw [hstages]
  exact List.mem_of_getLast? hlast

theorem stages_orderly (hc : c.Orderly) (x : Call) : ∀ d ∈ c.stages x, d.Orderly := by
  obtain ⟨rest, hstages, hchain, -⟩ := stages_isChain hc x
  rw [hstages]
  exact hchain.induction Orderly _ (fun _ _ hstep hd => hstep.orderly hd) fun _ => hc

theorem perform_orderly (hc : c.Orderly) (x : Call) : (c.perform x).2.Orderly :=
  stages_orderly hc x _ (perform_mem_stages hc x)

/-- Every channel is orderly. -/
theorem run_orderly : ∀ (calls : List Call) {c : Channel}, c.Orderly → (c.run calls).Orderly
  | [], _, hc => hc
  | x :: calls, _, hc => run_orderly calls (perform_orderly hc x)

/-- What each act of a call keeps holds of every state that the call leads through. -/
theorem stages_all {p : Channel → Prop} (hc : c.Orderly) (h : p c)
    (keeps : ∀ {d d'}, d ∈ c.stages x → d.Orderly → Step x d d' → p d → p d') : ∀ d ∈ c.stages x, p d := by
  obtain ⟨rest, hstages, hchain, -⟩ := stages_isChain hc x
  rw [hstages]
  refine (List.IsChain.iff_mem.1 hchain).induction p _ (fun d d' ⟨hd, _, hstep⟩ => ?_) fun _ => h
  rw [← hstages] at hd
  exact keeps hd (stages_orderly hc x d hd) hstep

/-- From single acts of orderly channels to calls. -/
theorem perform_lift {R : Channel → Channel → Prop} (refl : ∀ c, R c c)
    (trans : ∀ {c c' c''}, R c c' → R c' c'' → R c c'') (hc : c.Orderly)
    (step : ∀ {c c'}, c.Orderly → Step x c c' → R c c') : R c (c.perform x).2 :=
  stages_all (p := R c) hc (refl c) (fun _ hd hstep hR => trans hR (step hd hstep)) _ (perform_mem_stages hc x)

end lengths

end Channel
end Coedit
