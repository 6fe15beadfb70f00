import Coedit.Proofs.Channel.Stages

/-!
# The backoff between attempts

A failure that is not fatal makes the channel wait before it catches up, and with every further one it waits longer,
until everything is acknowledged again.  The delay is computed with numbers that stop growing at a limit, and the count
of attempts stops growing too, but neither shows: the delay has reached its own bound long before.

* `RetryPolicy.nominal`, `RetryPolicy.delay_eq` — the delay of an attempt, and that it is what is computed;
* `Channel.Unfailing`, `Channel.Step.unfailing` — the count of failures starts again on entering `allAcked`, and only
  then;
* `Channel.Dates`, `Channel.run_dates` — the versions that commands carry;
* `Channel.perform_unfailing`, `Channel.perform_fails` — a call without and with a failure to act on;
* `Channel.Outage`, `Channel.run_backsOff` — the delays that a run sets since it last entered `allAcked`.
-/

namespace Coedit

namespace RetryPolicy

variable {p : RetryPolicy} {i j : Nat}

/-- The delay before attempt number `j`, counted from zero: each is a multiple of the one before, up to a bound. -/
def nominal (p : RetryPolicy) (j : Nat) : Nat := min p.maxDelay (p.initialDelay * (max p.multiplier 1).pow j)

/-- Where the numbers stop growing the bound of the delays is reached. -/
theorem delay_eq (hmax : p.maxDelay ≤ delayLimit) (j : Nat) : p.delay j = p.nominal j := by
  rw [delay, nominal, cappedPower_eq (Nat.le_max_right ..)]
  generalize (max p.multiplier 1).pow j = power
  by_cases hpower : power ≤ delayLimit
  · rw [Nat.min_eq_left hpower]
    omega
  · rw [Nat.min_eq_right (Nat.le_of_not_le hpower)]
    rcases Nat.eq_zero_or_pos p.initialDelay with hzero | hpos
    · simp [hzero]
    · have hlimit : delayLimit ≤ p.initialDelay * delayLimit := Nat.le_mul_of_pos_left _ hpos
      have hbeyond : p.initialDelay * delayLimit ≤ p.initialDelay * power :=
        Nat.mul_le_mul_left _ (Nat.le_of_not_le hpower)
      omega

theorem nominal_le_max (p : RetryPolicy) (j : Nat) : p.nominal j ≤ p.maxDelay := Nat.min_le_left ..

theorem nominal_mono (h : i ≤ j) : p.nominal i ≤ p.nominal j := by
  unfold nominal
  have hpower : (max p.multiplier 1).pow i ≤ (max p.multiplier 1).pow j :=
    Nat.pow_le_pow_right (Nat.le_max_right ..) h
  have hproduct := Nat.mul_le_mul_left p.initialDelay hpower
  omega

end RetryPolicy

def Command.version? : Command → Option Nat
  | .submit version _ | .requestRevision version _ | .scheduleResync version _ => some version
  | _ => none

/-- The delay that a command sets before the next attempt to catch up. -/
def Command.backoff? : Command → Option Nat
  | .scheduleResync _ delay => some delay
  | _ => none

namespace Channel

variable {c c' m : Channel} {x : Call} {fault : Fault}

/-! ## Versions -/

/-- No command carries a later version than the channel has. -/
def Dates (c : Channel) : Prop := ∀ y ∈ c.commands, ∀ version ∈ y.version?, version ≤ c.retryVersion

theorem Dates.append {ys : List Command} (h : c.Dates) (hy : c'.commands = c.commands ++ ys)
    (hv : c.retryVersion ≤ c'.retryVersion) (hys : ∀ y ∈ ys, ∀ version ∈ y.version?, version ≤ c'.retryVersion) :
    c'.Dates := by
  intro y hmem version hversion
  rw [hy] at hmem
  rcases List.mem_append.1 hmem with hmem | hmem
  · exact Nat.le_trans (h y hmem version hversion) hv
  · exact hys y hmem version hversion

theorem Act.dates (h : Act x c c') (hc : c.Dates) : c'.Dates := by
  have one {y : Command} (hv : ∀ version ∈ y.version?, version ≤ c'.retryVersion) :
      ∀ z ∈ [y], ∀ version ∈ z.version?, version ≤ c'.retryVersion := List.forall_mem_singleton.2 hv
  cases h with
  | connected => exact hc.append rfl (Nat.le_refl _) (one nofun)
  | ended => exact hc.append rfl (Nat.le_succ _) (one nofun)
  | sent | waited | resumed =>
    refine hc.append rfl (Nat.le_refl _) (one ?_)
    rintro _ ⟨⟩
    exact Nat.le_refl _
  | delayed =>
    refine hc.append rfl (Nat.le_succ _) (one ?_)
    rintro _ ⟨⟩
    exact Nat.le_refl _
  | _ => exact hc

theorem Quiet.dates (h : c.Quiet c') (hc : c.Dates) : c'.Dates := by
  obtain @⟨_, _, _, ys, _, timed, _⟩ := h
  refine hc.append rfl (Nat.le_refl _) fun y hy => ?_
  obtain ⟨_, rfl⟩ := Command.eq_scheduleSend (timed y hy)
  nofun

theorem run_dates : ∀ (calls : List Call) {c : Channel}, c.Orderly → c.Dates → (c.run calls).Dates
  | [], _, _, hd => hd
  | x :: calls, _, hc, hd =>
    run_dates calls (perform_orderly hc x) <| perform_lift (R := fun c c' => c.Dates → c'.Dates) (fun _ => id)
      (fun h h' hd => h' (h hd)) hc (fun _ ⟨_, hact, hquiet⟩ hd => hquiet.dates (hact.dates hd)) hd

/-! ## The count of failures -/

def backoffs (c : Channel) : List Nat := c.commands.filterMap Command.backoff?

/-- The channel enters `allAcked`. -/
def Settles (c c' : Channel) : Prop := c.phase ≠ .allAcked ∧ c'.phase = .allAcked

instance (c c' : Channel) : Decidable (c.Settles c') :=
  inferInstanceAs (Decidable (c.phase ≠ .allAcked ∧ c'.phase = .allAcked))

/-- No failure is acted on from one state to the next. The count of them starts again on entering `allAcked`. -/
structure Unfailing (c c' : Channel) : Prop where
  config : c'.config = c.config
  backoffs : c'.backoffs = c.backoffs
  attempt : c'.retryAttempt = if c.Settles c' then 0 else c.retryAttempt

theorem backoffs_append {ys : List Command} (hy : c'.commands = c.commands ++ ys)
    (hys : ∀ y ∈ ys, y.backoff? = none) : c'.backoffs = c.backoffs := by
  rw [backoffs, hy, List.filterMap_append, List.filterMap_eq_nil_iff.2 hys, List.append_nil]
  rfl

theorem unfailing_of_settles (hf : c'.config = c.config) (hb : c'.backoffs = c.backoffs) (hs : c.Settles c')
    (ha : c'.retryAttempt = 0) : c.Unfailing c' := ⟨hf, hb, by rw [if_pos hs, ha]⟩

theorem unfailing_of_not_settles (hf : c'.config = c.config) (hb : c'.backoffs = c.backoffs) (hs : ¬ c.Settles c')
    (ha : c'.retryAttempt = c.retryAttempt) : c.Unfailing c' := ⟨hf, hb, by rw [if_neg hs, ha]⟩

theorem not_settles_of_eq (h : c'.phase = c.phase) : ¬ c.Settles c' := fun hs => hs.1 (h.symm.trans hs.2)

theorem Act.unfailing (h : Act x c c') (hx : x.reported? = none) : c.Unfailing c' := by
  have one {y : Command} (hy : y.backoff? = none) : ∀ z ∈ [y], z.backoff? = none := List.forall_mem_singleton.2 hy
  cases h with
  | connected _ phase => exact unfailing_of_settles rfl (backoffs_append rfl (one rfl)) ⟨by simp [phase], rfl⟩ rfl
  | settled phase => exact unfailing_of_settles rfl rfl ⟨by rcases phase with h | h <;> simp [h], rfl⟩ rfl
  | ackedAll _ phase | synced phase => exact unfailing_of_settles rfl rfl ⟨by simp [phase], rfl⟩ rfl
  | ended => exact unfailing_of_not_settles rfl (backoffs_append rfl (one rfl)) (fun hs => nomatch hs.2) rfl
  | sent | waited | resumed =>
    exact unfailing_of_not_settles rfl (backoffs_append rfl (one rfl)) (fun hs => nomatch hs.2) rfl
  | delayed call => cases hx.symm.trans call
  | _ => exact unfailing_of_not_settles rfl rfl (not_settles_of_eq rfl) rfl

theorem Quiet.unfailing (h : m.Quiet c') (hc : c.Unfailing m) : c.Unfailing c' := by
  obtain @⟨_, _, _, ys, _, timed, _⟩ := h
  have hys : ∀ y ∈ ys, y.backoff? = none := fun y hy => by
    obtain ⟨_, rfl⟩ := Command.eq_scheduleSend (timed y hy)
    rfl
  exact ⟨hc.config, (backoffs_append rfl hys).trans hc.backoffs, hc.attempt⟩

theorem Step.unfailing (h : Step x c c') (hx : x.reported? = none) : c.Unfailing c' := by
  obtain ⟨m, hact, hquiet⟩ := h
  exact hquiet.unfailing (hact.unfailing hx)

/-- Somewhere in the list the channel enters `allAcked`. -/
def settles : List Channel → Bool
  | d :: d' :: ds => decide (d.Settles d') || settles (d' :: ds)
  | _ => false

theorem chain_unfailing : ∀ {ds : List Channel} {c d : Channel}, (c :: ds).IsChain Unfailing →
    (c :: ds).getLast? = some d → d.config = c.config ∧ d.backoffs = c.backoffs ∧
      d.retryAttempt = if settles (c :: ds) then 0 else c.retryAttempt
  | [], _, _, _, hlast => by
    obtain rfl := Option.some.inj hlast
    exact ⟨rfl, rfl, rfl⟩
  | e :: ds, c, d, hchain, hlast => by
    obtain ⟨hstep, hchain⟩ := List.isChain_cons_cons.1 hchain
    obtain ⟨hconfig, hbackoffs, hattempt⟩ := chain_unfailing hchain hlast
    refine ⟨hconfig.trans hstep.config, hbackoffs.trans hstep.backoffs, ?_⟩
    rw [hattempt, hstep.attempt, settles]
    by_cases hs : c.Settles e <;> simp [hs]

/-! ## Failures -/

/-- The call tells that the request failed which the channel waits for. -/
def awaits (c : Channel) : Call → Bool
  | .submitFailed version _ => c.isCurrent version && c.phase == .waitingAck
  | .revisionFailed version _ => c.isCurrent version && c.phase == .waitingSync
  | _ => false

/-- The failure that the channel acts on, rather than ignore it or end the connection. -/
def failure? (c : Channel) (x : Call) : Option Fault :=
  x.reported?.filter fun fault => c.awaits x && !fault.isFatal

theorem awaits_phase (h : c.awaits x = true) : c.phase = .waitingAck ∨ c.phase = .waitingSync := by
  cases x with
  | submitFailed => exact .inl (by simpa using (Bool.and_eq_true_iff.1 h).2)
  | revisionFailed => exact .inr (by simpa using (Bool.and_eq_true_iff.1 h).2)
  | _ => cases h

theorem perform_reported (c : Channel) (h : x.reported? = some fault) :
    (c.perform x).2 = if c.awaits x then c.handleFailure fault else c := by
  cases x with
  | submitFailed | revisionFailed =>
    obtain rfl := Option.some.inj h
    rfl
  | _ => cases h

theorem stages_of_reported? (h : x.reported? = some fault) : c.stages x = [c, (c.perform x).2] := by
  have hdrains : c.drains? x = none := by
    cases x with
    | submitFailed | revisionFailed => rfl
    | _ => cases h
  rw [stages, hdrains]

/-- The channel that acts on a failure. -/
structure Fails (c c' : Channel) : Prop where
  config : c'.config = c.config
  phase : c'.phase = .delayResync
  attempt : c'.retryAttempt = min (c.retryAttempt + 1) attemptLimit
  commands : c'.commands =
    c.commands ++ [.scheduleResync (c.retryVersion + 1) (c.config.retry.delay c.retryAttempt)]

theorem Fails.backoffs (h : c.Fails c') : c'.backoffs = c.backoffs ++ [c.config.retry.delay c.retryAttempt] := by
  unfold Channel.backoffs
  rw [h.commands, List.filterMap_append]
  rfl

theorem handleFailure_fails (c : Channel) (mild : fault.isFatal = false) : c.Fails (c.handleFailure fault) := by
  obtain ⟨events, hentered⟩ := enter_eq ({ c with
    retryAttempt := min (c.retryAttempt + 1) attemptLimit
    retryVersion := c.retryVersion + 1 }.event (.error fault false)) .delayResync
  unfold handleFailure
  rw [if_neg (Bool.eq_false_iff.1 mild)]
  dsimp only
  rw [hentered]
  exact ⟨rfl, rfl, rfl, rfl⟩

theorem fail_unfailing (hphase : c.phase ≠ .uninitialized) (fault : Fault) : c.Unfailing (c.fail fault) := by
  rw [fail_eq hphase]
  have hbackoffs : backoffs (c.cut c.queue [fault]) = c.backoffs :=
    backoffs_append rfl (List.forall_mem_singleton.2 rfl)
  exact unfailing_of_not_settles rfl hbackoffs (fun hs => nomatch hs.2) rfl

/-- A call with no failure to act on sets no delay, and the count starts again if it leads into `allAcked`. -/
theorem perform_unfailing (hc : c.Orderly) (h : c.failure? x = none) :
    (c.perform x).2.config = c.config ∧ (c.perform x).2.backoffs = c.backoffs ∧
      (c.perform x).2.retryAttempt = if settles (c.stages x) then 0 else c.retryAttempt := by
  cases hx : x.reported? with
  | none =>
    obtain ⟨rest, hstages, hchain, hlast⟩ := stages_isChain hc x
    rw [hstages]
    exact chain_unfailing (hchain.imp fun _ _ hstep => hstep.unfailing hx) hlast
  | some fault =>
    rw [stages_of_reported? hx]
    refine chain_unfailing (.cons_cons ?_ (.singleton _)) rfl
    rw [perform_reported c hx]
    split
    next hawaits =>
      have hfatal : fault.isFatal = true := by simpa [failure?, hx, Option.filter, hawaits] using h
      rw [handleFailure, if_pos hfatal]
      exact fail_unfailing (by rcases awaits_phase hawaits with h | h <;> simp [h]) fault
    next => exact unfailing_of_not_settles rfl rfl (not_settles_of_eq rfl) rfl

/-- With a failure to act on the channel waits, and does not enter `allAcked`. -/
theorem perform_fails (h : c.failure? x = some fault) :
    c.Fails (c.perform x).2 ∧ settles (c.stages x) = false := by
  obtain ⟨hx, hdue⟩ := Option.filter_eq_some_iff.1 h
  obtain ⟨hawaits, hmild⟩ := Bool.and_eq_true_iff.1 hdue
  have hperform := perform_reported c hx
  rw [if_pos hawaits] at hperform
  have hfails := handleFailure_fails c (by simpa using hmild)
  rw [stages_of_reported? hx, hperform]
  exact ⟨hfails, by simp [settles, Settles, hfails.phase]⟩

/-! ## Outages -/

/-- What happened since the channel last entered `allAcked`. -/
structure Outage where
  /-- How many failures it acted on. -/
  failures : Nat := 0
  /-- The delays that it set. -/
  delays : List Nat := []

/-- The outage after a call. -/
def Outage.after (o : Outage) (c : Channel) (x : Call) : Outage :=
  let o := if settles (c.stages x) then {} else o
  { failures := o.failures + (c.failure? x).toList.length
    delays := o.delays ++ (c.perform x).2.backoffs.drop c.backoffs.length }

/-- The outage after a list of calls. -/
def outage : List Call → Channel → Outage → Outage
  | [], _, o => o
  | x :: calls, c, o => outage calls (c.perform x).2 (o.after c x)

/-- The channel counts the failures of the outage, up to a limit, and has set the delays that go with them. -/
structure Counts (p : RetryPolicy) (c : Channel) (o : Outage) : Prop where
  policy : c.config.retry = p
  attempt : c.retryAttempt = min o.failures attemptLimit
  delays : o.delays = (List.range o.failures).map fun j => p.delay (min j attemptLimit)

theorem perform_counts {p : RetryPolicy} {o : Outage} (hc : c.Orderly) (h : Counts p c o) (x : Call) :
    Counts p (c.perform x).2 (o.after c x) := by
  obtain ⟨rfl, hattempt, hdelays⟩ := h
  cases hx : c.failure? x with
  | none =>
    obtain ⟨hconfig, hbackoffs, hreset⟩ := perform_unfailing hc hx
    refine ⟨by rw [hconfig], ?_, ?_⟩
    · rw [hreset, hattempt]
      unfold Outage.after
      split <;> simp [hx]
    · unfold Outage.after
      simp only [hx, hbackoffs, List.drop_length, List.append_nil, Option.toList_none, List.length_nil, Nat.add_zero]
      split
      next => rfl
      next => exact hdelays
  | some fault =>
    obtain ⟨hfails, hsettles⟩ := perform_fails hx
    refine ⟨by rw [hfails.config], ?_, ?_⟩
    · rw [hfails.attempt, hattempt, Outage.after, hsettles, hx]
      simp only [Bool.false_eq_true, if_false, Option.toList_some, List.length_singleton]
      omega
    · rw [Outage.after, hsettles, hx, hfails.backoffs]
      simp only [Bool.false_eq_true, if_false, Option.toList_some, List.length_singleton, List.drop_left,
        List.range_succ, List.map_append, List.map_singleton, hdelays, hattempt]

theorem run_counts {p : RetryPolicy} : ∀ (calls : List Call) {c : Channel} {o : Outage}, c.Orderly → Counts p c o →
    Counts p (c.run calls) (outage calls c o)
  | [], _, _, _, h => h
  | x :: calls, _, _, hc, h => run_counts calls (perform_orderly hc x) (perform_counts hc h x)

/-- The delays of an outage follow the policy. -/
structure BacksOff (p : RetryPolicy) (c : Channel) (o : Outage) : Prop where
  /-- The next failure sets the delay of its number, under a version that no command had. -/
  scheduled : ∀ x fault, c.failure? x = some fault → o.failures < attemptLimit → ∃ version,
    (c.perform x).2.commands = c.commands ++ [.scheduleResync version (p.nominal o.failures)] ∧
      ∀ y ∈ c.commands, ∀ earlier ∈ y.version?, earlier < version
  /-- So did those before. -/
  delays : o.delays = (List.range o.failures).map fun j => p.nominal (min j attemptLimit)
  sorted : o.delays.Pairwise (· ≤ ·)
  capped : ∀ delay ∈ o.delays, delay ≤ p.maxDelay

theorem Counts.backsOff {p : RetryPolicy} {o : Outage} (hmax : p.maxDelay ≤ delayLimit) (hd : c.Dates)
    (h : Counts p c o) : BacksOff p c o := by
  have hdelays : o.delays = (List.range o.failures).map fun j => p.nominal (min j attemptLimit) := by
    rw [h.delays]
    exact List.map_congr_left fun j _ => p.delay_eq hmax _
  refine ⟨fun x fault hx hlimit => ?_, hdelays, ?_, ?_⟩
  · refine ⟨c.retryVersion + 1, ?_, fun y hy earlier he => Nat.lt_succ_of_le (hd y hy earlier he)⟩
    rw [(perform_fails hx).1.commands, h.policy, h.attempt, Nat.min_eq_left hlimit.le, p.delay_eq hmax]
  · rw [hdelays, List.pairwise_map]
    exact List.pairwise_lt_range.imp fun hlt => p.nominal_mono (by omega)
  · rw [hdelays]
    exact List.forall_mem_map.2 fun j _ => p.nominal_le_max _

/-- In every run the delays of an outage follow the policy, whatever its numbers are as long as the longest delay is one
that a timer can be set to. -/
theorem run_backsOff (document : DocumentId) (user : UserId) (session : SessionId) {config : Config}
    (hmax : config.retry.maxDelay ≤ delayLimit) (calls : List Call) :
    BacksOff config.retry ((new document user session config).run calls)
      (outage calls (new document user session config) {}) :=
  (run_counts calls (new_orderly document user session config) ⟨rfl, rfl, rfl⟩).backsOff hmax
    (run_dates calls (new_orderly document user session config) nofun)

/-- A channel whose delays are 10, 30 and then 50. -/
def patient : Channel :=
  new ⟨"doc"⟩ ⟨"me"⟩ ⟨"local"⟩ { retry := { initialDelay := 10, maxDelay := 50, multiplier := 3 } }

/-- An edit is sent, and neither it nor any question for the head gets through. -/
def unreachable : List Call :=
  let down : Fault := .transport "unreachable" false
  [.connect 0, .submit (.ofComponents [⟨⟨"body"⟩, .text (.insertAt 0 0 ['a'])⟩]), .flush, .submitFailed 0 down,
    .resyncTimer 1, .revisionFailed 1 down, .resyncTimer 2, .revisionFailed 2 down, .resyncTimer 3]

theorem unreachable_backsOff : (outage unreachable patient {}).delays = [10, 30, 50] ∧
    ∃ version, ((patient.run unreachable).perform (.revisionFailed 3 (.transport "unreachable" false))).2.commands =
      (patient.run unreachable).commands ++ [.scheduleResync version 50] := by
  have h : BacksOff patient.config.retry (patient.run unreachable) (outage unreachable patient {}) :=
    run_backsOff ⟨"doc"⟩ ⟨"me"⟩ ⟨"local"⟩ (by decide) unreachable
  have hfailures : (outage unreachable patient {}).failures = 3 := by decide +kernel
  have hnext :
      ((patient.run unreachable).failure? (.revisionFailed 3 (.transport "unreachable" false))).isSome = true := by
    decide +kernel
  obtain ⟨fault, hnext⟩ := Option.isSome_iff_exists.1 hnext
  obtain ⟨version, hcommands, -⟩ := h.scheduled _ fault hnext (by rw [hfailures]; decide)
  refine ⟨?_, version, ?_⟩
  · rw [h.delays, hfailures]
    decide
  · rw [hcommands, hfailures]
    rfl

end Channel
end Coedit
