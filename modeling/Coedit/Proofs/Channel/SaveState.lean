import Coedit.Proofs.Channel.Alarms
import Coedit.Proofs.Channel.Ledger

/-!
# The save indicator

A channel tells its save state when it starts and ends waiting for an acknowledgement, and when queued operations turn
out to cancel each other as they are sent.  From one state of a call to the next the indicator is thus set anew, or
shows what it did.  It is left behind in one place: a delta of another session compacts the queued operations before it
passes them, and if they cancel out, nothing is told.

* `Channel.Shows` — what the indicator shows from one state to the next, and `Channel.stepwise_shows`,
  `Channel.Direct.shows`, `Channel.Opens.shows` for the pieces of a call;
* `Channel.trail`, `Channel.trail_isChain` — the states that a list of calls leads through;
* `Channel.chain_shown` — what the indicator shows at the end of them;
* `Channel.indicator_clears_iff` — when it is left behind.
-/

namespace Coedit

def Event.saveState? : Event → Option (Bool × Bool)
  | .saveState saving pending => some (saving, pending)
  | _ => none

/-- An operation of another session leaves some of the queued ones, unless they cancel out. -/
theorem Queue.receive_empties {q q' : Queue Composite} {revision : Nat} {op : Composite}
    (h : q.receive revision op = (.ok (), q')) (hnone : q'.queued = []) : q.queued = [] ∨ q.compacted = .ok [] := by
  obtain ⟨unacked, op₁, queued, fresh, op₂, -, rfl, ⟨hsame, -⟩ | ⟨ops, hcompacted, hpassed, -⟩⟩ := receive_eq_ok h
  · exact .inl (hsame.symm.trans hnone)
  · have hrewritten := Composite.passClients_rewrites ops op₁
    rw [hpassed] at hrewritten
    rw [hrewritten.eq_nil_iff.2 hnone] at hcompacted
    exact .inr hcompacted

namespace Channel

variable {c c' d m : Channel} {x : Call} {op : Composite} {revision : Nat} {ds : List Channel} {calls : List Call}

def saveStates (c : Channel) : List (Bool × Bool) := c.events.filterMap Event.saveState?

/-- What the indicator shows at a later state: the save state told last since the channel was `c`, if any was. -/
def shown (c d : Channel) : Option (Bool × Bool) := (d.saveStates.drop c.saveStates.length).getLast?

/-- Everything is acknowledged, nothing waits to be sent, and no send is to come. -/
def AtRest (c : Channel) : Prop := c.phase = .allAcked ∧ c.isClean = true ∧ c.sendScheduled = false

instance (c : Channel) : Decidable c.AtRest :=
  inferInstanceAs (Decidable (c.phase = .allAcked ∧ c.isClean = true ∧ c.sendScheduled = false))

/-- An operation of another session is taken in while some are queued, and these cancel out. -/
structure Cancels (c c' : Channel) : Prop where
  phase : c.phase = .allAcked
  queued : c.queue.queued ≠ []
  compacted : c.queue.compacted = .ok []
  received : ∃ revision, c'.events = c.events ++ [.remoteOp revision]
  emptied : c'.queue.queued = []

/-- How the indicator stands at the next state of a call. Where everything sent is acknowledged, it was set anew, or it
shows what it did and the queue holds what it did, unless that cancelled out. -/
def Shows (c c' : Channel) : Prop :=
  c'.phase = .allAcked → c'.saveStates = c.saveStates ++ [(false, !c'.isClean)] ∨
    c'.saveStates = c.saveStates ∧ c.phase = .allAcked ∧ (c'.isClean = true → c.isClean = true ∨ c.Cancels c')

/-! ## Pieces -/

theorem saveStates_append {es : List Event} (h : c'.events = c.events ++ es) :
    c'.saveStates = c.saveStates ++ es.filterMap Event.saveState? := by
  rw [saveStates, h, List.filterMap_append, saveStates]

theorem Step.saveStates_prefix (h : Step x c c') : c.saveStates <+: c'.saveStates := by
  obtain ⟨_, _, hledger⟩ := h.ledger
  exact ⟨_, (saveStates_append hledger.events).symm⟩

theorem ackEvents_saveStates (clean : Bool) : ∀ (ops : List Composite) (first : Nat),
    (ackEvents clean first ops).filterMap Event.saveState? = []
  | [], _ => rfl
  | [_], _ => rfl
  | _ :: op' :: ops, first => ackEvents_saveStates clean (op' :: ops) (first + 1)

theorem shows_of_phase (h : c'.phase ≠ .allAcked) : c.Shows c' := fun hidle => absurd hidle h

theorem shows_of_closed (h : c'.isConnected = false) : c.Shows c' :=
  shows_of_phase fun hidle => by simp [isConnected, hidle] at h

theorem fail_shows (d : Channel) (fault : Fault) : c.Shows (d.fail fault) := shows_of_closed (fail_isConnected d fault)

/-- Nothing is told, and the queue is no cleaner than before. -/
theorem shows_of_eq (hs : c'.saveStates = c.saveStates) (hp : c'.phase = c.phase)
    (hq : c'.isClean = true → c.isClean = true) : c.Shows c' :=
  fun hidle => .inr ⟨hs, hp ▸ hidle, fun hclean => .inl (hq hclean)⟩

theorem Shows.refl (c : Channel) : c.Shows c := shows_of_eq rfl rfl id

theorem scheduleSend_saveStates (c : Channel) : c.scheduleSend.saveStates = c.saveStates := by
  unfold scheduleSend
  split <;> rfl

theorem scheduleSend_shows (hs : d.saveStates = c.saveStates) (hp : d.phase = c.phase)
    (hq : d.isClean = true → c.isClean = true) : c.Shows d.scheduleSend := by
  refine shows_of_eq ((scheduleSend_saveStates d).trans hs) ((scheduleSend_phase d).trans hp) fun hclean => hq ?_
  rwa [isClean, scheduleSend_queue] at hclean

/-- A channel that has waited, with nothing left in flight, tells whether anything is queued. -/
theorem settle_saveStates (hphase : c.phase ≠ .allAcked) (hopen : c.phase ≠ .uninitialized)
    (hnone : c.queue.unacked = []) : c.settle.saveStates = c.saveStates ++ [(false, !c.isClean)] := by
  have htold : (({ c with retryAttempt := 0 } : Channel).enter .allAcked).events =
      c.events ++ [.saveState false (!c.isClean)] := by
    cases hp : c.phase with
    | uninitialized => exact absurd hp hopen
    | allAcked => exact absurd hp hphase
    | _ => simp [enter, emitSaveState, event, isClean, hnone]
  rw [settle, scheduleSend_saveStates, saveStates_append (c := c) htold]
  rfl

theorem settle_shows (hs : d.saveStates = c.saveStates) (hphase : d.phase ≠ .allAcked)
    (hopen : d.phase ≠ .uninitialized) (hnone : d.queue.unacked = []) : c.Shows d.settle := fun _ =>
  .inl (by rw [settle_saveStates hphase hopen hnone, hs, isClean, isClean, settle_queue])

theorem handleFailure_shows (c : Channel) (fault : Fault) : c.Shows (c.handleFailure fault) := by
  unfold handleFailure
  split
  next => exact fail_shows c fault
  next =>
    dsimp only
    rw [enter_command]
    exact shows_of_phase (by simp)

theorem checkSynced_shows (c : Channel) : c.Shows c.checkSynced := by
  unfold checkSynced
  split
  next => exact .refl c
  next hsynced =>
    have hphase : c.phase = .waitingSync := by
      simp only [Bool.or_eq_true, bne_iff_ne, not_or, not_not] at hsynced
      exact hsynced.1
    split
    next hnone => exact settle_shows rfl (by simp [hphase]) (by simp [hphase]) (List.isEmpty_iff.1 hnone)
    next => exact shows_of_phase (by simp)

/-! ## Deltas -/

theorem received_shows {q : Queue Composite} (hc : c.Orderly) (result : c.queue.receive revision op = (.ok (), q)) :
    c.Shows ({ c with queue := q }.event (.remoteOp revision)) := by
  refine fun hidle => .inr ⟨(saveStates_append rfl).trans (List.append_nil _), hidle, fun hclean => ?_⟩
  have hnone : q.queued = [] := List.isEmpty_iff.1 (Bool.and_eq_true_iff.1 hclean).1
  by_cases hqueued : c.queue.queued = []
  · exact .inl (by simp [isClean, Queue.isClean, hqueued, hc.idle hidle])
  · have hcompacted := (Queue.receive_empties result hnone).resolve_left hqueued
    exact .inr ⟨hidle, hqueued, hcompacted, ⟨revision, rfl⟩, hnone⟩

theorem Taken.shows (hc : c.Orderly) (ht : c.Taken revision op c') : c.Shows c' := by
  cases ht with
  | refused fault => exact fail_shows c fault
  | conflict => exact fail_shows _ _
  | echo result =>
    obtain ⟨-, rfl⟩ := Queue.takeEcho_eq_true result
    exact shows_of_eq rfl rfl id
  | acked _ first => exact shows_of_phase fun hidle => by simp [hc.idle hidle] at first
  | settled _ _ result phase =>
    refine settle_shows ((saveStates_append rfl).trans (List.append_nil _)) ?_ ?_ (Queue.ackFirst_eq_true result)
    all_goals rcases phase with h | h <;> simp [event, h]
  | received _ result => exact received_shows hc result

theorem stepwise_shows : Stepwise Shows where
  refl := .refl
  drops _ _ _ := shows_of_eq rfl rfl id
  takes hc hopen _ := (applyDelta_taken _ _ _).shows (erase_orderly hc hopen _)
  synced := checkSynced_shows

/-- How a call puts deltas at hand. -/
theorem Opens.shows (h : Opens c x m) : c.Shows m := by
  cases h with
  | delta =>
    rw [(buffer_hears c _).eq]
    exact shows_of_eq rfl rfl id
  | replied =>
    rw [(buffer_hears _ _).eq]
    exact shows_of_eq rfl rfl id
  | acked phase =>
    refine settle_shows ?_ (by simp [acknowledgeAll, phase]) (by simp [acknowledgeAll, phase]) rfl
    rw [saveStates_append (c := c) rfl, ackEvents_saveStates, List.append_nil]

/-! ## Calls -/

theorem flush_shows (c : Channel) : c.Shows c.flush := by
  unfold flush
  dsimp only
  split
  next =>
    split
    next => exact fail_shows _ _
    next result =>
      obtain ⟨-, rfl⟩ := Queue.send_eq_ok result
      split
      next hempty =>
        -- what was queued cancelled out, which is told
        obtain rfl := List.isEmpty_iff.1 hempty
        have htold : (emitSaveState { c with sendScheduled := false, queue := c.queue.sent [] }).events =
            c.events ++ [.saveState false false] := rfl
        exact fun _ => .inl (saveStates_append htold)
      next => exact shows_of_phase (by simp)
  next => exact shows_of_eq rfl rfl id

theorem submit_shows (h : c.submit op = .ok c') : c.Shows c' := by
  unfold submit at h
  split at h
  next => cases h
  next =>
    split at h
    next =>
      obtain rfl := Except.ok.inj h
      exact fail_shows _ _
    next result =>
      obtain rfl := Except.ok.inj h
      obtain ⟨serverOps, op', -, rfl⟩ := Queue.record_eq_ok result
      refine scheduleSend_shows rfl rfl fun hclean => ?_
      simp [isClean, Queue.isClean] at hclean

/-- A call of a connected channel that takes in no deltas. -/
theorem Direct.shows (hopen : c.isConnected = true) (h : Direct c x c') : c.Shows c' := by
  cases h with
  | ignored => exact .refl c
  | connected result => exact absurd (connect_phase result) (isConnected_iff.1 hopen)
  | disconnected => exact shows_of_closed (disconnect_isConnected c)
  | submitted result => exact submit_shows result
  | ended result =>
    rcases endCompound_eq_ok result with rfl | rfl
    · exact shows_of_eq rfl rfl id
    · exact scheduleSend_shows rfl rfl id
  | flushed => exact flush_shows c
  | failed => exact handleFailure_shows c _
  | waited => exact shows_of_phase (by simp [enter_command])
  | began | heard | received => exact shows_of_eq rfl rfl id

theorem stages_shows (hc : c.Orderly) (hopen : c.isConnected = true) (x : Call) :
    ∃ rest, c.stages x = c :: rest ∧ (c :: rest).IsChain Shows ∧ (c :: rest).getLast? = some (c.perform x).2 :=
  stages_linked stepwise_shows hc (Direct.shows hopen) Opens.shows

/-! ## Connections -/

/-- The states that a list of calls leads through. -/
def trail (c : Channel) : List Call → List Channel
  | [] => [c]
  | x :: calls => c.stages x ++ (c.perform x).2.trail calls

theorem trail_isChain : ∀ (calls : List Call) {c : Channel}, c.Orderly → c.StaysConnected calls →
    ∃ rest, c.trail calls = c :: rest ∧ (c :: rest).IsChain Shows ∧ (c :: rest).getLast? = some (c.run calls)
  | [], c, _, _ => ⟨[], rfl, .singleton c, rfl⟩
  | x :: calls, c, hc, ⟨hopen, hcalls⟩ => by
    obtain ⟨first, hstages, hfirst, hlast⟩ := stages_shows hc hopen x
    obtain ⟨rest, htrail, hrest, hend⟩ := trail_isChain calls (perform_orderly hc x) hcalls
    refine ⟨first ++ (c.perform x).2 :: rest, by rw [trail, hstages, htrail, List.cons_append], ?_, ?_⟩
    · -- the state that the first call leaves behind stands on both sides
      refine hfirst.append hrest fun a ha b hb => ?_
      obtain rfl := Option.some.inj (hlast.symm.trans ha)
      obtain rfl := Option.some.inj hb
      exact .refl _
    · rw [← List.cons_append, List.getLast?_append, hend, Option.some_or]
      rfl

/-- The indicator only ever shows more. -/
theorem trail_grows : ∀ (calls : List Call) {c : Channel}, c.Orderly →
    ∀ d ∈ c.trail calls, c.saveStates <+: d.saveStates
  | [], _, _ => List.forall_mem_singleton.2 List.prefix_rfl
  | x :: calls, c, hc => by
    have hstages : ∀ d ∈ c.stages x, c.saveStates <+: d.saveStates :=
      stages_all hc List.prefix_rfl fun _ _ hstep hgrows => hgrows.trans hstep.saveStates_prefix
    have hcalls := trail_grows calls (perform_orderly hc x)
    exact List.forall_mem_append.2
      ⟨hstages, fun d hd => (hstages _ (perform_mem_stages hc x)).trans (hcalls d hd)⟩

/-- On the way to `d` operations that the indicator showed as pending cancelled out, and nothing was told since. -/
def CancelledUntold (c : Channel) (ds : List Channel) (d : Channel) : Prop :=
  ∃ a a', [a, a'] <:+: ds ∧ a.Cancels a' ∧ c.shown a = some (false, true) ∧ d.saveStates = a.saveStates

theorem shown_of_told {t : Bool × Bool} (hgrows : c.saveStates <+: m.saveStates)
    (h : d.saveStates = m.saveStates ++ [t]) : c.shown d = some t := by
  rw [shown, h, List.drop_append_of_le_length hgrows.length_le, List.getLast?_concat]

/-- Where everything sent is acknowledged, the indicator shows that nothing is saved, and whether anything is pending,
unless what was pending cancelled out. -/
theorem chain_shown {ds : List Channel} : ∀ {d : Channel}, (c :: ds).IsChain Shows →
    (∀ d ∈ c :: ds, c.saveStates <+: d.saveStates) → (c :: ds).getLast? = some d → d.phase = .allAcked →
      ∀ t, c.shown d = some t →
        t = (false, false) ∨ t = (false, true) ∧ (d.isClean = true → c.CancelledUntold (c :: ds) d) := by
  induction ds using List.reverseRecOn with
  | nil =>
    intro d _ _ hlast _ t ht
    obtain rfl := Option.some.inj hlast
    simp [shown] at ht
  | append_singleton ds e ih =>
    intro d hchain hgrows hlast hidle t ht
    rw [← List.cons_append] at hchain hgrows hlast ⊢
    obtain rfl := Option.some.inj (List.getLast?_concat.symm.trans hlast)
    obtain ⟨m, hm⟩ : ∃ m, (c :: ds).getLast? = some m := ⟨_, List.getLast?_eq_some_getLast (List.cons_ne_nil _ _)⟩
    have hshows : m.Shows e := (List.isChain_append.1 hchain).2.2 m hm e rfl
    have hchain := (List.isChain_append.1 hchain).1
    have hgrows := fun d hd => hgrows d (List.mem_append_left _ hd)
    rcases hshows hidle with htold | ⟨hsame, hbefore, hcleaned⟩
    · obtain rfl := Option.some.inj ((shown_of_told (hgrows m (List.mem_of_getLast? hm)) htold).symm.trans ht)
      cases hclean : e.isClean with
      | true => exact .inl rfl
      | false => exact .inr ⟨rfl, nofun⟩
    · have hshown : c.shown m = c.shown e := by rw [shown, shown, hsame]
      refine (ih hchain hgrows hm hbefore t (hshown.trans ht)).imp id fun ⟨hpending, hwhy⟩ => ⟨hpending, fun hclean => ?_⟩
      rcases hcleaned hclean with hclean | hcancels
      · obtain ⟨a, a', hinfix, hcancels, htold, hstill⟩ := hwhy hclean
        exact ⟨a, a', hinfix.trans (List.prefix_append ..).isInfix, hcancels, htold, hsame.trans hstill⟩
      · have hinfix : [m, e] <:+: c :: ds ++ [e] := by
          obtain ⟨front, hfront⟩ := List.getLast?_eq_some_iff.1 hm
          exact ⟨front, [], by simp [hfront]⟩
        exact ⟨m, e, hinfix, hcancels, hshown.trans (ht.trans (congrArg some hpending)), hsame⟩

/-- The queued operations cancelled out during a list of calls while the indicator showed them as pending, and nothing
was told since. -/
def CancelsUntold (c : Channel) (calls : List Call) : Prop := c.CancelledUntold (c.trail calls) (c.run calls)

/-- **The save indicator is left behind in one place only.** Whatever calls a channel is given once it is connected, if
it stays connected and comes to rest: what it told last of its save state, if anything, is that nothing is being saved
and nothing pending, unless the queued operations cancelled out as a delta of another session passed them. -/
theorem indicator_clears_iff {document : DocumentId} {user : UserId} {session : SessionId} {config : Config}
    {before : List Call} {first : Nat} (hc : ((new document user session config).run before).connect first = .ok c)
    (hcalls : c.StaysConnected calls) (hrest : (c.run calls).AtRest) :
    (∀ t, c.shown (c.run calls) = some t → t = (false, false)) ↔ ¬ c.CancelsUntold calls := by
  have horderly : c.Orderly := (connect_step hc).orderly (run_orderly before (new_orderly document user session config))
  obtain ⟨ds, htrail, hchain, hlast⟩ := trail_isChain calls horderly hcalls
  have hgrows := trail_grows calls horderly
  rw [htrail] at hgrows
  constructor
  · rintro hclears ⟨a, a', -, -, hpending, hstill⟩
    have hshown : c.shown (c.run calls) = some (false, true) := by rw [shown, hstill]; exact hpending
    exact absurd (hclears _ hshown) (by decide)
  · intro hno t ht
    refine (chain_shown hchain hgrows hlast hrest.1 t ht).resolve_right fun ⟨_, hwhy⟩ => hno ?_
    rw [CancelsUntold, htrail]
    exact hwhy hrest.2.1

def fresh : Channel := new ⟨"d"⟩ ⟨"me"⟩ ⟨"me"⟩ {}

/-- A character is typed while another is on its way, and taken back before that is acknowledged. -/
def takenBack : List Call :=
  [.submit (typed 0 0 'a'), .flush, .submit (typed 1 1 'b'),
    .submit (.ofComponents [⟨⟨"body"⟩, .text (.deleteAt 2 1 ['b'])⟩]), .delta (told "me" 1 (typed 0 0 'a'))]

/-- What is queued cancels out as it is sent, which is told. -/
theorem indicator_clears_takenBack :
    ∃ c, (fresh.run []).connect 0 = .ok c ∧ c.StaysConnected (takenBack ++ [.flush]) ∧
      (c.run (takenBack ++ [.flush])).AtRest ∧ c.shown (c.run takenBack) = some (false, true) ∧
      c.shown (c.run (takenBack ++ [.flush])) = some (false, false) ∧
      ((∀ t, c.shown (c.run (takenBack ++ [.flush])) = some t → t = (false, false)) ↔
        ¬ c.CancelsUntold (takenBack ++ [.flush])) := by
  obtain ⟨c, hc, hcalls, hrest, hpending, hclear⟩ :
      ∃ c, (fresh.run []).connect 0 = .ok c ∧ c.StaysConnected (takenBack ++ [.flush]) ∧
        (c.run (takenBack ++ [.flush])).AtRest ∧ c.shown (c.run takenBack) = some (false, true) ∧
        c.shown (c.run (takenBack ++ [.flush])) = some (false, false) :=
    ⟨_, rfl, by decide +kernel, by decide +kernel, by decide +kernel, by decide +kernel⟩
  exact ⟨c, hc, hcalls, hrest, hpending, hclear, indicator_clears_iff hc hcalls hrest⟩

/-- What is queued cancels out as another session's edit passes it, and the send timer finds nothing to send. -/
theorem not_indicator_clears :
    ∃ c, fresh.connect 0 = .ok c ∧
      c.StaysConnected (takenBack ++ [.delta (told "them" 2 (typed 1 0 'x')), .flush]) ∧
      (c.run (takenBack ++ [.delta (told "them" 2 (typed 1 0 'x')), .flush])).AtRest ∧
      c.shown (c.run (takenBack ++ [.delta (told "them" 2 (typed 1 0 'x')), .flush])) = some (false, true) :=
  ⟨_, rfl, by decide +kernel, by decide +kernel, by decide +kernel⟩

end Channel
end Coedit
