import Coedit.Proofs.Channel.Ledger

/-!
# One batch at a time

A channel waits for each batch before it sends the next.  What is queued goes in flight as a whole, and only when
nothing else is; what is in flight is submitted on entering `waitingAck`, at the revision of that moment.

* `Channel.Transition` — the changes of phase, with what brings each of them about;
* `Channel.HeadOfLine` — what a single call does to the batches;
* `Channel.run_headOfLine` — every call of every run is such, commands stand between a subscription and its end, and a
  batch is acknowledged before the next is submitted under the same version.
-/

namespace Coedit

/-- Reads a further command of a channel that is subscribed or not. No command but a subscription stands outside of
one, and the next begins only after the last has ended. -/
def Command.follows (document : DocumentId) (subscribed : Bool) : Command → Option Bool
  | .subscribe d => if d = document ∧ subscribed = false then some true else none
  | .unsubscribe d => if d = document ∧ subscribed = true then some false else none
  | _ => if subscribed = true then some true else none

def Command.isSubscription : Command → Bool
  | .subscribe _ | .unsubscribe _ => true
  | _ => false

theorem Command.foldlM_follows {document : DocumentId} : ∀ {ys : List Command},
    (∀ y ∈ ys, y.isSubscription = false) → ys.foldlM (Command.follows document) true = some true
  | [], _ => rfl
  | y :: ys, h => by
    have hy : y.follows document true = some true := by
      have := h y (List.mem_cons_self ..)
      cases y <;> first | rfl | cases this
    rw [List.foldlM_cons, hy]
    exact foldlM_follows fun y hy => h y (List.mem_cons_of_mem _ hy)

namespace Channel

open Composite (Rewritten)

variable {c c' c'' : Channel} {x : Call}

/-! ## Changes of phase -/

/-- The phase stays, or it changes as it may. -/
inductive Transition (x : Call) (c c' : Channel) : Prop where
  | stays (same : c'.phase = c.phase)
  | connect {revision : Nat} (call : x = .connect revision) (leaves : c.phase = .uninitialized)
      (enters : c'.phase = .allAcked)
  | send (call : x = .flush) (leaves : c.phase = .allAcked) (enters : c'.phase = .waitingAck)
  /-- Nothing is left in flight. -/
  | allAcked (leaves : c.phase = .waitingAck ∨ c.phase = .delayResync) (done : c'.queue.unacked = [])
      (enters : c'.phase = .allAcked)
  | failure {fault : Fault} (call : x.reported? = some fault) (mild : fault.isFatal = false)
      (leaves : c.phase = .waitingAck ∨ c.phase = .waitingSync) (enters : c'.phase = .delayResync)
  | elapsed {version : Nat} (call : x = .resyncTimer version) (leaves : c.phase = .delayResync)
      (enters : c'.phase = .waitingSync)
  | syncedClean (leaves : c.phase = .waitingSync) (caught : c.knownHead ≤ c.queue.revision)
      (clean : c.queue.unacked = []) (enters : c'.phase = .allAcked)
  | syncedDirty (leaves : c.phase = .waitingSync) (caught : c.knownHead ≤ c.queue.revision)
      (dirty : c.queue.unacked ≠ []) (enters : c'.phase = .waitingAck)
  | disconnect (leaves : c.phase ≠ .uninitialized) (enters : c'.phase = .uninitialized)

theorem Act.transition (h : Act x c c') : Transition x c c' := by
  cases h with
  | connected call phase => exact .connect call phase rfl
  | ended phase => exact .disconnect phase rfl
  | sent call may => exact .send call (maySend_iff.1 may).1 rfl
  | settled phase => exact .allAcked phase rfl rfl
  | ackedAll _ phase => exact .allAcked (.inl phase) rfl rfl
  | delayed call mild phase => exact .failure call mild phase rfl
  | waited call phase => exact .elapsed call phase rfl
  | synced phase caught flight => exact .syncedClean phase caught flight rfl
  | resumed phase caught flight => exact .syncedDirty phase caught flight rfl
  | _ => exact .stays rfl

theorem Step.transition (h : Step x c c') : Transition x c c' := by
  obtain ⟨m, hact, ⟨_, _, _⟩⟩ := h
  cases hact.transition with
  | stays same => exact .stays same
  | connect call leaves enters => exact .connect call leaves enters
  | send call leaves enters => exact .send call leaves enters
  | allAcked leaves done enters => exact .allAcked leaves done enters
  | failure call mild leaves enters => exact .failure call mild leaves enters
  | elapsed call leaves enters => exact .elapsed call leaves enters
  | syncedClean leaves caught clean enters => exact .syncedClean leaves caught clean enters
  | syncedDirty leaves caught dirty enters => exact .syncedDirty leaves caught dirty enters
  | disconnect leaves enters => exact .disconnect leaves enters

/-! ## What goes in flight -/

/-- Only operations that were in flight before are in flight, the oldest of them perhaps no more. -/
def Shifts (c c' : Channel) : Prop := ∃ n, Rewritten (c.queue.unacked.drop n) c'.queue.unacked

theorem shifts_of_rewritten (h : Rewritten c.queue.unacked c'.queue.unacked) : c.Shifts c' := ⟨0, h⟩

theorem shifts_of_nil (h : c'.queue.unacked = []) : c.Shifts c' :=
  ⟨c.queue.unacked.length, by rw [List.drop_length, h]; exact .nil⟩

theorem Shifts.trans (h : c.Shifts c') (h' : c'.Shifts c'') : c.Shifts c'' := by
  obtain ⟨n, h⟩ := h
  obtain ⟨m, h'⟩ := h'
  refine ⟨n + m, ?_⟩
  rw [← List.drop_drop]
  exact (h.drop m).trans h'

/-- Everything queued went in flight, compacted, by a flush that found nothing in flight and no compound edit open. -/
structure SendsAll (x : Call) (c c' : Channel) : Prop where
  call : x = .flush
  phase : c.phase = .allAcked
  compound : c.compoundDepth = 0
  flight : c.queue.unacked = []
  batch : c.queue.compacted = .ok c'.queue.unacked
  queued : c'.queue.queued = []

theorem Act.flight (h : Act x c c') : c.Shifts c' ∨ SendsAll x c c' := by
  cases h with
  | ended _ spoils => exact .inl (shifts_of_rewritten spoils.unacked)
  | recorded _ _ result =>
    obtain ⟨serverOps, op', _, rfl⟩ := Queue.record_eq_ok result
    exact .inl (shifts_of_rewritten (.refl _))
  | cancelled call may compacted | sent call may compacted =>
    obtain ⟨phase, compound, flight, -⟩ := maySend_iff.1 may
    exact .inr ⟨call, phase, compound, flight, compacted, rfl⟩
  | @acked u us _ _ _ flight =>
    refine .inl ⟨1, ?_⟩
    rw [flight]
    exact Rewritten.refl us
  | received _ _ result => exact .inl (shifts_of_rewritten (Queue.receive_keeps result).2)
  | connected | settled | ackedAll => exact .inl (shifts_of_nil rfl)
  | _ => exact .inl (shifts_of_rewritten (.refl _))

theorem Step.flight (h : Step x c c') : c.Shifts c' ∨ SendsAll x c c' := by
  obtain ⟨m, hact, ⟨_, _, _⟩⟩ := h
  exact hact.flight.imp id fun ⟨call, phase, compound, flight, batch, queued⟩ =>
    ⟨call, phase, compound, flight, batch, queued⟩

theorem perform_flight (hc : c.Orderly) (x : Call) :
    c.Shifts (c.perform x).2 ∨ SendsAll x c (c.perform x).2 := by
  by_cases hx : x = .flush
  · subst hx
    exact (perform_step rfl).flight
  · refine .inl (perform_lift (fun c => shifts_of_rewritten (.refl _)) Shifts.trans hc fun _ hstep => ?_)
    exact hstep.flight.resolve_right fun hsends => hx hsends.call

/-! ## Subscriptions -/

/-- The channel issued more commands, all of them in their place. -/
def Brackets (c c' : Channel) : Prop :=
  c'.document = c.document ∧ ∃ ys, c'.commands = c.commands ++ ys ∧
    ys.foldlM (Command.follows c.document) c.isConnected = some c'.isConnected

theorem brackets_of_eq (hd : c'.document = c.document) (hy : c'.commands = c.commands)
    (hopen : c'.isConnected = c.isConnected) : c.Brackets c' :=
  ⟨hd, [], by rw [hy, List.append_nil], by rw [hopen]; rfl⟩

theorem Brackets.trans (h : c.Brackets c') (h' : c'.Brackets c'') : c.Brackets c'' := by
  obtain ⟨hd, ys, hy, hopen⟩ := h
  obtain ⟨hd', ys', hy', hopen'⟩ := h'
  refine ⟨hd'.trans hd, ys ++ ys', by rw [hy', hy, List.append_assoc], ?_⟩
  rw [hd] at hopen'
  rw [List.foldlM_append, hopen]
  exact hopen'

theorem brackets_of_open {ys : List Command} (hd : c'.document = c.document) (hy : c'.commands = c.commands ++ ys)
    (hplain : ∀ y ∈ ys, y.isSubscription = false) (hopen : c.phase ≠ .uninitialized)
    (hopen' : c'.phase ≠ .uninitialized) : c.Brackets c' :=
  ⟨hd, ys, hy, by rw [isConnected_iff.2 hopen, isConnected_iff.2 hopen', Command.foldlM_follows hplain]⟩

theorem Act.brackets (h : Act x c c') : c.Brackets c' := by
  have plain : ∀ {y : Command}, y.isSubscription = false → ∀ z ∈ [y], z.isSubscription = false := by
    intro y hy z hz
    rw [List.mem_singleton.1 hz, hy]
  have none : ∀ y ∈ ([] : List Command), y.isSubscription = false := fun _ hy => absurd hy List.not_mem_nil
  cases h with
  | connected _ phase => exact ⟨rfl, [_], rfl, by simp [Command.follows, isConnected, phase]⟩
  | ended phase => exact ⟨rfl, [_], rfl, by simp [Command.follows, cut, isConnected, phase]⟩
  | sent _ may => exact brackets_of_open rfl rfl (plain rfl) (by simp [(maySend_iff.1 may).1]) (by simp)
  | settled phase =>
    exact brackets_of_open rfl (List.append_nil _).symm none (by rcases phase with h | h <;> simp [h]) (by simp)
  | ackedAll _ phase | synced phase =>
    exact brackets_of_open rfl (List.append_nil _).symm none (by simp [phase]) (by simp)
  | delayed _ _ phase =>
    exact brackets_of_open rfl rfl (plain rfl) (by rcases phase with h | h <;> simp [h]) (by simp)
  | waited _ phase | resumed phase => exact brackets_of_open rfl rfl (plain rfl) (by simp [phase]) (by simp)
  | _ => exact brackets_of_eq rfl rfl rfl

theorem Quiet.brackets (h : c.Quiet c') : c.Brackets c' := by
  obtain @⟨_, _, _, ys, _, timed, due⟩ := h
  by_cases hys : ys = []
  · subst hys
    exact brackets_of_eq rfl (List.append_nil _) rfl
  · refine brackets_of_open rfl rfl (fun y hy => ?_) (due hys) (due hys)
    obtain ⟨_, rfl⟩ := Command.eq_scheduleSend (timed y hy)
    rfl

theorem perform_brackets (hc : c.Orderly) (x : Call) : c.Brackets (c.perform x).2 :=
  perform_lift (fun _ => brackets_of_eq rfl rfl rfl) Brackets.trans hc fun _ ⟨_, hact, hquiet⟩ =>
    hact.brackets.trans hquiet.brackets

theorem run_brackets : ∀ (calls : List Call) {c : Channel}, c.Orderly → c.Brackets (c.run calls)
  | [], _, _ => brackets_of_eq rfl rfl rfl
  | x :: calls, _, hc => (perform_brackets hc x).trans (run_brackets calls (perform_orderly hc x))

/-! ## Calls and runs -/

/-- What a call does to the batches of a channel. -/
structure HeadOfLine (c : Channel) (x : Call) : Prop where
  idle : ∀ d ∈ c.stages x, d.phase = .allAcked → d.queue.unacked = []
  flying : ∀ d ∈ c.stages x, d.phase = .waitingAck → d.queue.unacked ≠ []
  single : ∀ d ∈ c.stages x, d.isConnected = true → d.queue.unacked.length ≤ 1
  flight : c.Shifts (c.perform x).2 ∨ SendsAll x c (c.perform x).2
  submits : c.requested [x] = [] ∨
    c.phase ≠ .waitingAck ∧ (c.perform x).2.phase = .waitingAck ∧
      c.requested [x] = [((c.perform x).2.retryVersion, (c.perform x).2.request)]
  /-- The stages lead from the state that the call is made in to the one it leaves behind, -/
  first : (c.stages x).head? = some c
  last : (c.stages x).getLast? = some (c.perform x).2
  /-- and the phase changes from one to the next as it may. -/
  moves : (c.stages x).IsChain (Transition x)

theorem requested_call (hc : c.Orderly) (x : Call) : c.requested [x] = [] ∨
    c.phase ≠ .waitingAck ∧ (c.perform x).2.phase = .waitingAck ∧
      c.requested [x] = [((c.perform x).2.retryVersion, (c.perform x).2.request)] := by
  rw [requested, show c.run [x] = (c.perform x).2 from rfl]
  rcases perform_submits hc x with h | ⟨hbefore, hafter, h⟩
  · exact .inl (by rw [h, List.drop_length])
  · exact .inr ⟨hbefore, hafter, by rw [h, List.drop_left]⟩

theorem perform_headOfLine (hc : c.Orderly) (x : Call) : c.HeadOfLine x := by
  obtain ⟨rest, hstages, hchain, hlast⟩ := stages_isChain hc x
  exact
    { idle := fun d hd => (stages_orderly hc x d hd).idle
      flying := fun d hd => (stages_orderly hc x d hd).flying
      single := fun d hd hopen => (stages_orderly hc x d hd).single (isConnected_iff.1 hopen)
      flight := perform_flight hc x
      submits := requested_call hc x
      first := by rw [hstages]; rfl
      last := by rw [hstages, hlast]
      moves := by
        rw [hstages]
        exact hchain.imp fun _ _ hstep => hstep.transition }

variable {version : Nat} {request later : DeltaRequest} {between : List Call} {y : Call}

theorem of_mem_requested (hc : c.Orderly) (h : (version, request) ∈ c.requested [x]) :
    c.phase ≠ .waitingAck ∧ (c.perform x).2.phase = .waitingAck ∧
      version = (c.perform x).2.retryVersion ∧ request = (c.perform x).2.request := by
  rcases requested_call hc x with hnone | ⟨hbefore, hafter, hone⟩
  · rw [hnone] at h
    exact absurd h List.not_mem_nil
  · rw [hone] at h
    obtain ⟨hversion, hrequest⟩ := Prod.mk.inj (List.mem_singleton.1 h)
    exact ⟨hbefore, hafter, hversion, hrequest⟩

/-- Before a batch is submitted under the version of an earlier one, that one is acknowledged. -/
theorem acked_of_requested (hc : c.Orderly) (hx : (version, request) ∈ c.requested [x])
    (hy : (version, later) ∈ ((c.perform x).2.run between).requested [y]) :
    Rewritten request.deltas (((c.perform x).2.acked between).take request.deltas.length) := by
  have hd := perform_orderly hc x
  have hd' := run_orderly between hd
  obtain ⟨-, hwaiting, hversion, rfl⟩ := of_mem_requested hc hx
  obtain ⟨hready, -, hversion', -⟩ := of_mem_requested hd' hy
  obtain ⟨hgrows, -, haccount⟩ := run_accounted hd between
  obtain ⟨hgrows', -⟩ := run_accounted hd' [y]
  have hgrows' : ((c.perform x).2.run between).retryVersion ≤
      (((c.perform x).2.run between).perform y).2.retryVersion := hgrows'
  obtain ⟨hsteady, hrewritten⟩ := haccount (by omega) (.inr hwaiting)
  -- the later batch found nothing in flight, so all that was in flight or submitted since is acknowledged
  rw [hd'.idle (hsteady.resolve_right hready), List.append_nil] at hrewritten
  have htake := List.forall₂_take (c.perform x).2.queue.unacked.length hrewritten
  rwa [List.take_left] at htake

/-- **One batch at a time.** Whatever calls a channel was given: the next call treats its batches as it should, its
commands keep to subscriptions, and a batch that the next call submits is acknowledged before another one is submitted
under the same version. -/
theorem run_headOfLine (document : DocumentId) (user : UserId) (session : SessionId) (config : Config)
    (calls : List Call) (x : Call) :
    let c := (new document user session config).run calls
    c.HeadOfLine x ∧ c.commands.foldlM (Command.follows document) false = some c.isConnected ∧
      ∀ version request between y later, (version, request) ∈ c.requested [x] →
        (version, later) ∈ ((c.perform x).2.run between).requested [y] →
          Rewritten request.deltas (((c.perform x).2.acked between).take request.deltas.length) := by
  have hnew := new_orderly document user session config
  have hc := run_orderly calls hnew
  obtain ⟨-, ys, hcommands, hfollows⟩ := run_brackets calls hnew
  refine ⟨perform_headOfLine hc x, ?_, fun version request between y later => acked_of_requested hc⟩
  rw [hcommands]
  exact hfollows

/-- What leads a channel up to sending its first edit, which an open compound edit holds back once. -/
def edited : List Call := [.connect 5, .beginCompound, .submit (typed 0 0 'a'), .flush, .endCompound]

/-- The edit is passed by another session's, comes back within a second compound edit, and is followed by that one. -/
def passedAndEdited : List Call :=
  [.delta (told "them" 6 (typed 0 0 'x')), .beginCompound, .submit (typed 1 0 'b'), .delta (told "me" 7 (typed 1 0 'a')),
    .flush, .endCompound]

def editing : Channel := (new ⟨"doc"⟩ ⟨"me"⟩ ⟨"me"⟩ {}).run edited

theorem run_headOfLine_passed : ∃ request later, (0, request) ∈ editing.requested [.flush] ∧
    (0, later) ∈ ((editing.perform .flush).2.run passedAndEdited).requested [.flush] ∧
    Rewritten request.deltas (((editing.perform .flush).2.acked passedAndEdited).take request.deltas.length) := by
  have hone : (editing.requested [.flush]).map (·.1) = [0] := by decide +kernel
  have htwo : (((editing.perform .flush).2.run passedAndEdited).requested [.flush]).map (·.1) = [0] := by
    decide +kernel
  obtain ⟨⟨_, request⟩, hx, rfl⟩ := List.mem_map.1 (hone ▸ List.mem_singleton_self 0)
  obtain ⟨⟨_, later⟩, hy, rfl⟩ := List.mem_map.1 (htwo ▸ List.mem_singleton_self 0)
  exact ⟨request, later, hx, hy, (run_headOfLine ⟨"doc"⟩ ⟨"me"⟩ ⟨"me"⟩ {} edited .flush).2.2 0 request passedAndEdited
    .flush later hx hy⟩

end Channel
end Coedit
