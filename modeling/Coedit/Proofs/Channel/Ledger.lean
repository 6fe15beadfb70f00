import Coedit.Proofs.Channel.Accounting
import Coedit.Proofs.Channel.Resubmission
import Coedit.Proofs.Channel.Stages

/-!
# Submissions against acknowledgements

While its retry version stands and nothing keeps it from sending, a channel keeps an exact account of its batches: what
was in flight and what it submitted since is, in this order, what was acknowledged since and what is in flight.

* `Channel.Ledger` — the account from one state to a later one;
* `Channel.perform_ledger`, `Channel.run_ledger` — calls and runs keep it;
* `Channel.perform_submits` — what a single call submits.
-/

namespace Coedit

/-- What the command submits, and the version that the reply will carry. -/
def Command.request? : Command → Option (Nat × DeltaRequest)
  | .submit version request => some (version, request)
  | _ => none

def Event.acked? : Event → Option Composite
  | .ack op _ => some op
  | _ => none

namespace Channel

open Composite (Rewritten Becomes)

variable {c c' c'' : Channel} {x : Call} {es es' : List Event} {ys ys' : List Command}

/-- The channel sends and waits, and no request failed. -/
def Steady (c : Channel) : Prop := c.phase = .allAcked ∨ c.phase = .waitingAck

theorem Steady.isConnected (h : c.Steady) : c.isConnected = true := by
  rw [isConnected_iff]
  rcases h with h | h <;> simp [h]

/-- What a channel told and asked for on the way to a later state, and, if the retry version stands, what became of the
batches. -/
structure Ledger (es : List Event) (ys : List Command) (c c' : Channel) : Prop where
  events : c'.events = c.events ++ es
  commands : c'.commands = c.commands ++ ys
  version : c.retryVersion ≤ c'.retryVersion
  /-- Requests carry the version of their time. -/
  versions : ∀ e ∈ ys.filterMap Command.request?, c.retryVersion ≤ e.1 ∧ e.1 ≤ c'.retryVersion
  steady : c'.retryVersion = c.retryVersion → c.Steady → c'.Steady
  account : c'.retryVersion = c.retryVersion → c.Steady →
    Rewritten (c.queue.unacked ++ (ys.filterMap Command.request?).flatMap (·.2.deltas))
      (es.filterMap Event.acked? ++ c'.queue.unacked)

theorem Ledger.refl (c : Channel) : Ledger [] [] c c where
  events := (List.append_nil _).symm
  commands := (List.append_nil _).symm
  version := Nat.le_refl _
  versions _ he := absurd he List.not_mem_nil
  steady _ h := h
  account _ _ := by simpa using Rewritten.refl c.queue.unacked

theorem Ledger.trans (h : Ledger es ys c c') (h' : Ledger es' ys' c' c'') : Ledger (es ++ es') (ys ++ ys') c c'' := by
  have hversion := h.version
  have hversion' := h'.version
  refine
    { events := by rw [h'.events, h.events, List.append_assoc]
      commands := by rw [h'.commands, h.commands, List.append_assoc]
      version := Nat.le_trans hversion hversion'
      versions := fun e he => ?_
      steady := fun hv hc => h'.steady (by omega) (h.steady (by omega) hc)
      account := fun hv hc => ?_ }
  · rw [List.filterMap_append] at he
    rcases List.mem_append.1 he with he | he
    · exact ⟨(h.versions e he).1, Nat.le_trans (h.versions e he).2 hversion'⟩
    · exact ⟨Nat.le_trans hversion (h'.versions e he).1, (h'.versions e he).2⟩
  · -- what is in flight in between is owed by the first part and due in the second
    have hfirst := h.account (by omega) hc
    have hsecond := h'.account (by omega) (h.steady (by omega) hc)
    simp only [List.filterMap_append, List.flatMap_append, ← List.append_assoc]
    refine (hfirst.append (.refl _)).trans ?_
    simp only [List.append_assoc]
    exact (Rewritten.refl _).append hsecond

/-! ## Acts -/

/-- Acknowledging a batch stamps its operations. -/
theorem ackEvents_acked (clean : Bool) : ∀ (ops : List Composite) (first : Nat),
    Rewritten ops ((ackEvents clean first ops).filterMap Event.acked?)
  | [], _ => .nil
  | [_], first => .cons (Becomes.same.stamped first) .nil
  | _ :: op' :: ops, first => .cons (Becomes.same.stamped first) (ackEvents_acked clean (op' :: ops) (first + 1))

/-- The retry version stands, and nothing is told, asked for or in flight that was not before. -/
theorem ledger_of_eq (he : c'.events = c.events) (hy : c'.commands = c.commands) (hv : c'.retryVersion = c.retryVersion)
    (hp : c'.phase = c.phase) (hu : Rewritten c.queue.unacked c'.queue.unacked) : Ledger [] [] c c' where
  events := by rw [he, List.append_nil]
  commands := by rw [hy, List.append_nil]
  version := hv.ge
  versions _ he := absurd he List.not_mem_nil
  steady _ h := by rwa [Steady, hp]
  account _ _ := by simpa using hu

/-- Nothing is owed for what happens while the channel is not steady or once the version was raised. -/
theorem ledger_of_not_steady (he : c'.events = c.events ++ es) (hy : c'.commands = c.commands ++ ys)
    (hv : c.retryVersion ≤ c'.retryVersion)
    (hr : ∀ e ∈ ys.filterMap Command.request?, c.retryVersion ≤ e.1 ∧ e.1 ≤ c'.retryVersion)
    (hno : c'.retryVersion = c.retryVersion → ¬ c.Steady) : Ledger es ys c c' where
  events := he
  commands := hy
  version := hv
  versions := hr
  steady h hc := absurd hc (hno h)
  account h hc := absurd hc (hno h)

theorem Act.ledger (h : Act x c c') : ∃ es ys, Ledger es ys c c' := by
  have none : ∀ {y : Command}, y.request? = none → ∀ e ∈ [y].filterMap Command.request?,
      c.retryVersion ≤ e.1 ∧ e.1 ≤ c'.retryVersion := by
    intro y hy e he
    rw [List.filterMap_cons, hy] at he
    exact absurd he List.not_mem_nil
  cases h with
  | stayed => exact ⟨_, _, .refl c⟩
  | connected _ phase =>
    exact ⟨[], [_], ledger_of_not_steady (List.append_nil _).symm rfl (Nat.le_refl _) (none rfl)
      fun _ => by simp [Steady, phase]⟩
  | ended =>
    exact ⟨_, [_], ledger_of_not_steady rfl rfl (Nat.le_succ _) (none rfl) fun hv => absurd hv (Nat.succ_ne_self _)⟩
  | recorded _ _ result =>
    obtain ⟨serverOps, op', _, rfl⟩ := Queue.record_eq_ok result
    exact ⟨_, _, ledger_of_eq rfl rfl rfl rfl (.refl _)⟩
  | cancelled _ may =>
    obtain ⟨-, -, hnone, -⟩ := maySend_iff.1 may
    exact ⟨_, _, ledger_of_eq rfl rfl rfl rfl (hnone ▸ .nil)⟩
  | @sent batch _ may =>
    obtain ⟨-, -, hnone, -⟩ := maySend_iff.1 may
    refine ⟨[], [_], (List.append_nil _).symm, rfl, Nat.le_refl _, fun e he => ?_, fun _ _ => .inr rfl, fun _ _ => ?_⟩
    · rw [List.mem_singleton.1 he]
      exact ⟨Nat.le_refl _, Nat.le_refl _⟩
    · rw [hnone]
      show Rewritten (batch ++ []) batch
      rw [List.append_nil]
      exact .refl batch
  | heard | echoed | delivered => exact ⟨_, _, ledger_of_eq rfl rfl rfl rfl (.refl _)⟩
  | @acked u us clean _ _ flight =>
    refine ⟨[_], [], rfl, (List.append_nil _).symm, Nat.le_refl _, nofun, fun _ h => h, fun _ _ => ?_⟩
    rw [flight]
    show Rewritten (u :: us ++ []) (u.withRevision _ :: us)
    rw [List.append_nil]
    exact .cons (Becomes.same.stamped _) (Rewritten.refl us)
  | @settled u clean _ _ flight =>
    refine ⟨[_], [], rfl, (List.append_nil _).symm, Nat.le_refl _, nofun, fun _ _ => .inl rfl, fun _ _ => ?_⟩
    rw [flight]
    exact .cons (Becomes.same.stamped _) .nil
  | received _ _ result =>
    refine ⟨[_], [], rfl, (List.append_nil _).symm, Nat.le_refl _, nofun, fun _ h => h, fun _ _ => ?_⟩
    show Rewritten (c.queue.unacked ++ []) _
    rw [List.append_nil]
    exact (Queue.receive_keeps result).2
  | ackedAll =>
    refine ⟨_, [], rfl, (List.append_nil _).symm, Nat.le_refl _, nofun, fun _ _ => .inl rfl, fun _ _ => ?_⟩
    exact (ackEvents_acked _ _ _).append .nil
  | delayed =>
    exact ⟨_, [_], ledger_of_not_steady rfl rfl (Nat.le_succ _) (none rfl) fun hv => absurd hv (Nat.succ_ne_self _)⟩
  | waited _ phase =>
    exact ⟨[], [_], ledger_of_not_steady (List.append_nil _).symm rfl (Nat.le_refl _) (none rfl)
      fun _ => by simp [Steady, phase]⟩
  | synced phase =>
    exact ⟨[], [], ledger_of_not_steady (List.append_nil _).symm (List.append_nil _).symm (Nat.le_refl _) nofun
      fun _ => by simp [Steady, phase]⟩
  | resumed phase =>
    refine ⟨[], [_], ledger_of_not_steady (List.append_nil _).symm rfl (Nat.le_refl _) (fun e he => ?_)
      fun _ => by simp [Steady, phase]⟩
    rw [List.mem_singleton.1 he]
    exact ⟨Nat.le_refl _, Nat.le_refl _⟩

theorem request?_of_isScheduleSend {y : Command} (h : y.isScheduleSend = true) : y.request? = none := by
  obtain ⟨_, rfl⟩ := Command.eq_scheduleSend h
  rfl

theorem Quiet.ledger (h : c.Quiet c') : ∃ es ys, Ledger es ys c c' := by
  obtain @⟨_, _, es, ys, told, timed⟩ := h
  have hacked : es.filterMap Event.acked? = [] := by
    refine List.filterMap_eq_nil_iff.2 fun e he => ?_
    have := told e he
    cases e <;> first | rfl | cases this
  have hrequest : ys.filterMap Command.request? = [] :=
    List.filterMap_eq_nil_iff.2 fun y hy => request?_of_isScheduleSend (timed y hy)
  refine ⟨es, ys, rfl, rfl, Nat.le_refl _, fun e he => ?_, fun _ h => h, fun _ _ => ?_⟩
  · rw [hrequest] at he
    exact absurd he List.not_mem_nil
  · rw [hrequest, hacked]
    simpa using Rewritten.refl c.queue.unacked

theorem Step.ledger (h : Step x c c') : ∃ es ys, Ledger es ys c c' := by
  obtain ⟨m, hact, hquiet⟩ := h
  obtain ⟨_, _, hact⟩ := hact.ledger
  obtain ⟨_, _, hquiet⟩ := hquiet.ledger
  exact ⟨_, _, hact.trans hquiet⟩

/-! ## Calls and runs -/

theorem perform_ledger (hc : c.Orderly) (x : Call) : ∃ es ys, Ledger es ys c (c.perform x).2 :=
  perform_lift (R := fun c c' => ∃ es ys, Ledger es ys c c') (fun c => ⟨_, _, .refl c⟩)
    (fun ⟨_, _, h⟩ ⟨_, _, h'⟩ => ⟨_, _, h.trans h'⟩) hc fun _ h => h.ledger

/-- What a channel submitted, with the version of each request. -/
def requests (c : Channel) : List (Nat × DeltaRequest) := c.commands.filterMap Command.request?

def requested (c : Channel) (calls : List Call) : List (Nat × DeltaRequest) :=
  (c.run calls).requests.drop c.requests.length

def acked (c : Channel) (calls : List Call) : List Composite := (c.emitted calls).filterMap Event.acked?

theorem run_ledger : ∀ (calls : List Call) {c : Channel}, c.Orderly → ∃ es ys, Ledger es ys c (c.run calls)
  | [], c, _ => ⟨_, _, .refl c⟩
  | x :: calls, c, hc => by
    obtain ⟨_, _, hx⟩ := perform_ledger hc x
    obtain ⟨_, _, hcalls⟩ := run_ledger calls (perform_orderly hc x)
    exact ⟨_, _, hx.trans hcalls⟩

/-- A list of calls under one retry version acknowledges what was in flight and submitted, up to what is in flight. -/
theorem run_accounted (hc : c.Orderly) (calls : List Call) :
    c.retryVersion ≤ (c.run calls).retryVersion ∧
      (∀ e ∈ c.requested calls, c.retryVersion ≤ e.1 ∧ e.1 ≤ (c.run calls).retryVersion) ∧
      ((c.run calls).retryVersion = c.retryVersion → c.Steady →
        (c.run calls).Steady ∧ Rewritten (c.queue.unacked ++ (c.requested calls).flatMap (·.2.deltas))
          (c.acked calls ++ (c.run calls).queue.unacked)) := by
  obtain ⟨es, ys, h⟩ := run_ledger calls hc
  have hacked : c.acked calls = es.filterMap Event.acked? := by rw [acked, emitted, h.events, List.drop_left]
  have hrequested : c.requested calls = ys.filterMap Command.request? := by
    simp only [requested, requests, h.commands, List.filterMap_append, List.drop_left]
  rw [hacked, hrequested]
  exact ⟨h.version, h.versions, fun hv hs => ⟨h.steady hv hs, h.account hv hs⟩⟩

/-! ## What a single call submits -/

theorem requests_submissions (c : Channel) : c.requests.map (·.2) = c.submissions := by
  rw [requests, submissions, List.map_filterMap]
  congr 1
  funext y
  cases y <;> rfl

theorem requests_append (h : c'.commands = c.commands ++ ys) (hno : ∀ y ∈ ys, y.request? = none) :
    c'.requests = c.requests := by
  rw [requests, h, List.filterMap_append, List.filterMap_eq_nil_iff.2 hno, List.append_nil, requests]

/-- The state after a call or an act submitted something. -/
structure Submits (c c' : Channel) : Prop where
  before : c.phase ≠ .waitingAck
  after : c'.phase = .waitingAck
  requests : c'.requests = c.requests ++ [(c'.retryVersion, c'.request)]

theorem Act.submits (h : Act x c c') : c'.requests = c.requests ∨ c.Submits c' := by
  cases h with
  | sent _ may =>
    obtain ⟨phase, -⟩ := maySend_iff.1 may
    refine .inr ⟨by simp [phase], rfl, ?_⟩
    rw [requests, List.filterMap_append]
    rfl
  | resumed phase =>
    refine .inr ⟨by simp [phase], rfl, ?_⟩
    rw [requests, List.filterMap_append]
    rfl
  | connected | ended | delayed | waited => exact .inl (requests_append rfl (by simp [Command.request?]))
  | _ => exact .inl rfl

/-- An act submits what is in flight, and only on entering `waitingAck`. -/
theorem Step.submits (h : Step x c c') : c'.requests = c.requests ∨ c.Submits c' := by
  obtain ⟨m, hact, hquiet⟩ := h
  have hsame : c'.requests = m.requests ∧ c'.phase = m.phase ∧ c'.retryVersion = m.retryVersion ∧
      c'.request = m.request := by
    obtain @⟨_, _, es, ys, told, timed⟩ := hquiet
    exact ⟨requests_append rfl fun y hy => request?_of_isScheduleSend (timed y hy), rfl, rfl, rfl⟩
  obtain ⟨hrequests, hphase, hversion, hrequest⟩ := hsame
  rcases hact.submits with h | ⟨hbefore, hafter, h⟩
  · exact .inl (hrequests.trans h)
  · exact .inr ⟨hbefore, hphase.trans hafter, by rw [hrequests, h, hversion, hrequest]⟩

theorem requests_eq {d : Channel} (es : List (Nat × DeltaRequest)) (h : d.submissions = c.submissions)
    (hgrows : c.requests <+: d.requests ++ es) : d.requests = c.requests := by
  have hlength : c.requests.length = d.requests.length := by
    rw [← List.length_map (·.2), requests_submissions, ← h, ← requests_submissions, List.length_map]
  exact ((List.prefix_of_prefix_length_le hgrows (List.prefix_append ..) hlength.le).eq_of_length hlength).symm

theorem requests_grow (hc : c.Orderly) (x : Call) : c.requests <+: (c.perform x).2.requests := by
  obtain ⟨es, ys, h⟩ := perform_ledger hc x
  rw [requests, requests, h.commands, List.filterMap_append]
  exact List.prefix_append ..

theorem drains?_of_caughtUp? (h : c.caughtUp? x = none) (hu : c.queue.unacked = []) : c.drains? x = none := by
  cases x <;> simp_all [caughtUp?, drains?, answers]

/-- A call submits at most once, on entering `waitingAck`, and what is then in flight. -/
theorem perform_submits (hc : c.Orderly) (x : Call) :
    (c.perform x).2.requests = c.requests ∨ c.Submits (c.perform x).2 := by
  have hgrows := requests_grow hc x
  cases hcaught : c.caughtUp? x with
  | none =>
    by_cases hu : c.queue.unacked = []
    · exact (perform_step (drains?_of_caughtUp? hcaught hu)).submits
    · refine .inl (requests_eq [] (perform_submissions hcaught hu) ?_)
      rwa [List.append_nil]
  | some d =>
    obtain ⟨hperform, habsorbs⟩ := caughtUp?_eq_some hcaught
    rw [hperform] at hgrows ⊢
    by_cases hresumes : d.Resumes
    · rcases (checkSynced_step (x := x) d).submits with hsame | ⟨-, hafter, hlast⟩
      · rw [hsame] at hgrows ⊢
        exact .inl (requests_eq [] habsorbs.submissions (by rwa [List.append_nil]))
      · rw [hlast] at hgrows
        refine .inr ⟨by simp [habsorbs.waiting hresumes.1], hafter, ?_⟩
        rw [hlast, requests_eq _ habsorbs.submissions hgrows]
    · refine .inl (requests_eq [] ((checkSynced_submissions hresumes).trans habsorbs.submissions) ?_)
      rwa [List.append_nil]

end Channel
end Coedit
