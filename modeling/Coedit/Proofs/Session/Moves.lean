import Coedit.Channel.Run
import Coedit.Session.Run

/-!
# What may happen to a session

A session is connected, something comes in, time passes and its timers go off.  Whatever it is, the session makes one
call of its channel, or none, and then carries out the commands and delivers the events that the call has listed.  Only
the requests that the transport has taken depend on the transport.

* `Session.Move`, `Session.run` — runs of a session;
* `Session.connect_cases`, `Session.handle_cases` and others — the call behind a move;
* `Session.dispatch_eq` — the delivery of an event;
* `Session.run_shadows` — the same run over a transport that never closes.
-/

namespace Coedit

/-- The call that something coming in leads to. -/
def Inbound.call : Inbound → Call
  | .edit op => .submit op
  | .beginCompound => .beginCompound
  | .endCompound => .endCompound
  | .delta m => .delta m
  | .submitAcked version head => .submitAcked version head
  | .submitFailed version fault => .submitFailed version fault
  | .revisionReply version m => .revisionReply version m
  | .revisionFailed version fault => .revisionFailed version fault
  | .disconnect => .disconnect

namespace Session

variable {τ : Type} {s t : Session τ}

/-! ## Requests -/

/-- The same session over a transport that never closed. -/
inductive Shadows (s : Session τ) : Session τ → Prop where
  | mk {outbound : List Outbound} (kept : s.outbound <+: outbound)
      (same : s.transportOpen = true → s.outbound = outbound) :
      Shadows s { s with outbound, transportOpen := true }

theorem Shadows.refl (h : s.transportOpen = true) : s.Shadows s := by
  have hself : s.Shadows { s with outbound := s.outbound, transportOpen := true } :=
    .mk (List.prefix_refl _) fun _ => rfl
  rwa [← h] at hself

theorem Shadows.kept (h : s.Shadows t) : s.outbound <+: t.outbound := by
  obtain ⟨kept, -⟩ := h
  exact kept

theorem Shadows.channel (h : s.Shadows t) : t.channel = s.channel := by
  obtain ⟨_, _⟩ := h
  rfl

theorem request_shadows (h : s.Shadows t) (x : Outbound) : (s.request x).Shadows (t.request x) := by
  obtain @⟨outbound, kept, same⟩ := h
  unfold request
  rw [if_pos (show transportOpen { s with outbound, transportOpen := true } = true from rfl)]
  split
  next hopen =>
    obtain rfl := same hopen
    exact .mk (List.prefix_refl _) fun _ => rfl
  next hclosed => exact .mk (kept.trans (List.prefix_append _ _)) fun hopen => absurd hopen hclosed

theorem execute_shadows (h : s.Shadows t) (x : Command) : (s.execute x).Shadows (t.execute x) := by
  cases x with
  | unsubscribe document =>
    have hoff : Shadows { s with sendDeadline := none, resyncDeadline := none }
        { t with sendDeadline := none, resyncDeadline := none } := by
      obtain ⟨kept, same⟩ := h
      exact .mk kept same
    exact request_shadows hoff _
  | requestRevision version since =>
    show Shadows _ (t.request (.requestRevision version t.channel.document since))
    rw [h.channel]
    exact request_shadows h _
  | subscribe | submit => exact request_shadows h _
  | scheduleSend | scheduleResync =>
    obtain ⟨kept, same⟩ := h
    exact .mk kept same

theorem foldl_execute_shadows : ∀ (xs : List Command) {s t : Session τ}, s.Shadows t →
    (xs.foldl execute s).Shadows (xs.foldl execute t)
  | [], _, _, h => h
  | x :: xs, _, _, h => foldl_execute_shadows xs (execute_shadows h x)

theorem runCommands_shadows (h : s.Shadows t) : s.runCommands.Shadows t.runCommands := by
  obtain ⟨kept, same⟩ := h
  exact foldl_execute_shadows _ (.mk kept same)

theorem closeTransport_shadows (h : s.Shadows t) : s.closeTransport.Shadows t := by
  obtain ⟨kept, _⟩ := h
  exact .mk kept nofun

theorem ite_shadows {s' t' : Session τ} (p : Prop) [Decidable p] (h : s.Shadows t) (h' : s'.Shadows t') :
    (if p then s else s').Shadows (if p then t else t') := by
  split
  next => exact h
  next => exact h'

/-! ## Moves -/

inductive Move where
  | connect (revision : Nat)
  /-- Something comes in, whether it will be rejected or not. -/
  | take (x : Inbound)
  /-- Time passes. A timer that is due need not go off at once. -/
  | pass (delay : Nat)
  | fireSend
  | fireResync
  /-- Nothing more comes in. -/
  | finish
  | closeTransport

variable [Target τ]

/-- A timer goes off only if it is due. -/
def move (s : Session τ) : Move → Session τ
  | .connect revision => (s.connect revision).2
  | .take x => (s.handle x).2
  | .pass delay => { s with now := s.now + delay }
  | .fireSend => s.fireSendIfDue
  | .fireResync => s.fireResyncIfDue
  | .finish => s.finish
  | .closeTransport => s.closeTransport

def run (s : Session τ) (moves : List Move) : Session τ := moves.foldl move s

/-! ## The call behind a move -/

theorem connect_cases (s : Session τ) (revision : Nat) :
    (s.connect revision).2 = s ∨
      s.channel.isConnected = false ∧ (s.connect revision).2 = s.after (s.channel.perform (.connect revision)).2 := by
  simp only [connect, Channel.perform, Channel.connect]
  split
  next => exact .inl rfl
  next hclosed => exact .inr ⟨Bool.eq_false_iff.2 hclosed, rfl⟩

theorem called_cases (s : Session τ) (r : Except ChannelFault Channel) :
    (s.called r).2 = s ∨ (s.called r).2 = s.after (s.channel.settled r).2 := by
  cases r with
  | error e => exact .inl rfl
  | ok c => exact .inr rfl

/-- An edit may change the target before it is handed to the channel. -/
theorem handle_cases (s : Session τ) (x : Inbound) : ∃ target,
    (s.handle x).2 = { s with target } ∨
      (s.handle x).2 = after { s with target } (s.channel.perform x.call).2 := by
  cases x with
  | edit op =>
    show ∃ target, (s.edit op).2 = _ ∨ (s.edit op).2 = _
    unfold edit
    split
    next => exact ⟨s.target, .inl rfl⟩
    next =>
      split
      next target _ => exact ⟨target, .inl rfl⟩
      next target _ => exact ⟨target, called_cases { s with target } (s.channel.submit op)⟩
  | endCompound => exact ⟨s.target, called_cases s s.channel.endCompound⟩
  | _ => exact ⟨s.target, .inr rfl⟩

theorem fireSendIfDue_cases (s : Session τ) :
    s.fireSendIfDue = s ∨
      s.fireSendIfDue = after { s with sendDeadline := none } (s.channel.perform .flush).2 := by
  unfold fireSendIfDue
  split
  next => exact .inr rfl
  next => exact .inl rfl

theorem fireResyncIfDue_cases (s : Session τ) :
    s.fireResyncIfDue = s ∨ ∃ version due, s.resyncDeadline = some (version, due) ∧
      s.fireResyncIfDue = after { s with resyncDeadline := none } (s.channel.perform (.resyncTimer version)).2 := by
  unfold fireResyncIfDue
  split
  next =>
    unfold fireResync
    split
    next => exact .inl rfl
    next version due h => exact .inr ⟨version, due, h, rfl⟩
  next => exact .inl rfl

/-! ## Delivering an event -/

/-- The target would refuse the operation that the event puts up for delivery. -/
def refuses (s : Session τ) : Event → Bool
  | .remoteOp _ => s.channel.receive.1.any fun op => !(Target.consume s.target op).1.isOk
  | _ => false

/-- The channel once the event was delivered. -/
def dispatched (s : Session τ) : Event → Channel
  | .remoteOp revision =>
    if s.refuses (.remoteOp revision) then s.channel.receive.2.disconnect else s.channel.receive.2
  | _ => s.channel

/-- Delivering an event changes the channel and the target only. -/
theorem dispatch_eq (s : Session τ) (e : Event) : ∃ target,
    s.dispatch e = { s with channel := s.dispatched e, target } := by
  cases e with
  | remoteOp revision =>
    unfold dispatch dispatched refuses
    rcases s.channel.receive with ⟨_ | op, channel⟩
    · exact ⟨s.target, rfl⟩
    · rcases hc : Target.consume s.target op with ⟨fault | _, target⟩
      · exact ⟨Target.faultRaised target fault true, by simp [hc, Except.isOk, Except.toBool]⟩
      · exact ⟨target, by simp [hc, Except.isOk, Except.toBool]⟩
  | ack => exact ⟨s.target, rfl⟩
  | saveState | error => exact ⟨_, rfl⟩

/-! ## The same run over a transport that never closes -/

theorem dispatch_shadows (h : s.Shadows t) (e : Event) : (s.dispatch e).Shadows (t.dispatch e) := by
  obtain ⟨kept, same⟩ := h
  cases e with
  | remoteOp revision =>
    unfold dispatch
    dsimp only
    split
    next => exact .mk kept same
    next => split <;> exact .mk kept same
  | _ => exact .mk kept same

theorem foldl_dispatch_shadows : ∀ (es : List Event) {s t : Session τ}, s.Shadows t →
    (es.foldl (fun s e => (s.dispatch e).runCommands) s).Shadows (es.foldl (fun s e => (s.dispatch e).runCommands) t)
  | [], _, _, h => h
  | e :: es, _, _, h => foldl_dispatch_shadows es (runCommands_shadows (dispatch_shadows h e))

theorem pump_shadows (h : s.Shadows t) : s.pump.Shadows t.pump := by
  have hrun := runCommands_shadows h
  unfold pump
  dsimp only
  generalize s.runCommands = s', t.runCommands = t' at hrun
  obtain ⟨kept, same⟩ := hrun
  exact foldl_dispatch_shadows _ (.mk kept same)

theorem after_shadows (h : s.Shadows t) (c : Channel) : (s.after c).Shadows (t.after c) := by
  obtain ⟨kept, same⟩ := h
  exact pump_shadows (.mk kept same)

theorem called_shadows (h : s.Shadows t) (r : Except ChannelFault Channel) : (s.called r).2.Shadows (t.called r).2 := by
  cases r with
  | error e => exact h
  | ok c => exact after_shadows h c

theorem handle_shadows (h : s.Shadows t) (x : Inbound) : (s.handle x).2.Shadows (t.handle x).2 := by
  obtain ⟨kept, same⟩ := h
  cases x with
  | edit op =>
    simp only [handle, edit]
    split
    next => exact .mk kept same
    next =>
      split
      next => exact .mk kept same
      next target _ => exact called_shadows (s := { s with target }) (.mk kept same) _
  | endCompound => exact called_shadows (.mk kept same) _
  | _ => exact after_shadows (.mk kept same) _

theorem fireSend_shadows (h : s.Shadows t) : s.fireSend.Shadows t.fireSend := by
  obtain ⟨kept, same⟩ := h
  exact after_shadows (s := { s with sendDeadline := none }) (.mk kept same) _

theorem fireResync_shadows (h : s.Shadows t) : s.fireResync.Shadows t.fireResync := by
  obtain ⟨kept, same⟩ := h
  unfold fireResync
  dsimp only
  split
  next => exact .mk kept same
  next => exact after_shadows (s := { s with resyncDeadline := none }) (.mk kept same) _

/-- The move leaves the transport as it is. -/
def Move.leavesTransport : Move → Bool
  | .closeTransport => false
  | _ => true

theorem move_shadows (h : s.Shadows t) {x : Move} (hx : x.leavesTransport = true) :
    (s.move x).Shadows (t.move x) := by
  cases x with
  | connect revision =>
    obtain ⟨kept, same⟩ := h
    exact called_shadows (.mk kept same) _
  | take x => exact handle_shadows h x
  | pass delay =>
    obtain ⟨kept, same⟩ := h
    exact .mk kept same
  | fireSend =>
    obtain ⟨kept, same⟩ := h
    exact ite_shadows (s.isDue s.sendDeadline = true) (fireSend_shadows (.mk kept same)) (.mk kept same)
  | fireResync =>
    obtain ⟨kept, same⟩ := h
    exact ite_shadows (s.isDue s.resyncAt = true) (fireResync_shadows (.mk kept same)) (.mk kept same)
  | finish =>
    obtain ⟨kept, same⟩ := h
    exact after_shadows (.mk kept same) _
  | closeTransport => cases hx

/-- Had the transport not closed, it would have taken more requests, and all else would be the same. -/
theorem run_shadows : ∀ (moves : List Move) {s t : Session τ}, s.Shadows t →
    (s.run moves).Shadows (t.run (moves.filter Move.leavesTransport))
  | [], _, _, h => h
  | x :: moves, _, _, h => by
    cases hx : x.leavesTransport with
    | true =>
      rw [List.filter_cons_of_pos hx]
      exact run_shadows moves (move_shadows h hx)
    | false =>
      obtain rfl : x = .closeTransport := by
        cases x with
        | closeTransport => rfl
        | _ => cases hx
      exact run_shadows moves (closeTransport_shadows h)

end Session
end Coedit
