import Coedit.Proofs.Channel.Pieces

/-!
# The end of a connection

A channel raises a fatal fault at most once in a call, and nothing comes after it: the fault is the last event, and the
channel is closed by then.  A closed channel stays closed and tells nothing, whatever it is given, until it is connected
again.

* `Channel.Raises`, `Channel.perform_raises`, `Channel.perform_events` — what a call tells;
* `Channel.perform_of_closed` — calls of a closed channel.
-/

namespace Coedit

namespace Channel

variable {c c' m : Channel} {x : Call}

/-! ## What a call tells -/

/-- No fatal fault was told. -/
def Mild (c c' : Channel) : Prop := ∃ es, c'.events = c.events ++ es ∧ ∀ e ∈ es, e.isFatal = false

theorem mild_of_eq (h : c'.events = c.events) : c.Mild c' :=
  ⟨[], by rw [h, List.append_nil], fun _ he => absurd he List.not_mem_nil⟩

theorem Mild.refl (c : Channel) : c.Mild c := mild_of_eq rfl

theorem Mild.trans (h : c.Mild m) (h' : m.Mild c') : c.Mild c' := by
  obtain ⟨es, he, hes⟩ := h
  obtain ⟨es', he', hes'⟩ := h'
  exact ⟨es ++ es', by rw [he', he, List.append_assoc], List.forall_mem_append.2 ⟨hes, hes'⟩⟩

theorem scheduleSend_mild (c : Channel) : c.Mild c.scheduleSend := by
  unfold scheduleSend
  split <;> exact mild_of_eq rfl

/-- What was told, a fatal fault at last or none. -/
inductive Raises (c c' : Channel) : Prop where
  | none (mild : c.Mild c')
  | fatal {m : Channel} {fault : Fault} (mild : c.Mild m) (last : c'.events = m.events ++ [.error fault true])
      (closed : c'.isConnected = false)

theorem Mild.andThen (h : c.Mild m) (h' : m.Raises c') : c.Raises c' := by
  cases h' with
  | none mild => exact .none (h.trans mild)
  | fatal mild last closed => exact .fatal (h.trans mild) last closed

/-- After a fatal fault nothing more is done. -/
theorem Raises.andThen (h : c.Raises m) (hclosed : m.isConnected = false → c' = m) (h' : m.Raises c') :
    c.Raises c' := by
  cases h with
  | none mild => exact mild.andThen h'
  | fatal mild last closed =>
    obtain rfl := hclosed closed
    exact .fatal mild last closed

theorem fail_raises (c : Channel) (fault : Fault) : c.Raises (c.fail fault) :=
  .fatal (.refl c) (fail_events c fault) (fail_isConnected c fault)

theorem disconnect_raises (c : Channel) : c.Raises c.disconnect := .none (mild_of_eq (disconnect_events c))

theorem piecewise_raises : Piecewise Mild Raises where
  trans := Mild.trans
  same h _ _ := mild_of_eq h
  told _ _ h := ⟨_, rfl, h⟩
  listed _ _ _ := mild_of_eq rfl
  scheduleSend := scheduleSend_mild
  lift := .none
  before := Mild.andThen
  after := Raises.andThen
  disconnect := disconnect_raises
  fail := fail_raises

/-- Whatever a call tells, a fatal fault comes last. -/
theorem perform_raises (c : Channel) (x : Call) : c.Raises (c.perform x).2 := by
  by_cases hx : x = .flush
  · have hoff : c.Mild { c with sendScheduled := false } := mild_of_eq rfl
    rw [hx]
    exact hoff.andThen (piecewise_raises.flush c)
  · exact piecewise_raises.perform c hx

/-- Only the last event of a call may be fatal, and then the channel is closed. -/
theorem perform_events (he : c.events = []) (x : Call) :
    (∀ e ∈ (c.perform x).2.events.dropLast, e.isFatal = false) ∧
      ∀ e ∈ (c.perform x).2.events, e.isFatal = true → (c.perform x).2.isConnected = false := by
  cases c.perform_raises x with
  | none mild =>
    obtain ⟨es, hes, hmild⟩ := mild
    rw [he, List.nil_append] at hes
    rw [hes]
    refine ⟨fun e he => hmild e (List.dropLast_subset _ he), fun e he hfatal => ?_⟩
    exact absurd (hfatal.symm.trans (hmild e he)) nofun
  | fatal mild last closed =>
    obtain ⟨es, hes, hmild⟩ := mild
    rw [hes, he, List.nil_append] at last
    rw [last, List.dropLast_concat]
    exact ⟨hmild, fun _ _ _ => closed⟩

/-! ## Closed channels -/

theorem scheduleSend_of_closed (h : c.phase = .uninitialized) : c.scheduleSend = c := by
  unfold scheduleSend
  rw [if_neg]
  intro hdue
  exact absurd (h.symm.trans (maySend_iff.1 (Bool.and_eq_true_iff.1 hdue).1).1) nofun

/-- A closed channel stays closed and tells nothing. -/
theorem perform_of_closed (h : c.phase = .uninitialized) (hx : ∀ revision, x ≠ .connect revision) :
    (c.perform x).2.phase = .uninitialized ∧ (c.perform x).2.events = c.events := by
  have hclosed : c.isConnected = false := by simp [isConnected, h]
  have hstale : ∀ version, c.isCurrent version = false := fun version => by rw [isCurrent, hclosed, Bool.false_and]
  cases x with
  | connect revision => exact absurd rfl (hx revision)
  | disconnect => simp [perform, disconnect, hclosed, h]
  | submit op => simp [perform, submit, hclosed, settled, h]
  | beginCompound => exact ⟨h, rfl⟩
  | endCompound =>
    simp only [perform, endCompound]
    split
    next => exact ⟨h, rfl⟩
    next =>
      dsimp only [settled]
      split
      next =>
        rw [scheduleSend_of_closed (c := { c with compoundDepth := c.compoundDepth - 1 }) h]
        exact ⟨h, rfl⟩
      next => exact ⟨h, rfl⟩
  | flush =>
    have hmay : ¬ maySend { c with sendScheduled := false } = true := fun hmay => by
      cases h.symm.trans (maySend_iff.1 hmay).1
    rw [perform, flush, if_neg hmay]
    exact ⟨h, rfl⟩
  | submitAcked version head => simp [perform, submitAcked, hstale, h]
  | submitFailed version fault => simp [perform, submitFailed, hstale, h]
  | delta m => simp [perform, delta, hclosed, h]
  | resyncTimer version => simp [perform, resyncTimer, hstale, h]
  | revisionReply version m => simp [perform, revisionReply, hstale, h]
  | revisionFailed version fault => simp [perform, revisionFailed, hstale, h]
  | receive => exact ⟨h, rfl⟩

end Channel
end Coedit
