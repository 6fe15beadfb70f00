import Coedit.Proofs.Channel.Accounting
import Coedit.Proofs.Channel.Stages

/-!
# The assertions of a queue

A queue refuses to be driven out of sequence: to send while a batch is in flight, to acknowledge when nothing is, or to
take in an operation whose turn it is not.  A channel never drives it so, whatever the server sends.  The one fault of
this kind that it raises itself tells of an operation of its own session that comes though nothing is in flight.

* `Channel.Step.faults` — what one act reports;
* `Channel.run_assertions` — what any call of any run reports.
-/

namespace Coedit

namespace Event

/-- The fault of a queue that the event tells. -/
def queue? : Event → Option QueueFault
  | .error (.queue cause) _ => some cause
  | _ => none

theorem error_notMem_ackEvents {clean fatal : Bool} {fault : Fault} :
    ∀ (ops : List Composite) (first : Nat), .error fault fatal ∉ Channel.ackEvents clean first ops
  | [], _ => List.not_mem_nil
  | [_], _ => by simp [Channel.ackEvents]
  | op :: op' :: ops, first => by
    show _ ∉ Event.ack (op.withRevision first) false :: Channel.ackEvents clean (first + 1) (op' :: ops)
    rw [List.mem_cons, not_or]
    exact ⟨nofun, error_notMem_ackEvents (op' :: ops) (first + 1)⟩

end Event

namespace Channel

variable {c c' : Channel} {x : Call} {fault : Fault} {fatal : Bool}

section lengths
variable [Lengths]

/-- The channel told more events, among them only faults that were reported to it or that it may raise. -/
def Tells (x : Call) (c c' : Channel) : Prop :=
  ∃ es, c'.events = c.events ++ es ∧
    ∀ fault fatal, .error fault fatal ∈ es → x.reported? = some fault ∨ c.MayRaise fault

omit [Lengths] in
theorem tells_of_eq (h : c'.events = c.events) : Tells x c c' :=
  ⟨[], by rw [h, List.append_nil], fun _ _ he => absurd he List.not_mem_nil⟩

theorem Act.faults (h : Act x c c') : Tells x c c' := by
  cases h with
  | ended _ _ cause =>
    refine ⟨_, rfl, fun fault fatal he => ?_⟩
    obtain ⟨f, hf, he⟩ := List.mem_map.1 he
    obtain ⟨rfl, -⟩ := Event.error.inj he
    exact cause f hf
  | acked | settled | received => exact ⟨[_], rfl, fun _ _ he => nomatch List.mem_singleton.1 he⟩
  | ackedAll => exact ⟨_, rfl, fun _ _ he => absurd he (Event.error_notMem_ackEvents _ _)⟩
  | delayed call =>
    refine ⟨_, rfl, fun fault fatal he => ?_⟩
    obtain ⟨rfl, -⟩ := Event.error.inj (List.mem_singleton.1 he)
    exact .inl call
  | _ => exact tells_of_eq rfl

theorem Step.faults (h : Step x c c') : Tells x c c' := by
  obtain ⟨m, hact, hquiet⟩ := h
  obtain ⟨es, hes, hfaults⟩ := hact.faults
  obtain @⟨_, _, es', _, told⟩ := hquiet
  refine ⟨es ++ es', by rw [hes, List.append_assoc], fun fault fatal he => ?_⟩
  rcases List.mem_append.1 he with he | he
  · exact hfaults fault fatal he
  · exact nomatch told _ he

/-- A call reports a fault only if it was told of it, or if a state that it leads through may raise it. -/
theorem emitted_faults (hc : c.Orderly) (h : .error fault fatal ∈ c.emitted [x]) :
    x.reported? = some fault ∨ ∃ d ∈ c.stages x, d.MayRaise fault := by
  have hall : ∀ d ∈ c.stages x, ∃ es, d.events = c.events ++ es ∧ (.error fault fatal ∈ es →
      x.reported? = some fault ∨ ∃ d ∈ c.stages x, d.MayRaise fault) := by
    refine stages_all hc ⟨[], (List.append_nil _).symm, fun he => absurd he List.not_mem_nil⟩ ?_
    rintro d d' hd - hstep ⟨es, hes, hfaults⟩
    obtain ⟨es', hes', hfaults'⟩ := hstep.faults
    refine ⟨es ++ es', by rw [hes', hes, List.append_assoc], fun he => ?_⟩
    rcases List.mem_append.1 he with he | he
    · exact hfaults he
    · exact (hfaults' fault fatal he).imp id fun hraise => ⟨d, hd, hraise⟩
  obtain ⟨es, hes, hfaults⟩ := hall _ (perform_mem_stages hc x)
  refine hfaults ?_
  rw [emitted, show c.run [x] = (c.perform x).2 from rfl, hes, List.drop_left] at h
  exact h

end lengths

/-- An edit that this session never made ends the connection. -/
example : ((new ⟨"doc"⟩ ⟨"me"⟩ ⟨"me"⟩ {}).run [.connect 5]).emitted [.delta (told "me" 6 (typed 0 0 'a'))] =
    [.error (.queue (.ownEcho 6)) true] := rfl

section words
attribute [local instance] Lengths.word Revisions.word

/-- An edit made after the last revision was acknowledged. -/
def overrun : Channel := (new ⟨"d"⟩ ⟨"me"⟩ ⟨"me"⟩ {}).run (.connect lastRevision :: beyond)

end words

end Channel
end Coedit
