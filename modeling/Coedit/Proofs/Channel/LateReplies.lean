import Coedit.Proofs.Channel.HeadOfLine

/-!
# Replies that come late

Successive batches share their retry version until a request fails, so the reply to a batch that its echo has already
acknowledged may find the next one in flight.  That the server took the batch is then no news.  That submitting it
failed is taken for the failure of the next one: the channel keeps its batch, and catches up before it goes on.

* `Channel.StaysConnected.of_retryVersion` — while the version stands the channel is connected;
* `Channel.le_revision_of_mem_acked` — what was acknowledged is accounted for;
* `Channel.run_lateReplies` — what late replies do.
-/

namespace Coedit
namespace Channel

open Composite (Rewritten)

variable {c d : Channel} {x : Call} {calls : List Call} {version head : Nat} {fault : Fault} {op : Composite}

/-! ## Under one version -/

theorem StaysConnected.of_retryVersion : ∀ (calls : List Call) {c : Channel}, c.Orderly → c.Steady →
    (c.run calls).retryVersion = c.retryVersion → c.StaysConnected calls
  | [], _, _, _, _ => trivial
  | x :: calls, c, hc, hs, hv => by
    have hnext := perform_orderly hc x
    obtain ⟨hgrows, -, hsteady⟩ := run_accounted hc [x]
    obtain ⟨hgrows', -⟩ := run_accounted hnext calls
    have hgrows : c.retryVersion ≤ (c.perform x).2.retryVersion := hgrows
    have hv : ((c.perform x).2.run calls).retryVersion = c.retryVersion := hv
    have hx : (c.perform x).2.retryVersion = c.retryVersion := by omega
    exact ⟨hs.isConnected, of_retryVersion calls hnext (hsteady hx hs).1 (hv.trans hx.symm)⟩

/-- What was acknowledged since carries a revision that is accounted for. -/
theorem le_revision_of_mem_acked (hc : c.Dated) (hcalls : c.StaysConnected calls) (h : op ∈ c.acked calls)
    (hop : op.revision = some head) : head ≤ (c.run calls).revision := by
  obtain ⟨hgrows, ⟨es, he, haccounts, -⟩, -⟩ := run_advances calls hc hcalls
  rw [acked, emitted, he, List.drop_left] at h
  obtain ⟨e, hmem, hacked⟩ := List.mem_filterMap.1 h
  have haccount : e.accounts? = some (some head) := by
    cases e with
    | ack u clean =>
      obtain rfl := Option.some.inj hacked
      exact congrArg some hop
    | _ => cases hacked
  have hspan : some head ∈ span c.revision (c.run calls).revision := by
    rw [← haccounts]
    exact List.mem_filterMap.2 ⟨e, hmem, haccount⟩
  obtain ⟨r, hr, hrhead⟩ := List.mem_map.1 hspan
  obtain rfl := Option.some.inj hrhead
  have := List.mem_range'_1.1 hr
  omega

/-- A batch that is in flight once all before it were acknowledged was submitted since. -/
theorem exists_requested (hc : c.Orderly) (hphase : c.phase = .waitingAck)
    (hacked : c.queue.unacked.length ≤ (c.acked calls).length) (hv : (c.run calls).retryVersion = c.retryVersion)
    (hwaiting : (c.run calls).phase = .waitingAck) : ∃ later, (c.retryVersion, later) ∈ c.requested calls := by
  obtain ⟨-, hversions, haccount⟩ := run_accounted hc calls
  obtain ⟨-, hrewritten⟩ := haccount hv (.inr hphase)
  have hflying := List.length_pos_iff.2 ((run_orderly calls hc).flying hwaiting)
  have hlength := hrewritten.length_eq
  rw [List.length_append, List.length_append] at hlength
  have hsome : c.requested calls ≠ [] := by
    intro hnone
    rw [hnone, List.flatMap_nil, List.length_nil] at hlength
    omega
  obtain ⟨⟨version, later⟩, hmem⟩ := List.exists_mem_of_ne_nil _ hsome
  obtain ⟨hfrom, hto⟩ := hversions _ hmem
  have hversion : version = c.retryVersion := Nat.le_antisymm (hv ▸ hto) hfrom
  exact ⟨later, hversion ▸ hmem⟩

/-! ## Replies -/

/-- The batch is known to be taken, so the reply tells nothing new. -/
theorem submitAcked_of_le (hd : d.Orderly) (hle : d.isCurrent version = true → head ≤ d.queue.revision) :
    d.submitAcked version head = d := by
  by_cases hdue : (d.isCurrent version && d.phase == .waitingAck) = true
  · obtain ⟨hcurrent, hphase⟩ := Bool.and_eq_true_iff.1 hdue
    rw [beq_iff_eq] at hphase
    have hle := hle hcurrent
    have hflying := List.length_pos_iff.2 (hd.flying hphase)
    have hlater : head ≠ d.queue.revision + d.queue.unacked.length := by omega
    have hhead := hd.head (by simp [hphase])
    rw [submitAcked_eq hcurrent hphase, if_pos (by simp [hlater]), Nat.max_eq_left (by omega)]
  · rw [submitAcked, if_neg hdue]

/-- The channel once submitting its batch failed, but not for good. -/
def resyncing (d : Channel) (fault : Fault) : Channel :=
  { d with
    retryAttempt := min (d.retryAttempt + 1) attemptLimit
    retryVersion := d.retryVersion + 1
    phase := .delayResync
    events := d.events ++ [.error fault false, .saveState true true]
    commands := d.commands ++ [.scheduleResync (d.retryVersion + 1) (d.config.retry.delay d.retryAttempt)] }

theorem isCurrent_iff : d.isCurrent version = true ↔ d.phase ≠ .uninitialized ∧ version = d.retryVersion := by
  rw [isCurrent, Bool.and_eq_true, isConnected_iff, beq_iff_eq]

theorem submitFailed_eq (hd : d.Orderly) (hcurrent : d.isCurrent version = true) (phase : d.phase = .waitingAck)
    (hmild : fault.isFatal = false) : d.submitFailed version fault = d.resyncing fault := by
  have hflying := hd.flying phase
  unfold submitFailed
  rw [if_pos (by simp [hcurrent, phase])]
  simp [handleFailure, hmild, enter, event, command, emitSaveState, phase, Queue.isClean, hflying, resyncing]

/-- **Replies that come late.** Let a batch that a channel submitted be acknowledged. The reply that the server took it,
with the revision of its last operation for the head, changes nothing. A reply that submitting it failed, but not for
good, changes nothing either, unless the channel waits for a later batch under the same version: then it counts as the
failure of that one. -/
theorem run_lateReplies (document : DocumentId) (user : UserId) (session : SessionId) (config : Config)
    (before : List Call) (x : Call) (between : List Call) (version : Nat) (request : DeltaRequest) (op : Composite)
    (head : Nat) (fault : Fault)
    (hx : (version, request) ∈ ((new document user session config).run before).requested [x])
    (hop : ((((new document user session config).run before).perform x).2.acked between)[request.deltas.length - 1]? =
      some op)
    (hhead : op.revision = some head) (hmild : fault.isFatal = false) :
    let c := (((new document user session config).run before).perform x).2
    let d := c.run between
    d.submitAcked version head = d ∧
      (¬ (d.retryVersion = version ∧ d.phase = .waitingAck) → d.submitFailed version fault = d) ∧
      (d.retryVersion = version ∧ d.phase = .waitingAck →
        (∃ later, (version, later) ∈ c.requested between) ∧ d.submitFailed version fault = d.resyncing fault) := by
  intro c d
  have hnew := new_orderly document user session config
  have hbefore := run_orderly before hnew
  have hc : c.Orderly := perform_orderly hbefore x
  have hd : d.Orderly := run_orderly between hc
  obtain ⟨-, hwaiting, hversion, rfl⟩ := of_mem_requested hbefore hx
  have hwaiting : c.phase = .waitingAck := hwaiting
  have hversion : version = c.retryVersion := hversion
  have hmem : op ∈ c.acked between := List.mem_of_getElem? hop
  have hall : c.queue.unacked.length ≤ (c.acked between).length := by
    have hlength : c.queue.unacked.length - 1 < (c.acked between).length := (List.getElem?_eq_some_iff.1 hop).1
    omega
  refine ⟨submitAcked_of_le hd fun hcurrent => ?_, fun hno => ?_, fun ⟨hstands, hphase⟩ => ⟨?_, ?_⟩⟩
  · have hstands : d.retryVersion = c.retryVersion := (isCurrent_iff.1 hcurrent).2.symm.trans hversion
    have hdated : c.Dated := perform_dated (run_dated before (new_dated document user session config)) x
    exact le_revision_of_mem_acked hdated (.of_retryVersion between hc (.inr hwaiting) hstands) hmem hhead
  · rw [submitFailed, if_neg]
    rw [Bool.and_eq_true, isCurrent_iff, beq_iff_eq]
    rintro ⟨⟨-, hstands⟩, hphase⟩
    exact hno ⟨hstands.symm, hphase⟩
  · rw [hversion]
    exact exists_requested hc hwaiting hall (hstands.trans hversion) hphase
  · exact submitFailed_eq hd (isCurrent_iff.2 ⟨by simp [hphase], hstands.symm⟩) hphase hmild

/-- The edit comes back and is followed by a second one. -/
def echoedAndSent : List Call := [.delta (told "me" 6 (typed 0 0 'a')), .submit (typed 1 1 'b'), .flush]

def waiting : Channel := (editing.perform .flush).2

theorem waiting_requested : (0, waiting.request) ∈ editing.requested [.flush] := by
  have hone : (editing.requested [.flush]).map (·.1) = [0] := by decide +kernel
  obtain ⟨⟨_, request⟩, hx, rfl⟩ := List.mem_map.1 (hone ▸ List.mem_singleton_self 0)
  obtain ⟨-, -, -, rfl⟩ := of_mem_requested (run_orderly edited (new_orderly ..)) hx
  exact hx

theorem waiting_acked : ∃ op, (waiting.acked echoedAndSent)[waiting.request.deltas.length - 1]? = some op ∧
    op.revision = some 6 := by
  have hrevision : (waiting.acked echoedAndSent)[waiting.request.deltas.length - 1]?.bind (·.revision) = some 6 := by
    decide +kernel
  exact Option.bind_eq_some_iff.1 hrevision

/-- The second edit is in flight when the channel hears that the first was taken, and that sending it timed out. -/
theorem run_lateReplies_echoed : (waiting.run echoedAndSent).submitAcked 0 6 = waiting.run echoedAndSent ∧
    (waiting.run echoedAndSent).submitFailed 0 (.transport "timeout" false) =
      (waiting.run echoedAndSent).resyncing (.transport "timeout" false) := by
  obtain ⟨op, hop, hhead⟩ := waiting_acked
  obtain ⟨hacked, -, hfailed⟩ := run_lateReplies ⟨"doc"⟩ ⟨"me"⟩ ⟨"me"⟩ {} edited .flush echoedAndSent 0 waiting.request op
    6 (.transport "timeout" false) waiting_requested hop hhead rfl
  exact ⟨hacked, (hfailed ⟨by decide +kernel, by decide +kernel⟩).2⟩

/-- A late failure of an acknowledged batch does not always leave the channel as it is. -/
theorem not_submitFailed_late : ¬ ∀ (before : List Call) (x : Call) (between : List Call) (version : Nat)
    (request : DeltaRequest) (op : Composite) (fault : Fault),
    (version, request) ∈ ((new ⟨"doc"⟩ ⟨"me"⟩ ⟨"me"⟩ {}).run before).requested [x] →
    ((((new ⟨"doc"⟩ ⟨"me"⟩ ⟨"me"⟩ {}).run before).perform x).2.acked between)[request.deltas.length - 1]? = some op →
    fault.isFatal = false →
    ((((new ⟨"doc"⟩ ⟨"me"⟩ ⟨"me"⟩ {}).run before).perform x).2.run between).submitFailed version fault =
      (((new ⟨"doc"⟩ ⟨"me"⟩ ⟨"me"⟩ {}).run before).perform x).2.run between := by
  intro h
  obtain ⟨op, hop, -⟩ := waiting_acked
  have hsame : (waiting.run echoedAndSent).submitFailed 0 (.transport "timeout" false) = waiting.run echoedAndSent :=
    h edited .flush echoedAndSent 0 waiting.request op _ waiting_requested hop rfl
  have hphase : ((waiting.run echoedAndSent).submitFailed 0 (.transport "timeout" false)).phase = .delayResync := by
    decide +kernel
  rw [hsame] at hphase
  exact absurd hphase (by decide +kernel)

end Channel
end Coedit
