import Coedit.Proofs.Document.Targeted
import Coedit.Proofs.Session.Fatal

/-!
# Rejected events

A session over a document rejects three kinds of events: edits while it is not connected, edits of which some operation
does not apply, and the end of a compound edit that nobody began.  Neither the session nor the document shows afterwards
that they came in, however many operations of an edit have applied before the one that does not.  An edit that the
document takes is not rejected any more, since a connected channel takes it as well.

* `Document.Misfit` — the operation at which a list of operations stops to apply;
* `Session.Rejects`, `Session.handle_eq_error_iff` — which events a session over any target rejects, and that no more than
  the target changes;
* `Session.TurnsAway`, `Session.handle_rejected` — which events a session over a document rejects, without a trace;
* `Session.run_rejected` — a run goes on as if a rejected event had not come in.
-/

namespace Coedit

/-! ## Operations that do not apply -/

namespace Document

variable {d d' : Document} {c : TargetedOp} {cs : List TargetedOp} {op : Composite} {cause : ApplyFault} {fault : Fault}

/-- After some operations comes one that does not apply to what they made. -/
inductive Misfit (d : Document) : List TargetedOp → ApplyFault → Prop where
  | mk {before after : List TargetedOp} {c : TargetedOp} {x : Document} {cause : ApplyFault}
      (done : d.applyComponents before = .ok x) (misfit : c.op.apply (x.found c) = .error cause) :
      d.Misfit (before ++ c :: after) (.inObject c.target cause)

theorem applyOne_eq_error_iff : d.applyOne c = .error cause ↔
    ∃ inner, c.op.apply (d.found c) = .error inner ∧ cause = .inObject c.target inner := by
  unfold applyOne
  cases h : c.op.apply (d.found c) with
  | ok v => simp
  | error e => simp [eq_comm]

theorem Misfit.cons (hd : d.applyOne c = .ok d') (h : d'.Misfit cs cause) : d.Misfit (c :: cs) cause := by
  obtain ⟨done, misfit⟩ := h
  rw [← List.cons_append]
  exact .mk (applyComponents_cons_eq_ok.2 ⟨d', hd, done⟩) misfit

/-- **Operations fail to apply exactly if one of them does not apply to what those before it made.** -/
theorem applyComponents_eq_error_iff : d.applyComponents cs = .error cause ↔ d.Misfit cs cause := by
  constructor
  · intro h
    induction cs generalizing d with
    | nil => cases h
    | cons c cs ih =>
      rw [applyComponents, List.foldlM_cons, bind_eq_error] at h
      rcases h with h | ⟨d', hd, h⟩
      · obtain ⟨inner, hinner, rfl⟩ := applyOne_eq_error_iff.1 h
        rw [← List.nil_append (c :: cs)]
        exact .mk rfl hinner
      · exact (ih h).cons hd
  · rintro @⟨before, after, c, x, inner, done, misfit⟩
    unfold applyComponents at done ⊢
    rw [List.foldlM_append, done]
    show (x.applyOne c >>= fun y => after.foldlM applyOne y) = _
    rw [applyOne_eq_error_iff.2 ⟨inner, misfit, rfl⟩]
    rfl

/-- A document is as it was after an operation that it refuses. -/
theorem consume_eq_error_iff : Target.consume d op = (.error fault, d') ↔
    (∃ cause, d.Misfit op.components cause ∧ fault = .apply cause) ∧ d' = d := by
  have happly : ∀ e, op.apply d = .error e ↔ d.Misfit op.components e := fun e => applyComponents_eq_error_iff
  unfold Target.consume instTargetDocumentOfLengths
  dsimp only
  cases h : op.apply d with
  | ok x =>
    rw [Prod.mk.injEq]
    constructor
    · rintro ⟨hno, -⟩
      cases hno
    · rintro ⟨⟨cause, hmisfit, -⟩, -⟩
      rw [← happly, h] at hmisfit
      cases hmisfit
  | error e =>
    have he : ∀ cause, d.Misfit op.components cause ↔ e = cause := fun cause => by rw [← happly, h, Except.error.injEq]
    simp [he, eq_comm]

end Document

namespace Session

/-! ## What a session rejects -/

section rejects

variable {τ : Type} [Target τ] {s s' : Session τ} {x : Inbound} {op : Composite} {fault : Fault} {target : τ}

/-- The session rejects what comes in, and leaves its target as given. -/
inductive Rejects (s : Session τ) : Inbound → Fault → τ → Prop where
  /-- Only a connected session takes edits. -/
  | closed {op : Composite} (h : s.channel.isConnected = false) :
      s.Rejects (.edit op) (.channel .editDisconnected) s.target
  /-- The target refuses the edit. -/
  | declined {op : Composite} {fault : Fault} {target : τ} (hopen : s.channel.isConnected = true)
      (h : Target.consume s.target op = (.error fault, target)) : s.Rejects (.edit op) fault target
  /-- No compound edit was begun. -/
  | noCompound (h : s.channel.compoundDepth = 0) : s.Rejects .endCompound (.channel .noCompound) s.target

/-- A connected channel takes every edit: one that does not fit what is undelivered ends the connection instead. -/
theorem exists_submit_eq_ok {c : Channel} (h : c.isConnected = true) (op : Composite) : ∃ c', c.submit op = .ok c' := by
  unfold Channel.submit
  rw [if_neg (by simp [h])]
  split <;> exact ⟨_, rfl⟩

theorem rejects_edit_of_closed (hclosed : s.channel.isConnected = false) :
    s.Rejects (.edit op) fault target ↔ fault = .channel .editDisconnected ∧ target = s.target := by
  constructor
  · intro h
    cases h with
    | closed => exact ⟨rfl, rfl⟩
    | declined hopen => exact absurd (hopen.symm.trans hclosed) (by decide)
  · rintro ⟨rfl, rfl⟩
    exact .closed hclosed

theorem rejects_edit_of_open (hopen : s.channel.isConnected = true) :
    s.Rejects (.edit op) fault target ↔ Target.consume s.target op = (.error fault, target) := by
  refine ⟨fun h => ?_, .declined hopen⟩
  cases h with
  | closed hclosed => exact absurd (hopen.symm.trans hclosed) (by decide)
  | declined _ h => exact h

theorem rejects_endCompound_iff : s.Rejects .endCompound fault target ↔
    s.channel.compoundDepth = 0 ∧ fault = .channel .noCompound ∧ target = s.target := by
  constructor
  · intro h
    cases h with
    | noCompound h => exact ⟨h, rfl, rfl⟩
  · rintro ⟨h, rfl, rfl⟩
    exact .noCompound h

theorem edit_eq_error_iff : s.edit op = (.error fault, s') ↔
    ∃ target, s.Rejects (.edit op) fault target ∧ s' = { s with target } := by
  unfold edit
  cases hopen : s.channel.isConnected with
  | false =>
    simp only [rejects_edit_of_closed hopen, Bool.not_false, if_true]
    constructor
    · rintro ⟨⟩
      exact ⟨_, ⟨rfl, rfl⟩, rfl⟩
    · rintro ⟨_, ⟨rfl, rfl⟩, rfl⟩
      rfl
  | true =>
    simp only [rejects_edit_of_open hopen]
    cases hconsume : Target.consume s.target op with
    | mk result target =>
      cases result with
      | error e =>
        simp [eq_comm]
      | ok u =>
        -- the channel does not refuse what the target took
        obtain ⟨c, hc⟩ := exists_submit_eq_ok hopen op
        simp [hc, called]

theorem endCompound_eq_error_iff : s.called s.channel.endCompound = (.error fault, s') ↔
    ∃ target, s.Rejects .endCompound fault target ∧ s' = { s with target } := by
  simp only [rejects_endCompound_iff, Channel.endCompound]
  by_cases h : s.channel.compoundDepth = 0
  · rw [if_pos h, called]
    constructor
    · rintro ⟨⟩
      exact ⟨_, ⟨h, rfl, rfl⟩, rfl⟩
    · rintro ⟨_, ⟨-, rfl, rfl⟩, rfl⟩
      rfl
  · simp [h, called]

/-- **A rejected event changes nothing but the target**, and the target only in refusing an edit. -/
theorem handle_eq_error_iff : s.handle x = (.error fault, s') ↔
    ∃ target, s.Rejects x fault target ∧ s' = { s with target } := by
  cases x with
  | edit op => exact edit_eq_error_iff
  | endCompound => exact endCompound_eq_error_iff
  | _ =>
    -- a session takes in all else
    constructor
    · intro hno
      cases (Prod.mk.inj hno).1
    · rintro ⟨target, hr, -⟩
      cases hr

end rejects

/-! ## What a session over a document rejects -/

/-- What a session with this channel and this document rejects. -/
inductive TurnsAway (c : Channel) (d : Document) : Inbound → Fault → Prop where
  | closed {op : Composite} (h : c.isConnected = false) : TurnsAway c d (.edit op) (.channel .editDisconnected)
  /-- Some operation of the edit does not apply to what the ones before it made. -/
  | misfit {op : Composite} {cause : ApplyFault} (hopen : c.isConnected = true) (h : d.Misfit op.components cause) :
      TurnsAway c d (.edit op) (.apply cause)
  | noCompound (h : c.compoundDepth = 0) : TurnsAway c d .endCompound (.channel .noCompound)

/-- All that a rejected event lets the target know: it is asked to take an edit, and refuses. -/
def asked (c : Channel) : Inbound → List Notice
  | .edit op => if c.isConnected then [.consumed op false] else []
  | _ => []

variable {x : Inbound} {fault : Fault}

theorem rejects_document_iff {s : Session Document} {d : Document} :
    s.Rejects x fault d ↔ TurnsAway s.channel s.target x fault ∧ d = s.target := by
  constructor
  · intro h
    cases h with
    | closed hclosed => exact ⟨.closed hclosed, rfl⟩
    | declined hopen h =>
      obtain ⟨⟨cause, hmisfit, rfl⟩, rfl⟩ := Document.consume_eq_error_iff.1 h
      exact ⟨.misfit hopen hmisfit, rfl⟩
    | noCompound h => exact ⟨.noCompound h, rfl⟩
  · rintro ⟨h, rfl⟩
    cases h with
    | closed hclosed => exact .closed hclosed
    | misfit hopen h => exact .declined hopen (Document.consume_eq_error_iff.2 ⟨⟨_, h, rfl⟩, rfl⟩)
    | noCompound h => exact .noCompound h

theorem handle_document_iff {s s' : Session Document} :
    s.handle x = (.error fault, s') ↔ TurnsAway s.channel s.target x fault ∧ s' = s := by
  simp only [handle_eq_error_iff, rejects_document_iff]
  constructor
  · rintro ⟨_, ⟨h, rfl⟩, rfl⟩
    exact ⟨h, rfl⟩
  · rintro ⟨h, rfl⟩
    exact ⟨_, ⟨h, rfl⟩, rfl⟩

/-- Being watched changes nothing about what is rejected. -/
theorem rejects_witnessed_iff {τ : Type} [Target τ] {s : Session (Witnessed τ)} {w : Witnessed τ} :
    s.Rejects x fault w ↔ ∃ target, Rejects { s with target := s.target.target } x fault target ∧
      w = ⟨target, s.target.notices ++ asked s.channel x⟩ := by
  constructor
  · intro h
    cases h with
    | closed hclosed => exact ⟨_, .closed hclosed, by simp [asked, hclosed]⟩
    | @declined op _ _ hopen h =>
      cases hconsume : Target.consume s.target.target op with
      | mk result target =>
        simp only [Target.consume, hconsume, Prod.mk.injEq] at h
        obtain ⟨rfl, rfl⟩ := h
        refine ⟨target, .declined hopen hconsume, ?_⟩
        simp [asked, hopen, Except.isOk, Except.toBool]
    | noCompound h => exact ⟨_, .noCompound h, by simp [asked]⟩
  · rintro ⟨target, h, rfl⟩
    cases h with
    | closed hclosed =>
      have hclosed : s.channel.isConnected = false := hclosed
      simpa [asked, hclosed] using Rejects.closed (s := s) hclosed
    | @declined op _ _ hopen h =>
      have hopen : s.channel.isConnected = true := hopen
      refine .declined hopen ?_
      have h : Target.consume s.target.target op = (.error fault, target) := h
      simp [Target.consume, h, asked, hopen, Except.isOk, Except.toBool]
    | noCompound h => simpa [asked] using Rejects.noCompound (s := s) h

theorem handle_witnessed_iff {s s' : Session (Witnessed Document)} :
    s.handle x = (.error fault, s') ↔ TurnsAway s.channel s.target.target x fault ∧
      s' = { s with target := { s.target with notices := s.target.notices ++ asked s.channel x } } := by
  simp only [handle_eq_error_iff, rejects_witnessed_iff, rejects_document_iff]
  constructor
  · rintro ⟨_, ⟨_, ⟨h, rfl⟩, rfl⟩, rfl⟩
    exact ⟨h, rfl⟩
  · rintro ⟨h, rfl⟩
    exact ⟨_, ⟨_, ⟨h, rfl⟩, rfl⟩, rfl⟩

/-- A run goes on as if a rejected event had not come in. -/
theorem run_rejected {s : Session Document} {before : List Move} (after : List Move)
    (h : TurnsAway (s.run before).channel (s.run before).target x fault) :
    s.run (before ++ .take x :: after) = s.run (before ++ after) := by
  have hsame : (s.run before).move (.take x) = s.run before := congrArg Prod.snd (handle_document_iff.2 ⟨h, rfl⟩)
  unfold run at hsame ⊢
  rw [List.foldl_append, List.foldl_cons, hsame, List.foldl_append]

/-- **A rejected event leaves no trace.** A session over a document rejects an event exactly if it turns it away, and is
then as it was: its document, its channel, both deadlines and the requests that it sent. Nothing is told to the document
but the edit itself. -/
theorem handle_rejected (x : Inbound) (fault : Fault) :
    (∀ s s' : Session Document, s.handle x = (.error fault, s') ↔ TurnsAway s.channel s.target x fault ∧ s' = s) ∧
      ∀ s s' : Session (Witnessed Document), s.handle x = (.error fault, s') ↔
        TurnsAway s.channel s.target.target x fault ∧
          s' = { s with target := { s.target with notices := s.target.notices ++ asked s.channel x } } :=
  ⟨fun _ _ => handle_document_iff, fun _ _ => handle_witnessed_iff⟩

/-- The first operation creates an object and the second changes it, before the third does not apply. -/
example :
    let s := (new (.new ⟨"doc"⟩ ⟨"me"⟩ ⟨"local"⟩ {}) Document.empty).run [.connect 0]
    let halfway := Composite.ofComponents [⟨⟨"body"⟩, .text (.insertAt 0 0 ['h', 'i'])⟩,
      ⟨⟨"body"⟩, .text (.deleteAt 2 1 ['i'])⟩, ⟨⟨"title"⟩, .text (.insertAt 3 0 ['x'])⟩]
    s.handle (.edit halfway) = (.error (.apply (.inObject ⟨"title"⟩ (.coverage 3 0))), s) := by rfl

end Session
end Coedit
