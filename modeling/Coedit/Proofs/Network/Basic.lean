import Coedit.Proofs.Document.Composite
import Coedit.Session.Run
import Mathlib.Logic.Function.Basic

/-!
# Sessions around a server

A server holds the history of one document.  It transforms each submitted operation past what the submitting
session had not seen, applies it, and tells all sessions.  Between the server and the sessions nothing is lost,
but everything may be late, out of order or repeated: what was broadcast or replied stays on record, and a move
brings any of it to a session.  A session in which an operation cannot be transformed, composed or applied ends.

* `Server.submit` — the server takes in a request;
* `Network.perform` — a move, which fails if an edit is refused, a session ends or the server cannot go on;
* `Network.Reachable` — the states that moves lead to from connected sessions over an empty document;
* `Network.run` — makes moves in turn.
-/

namespace Coedit

/-! ## The server -/

/-- Why a server cannot take in a request. -/
inductive ServerFault where
  /-- The request is made against a revision that the server has not reached. -/
  | ahead (revision head : Nat)
  | transform (cause : TransformFault)
  | apply (cause : ApplyFault)

/-- The history of one document, the oldest operation first, and the document after it. -/
structure Server where
  history : List Composite
  document : Document

namespace Server

variable [L : Lengths]

def empty : Server := ⟨[], .empty⟩

def head (s : Server) : Nat := s.history.length

/-- Takes in operations made in turn by a session that had not seen the `concurrent` ones. Gives the operations
as they were applied. -/
def accept (s : Server) (concurrent : List Composite) :
    List Composite → Except ServerFault (Server × List Composite)
  | [] => .ok (s, [])
  | op :: ops =>
    match passServers op concurrent with
    | (_, .error e) => .error (.transform e)
    | (concurrent, .ok op) =>
      match op.apply s.document with
      | .error e => .error (.apply e)
      | .ok document => (accept ⟨s.history ++ [op], document⟩ concurrent ops).map fun p => (p.1, op :: p.2)

/-- The user that a broadcast is attributed to. -/
def author (applied : List Composite) : UserId := (applied.head?.bind (·.origin.user)).getD ⟨"unknown"⟩

/-- Takes in a request, and gives the broadcast that announces it. -/
def submit (s : Server) (request : DeltaRequest) : Except ServerFault (Server × DeltaMessage) :=
  if s.head < request.revision then .error (.ahead request.revision s.head)
  else
    (s.accept (s.history.drop request.revision) request.deltas).map fun p =>
      (p.1, ⟨request.session, author p.2, p.1.head, p.2⟩)

theorem accept_head {s : Server} {concurrent ops : List Composite} {p : Server × List Composite}
    (h : s.accept concurrent ops = .ok p) : s.head ≤ p.1.head := by
  induction ops generalizing s concurrent p with
  | nil => exact Except.ok.inj h ▸ Nat.le_refl _
  | cons op ops ih =>
    rw [accept] at h
    split at h
    next => cases h
    next =>
      split at h
      next => cases h
      next =>
        obtain ⟨p', hrest, rfl⟩ := map_eq_ok.1 h
        refine Nat.le_trans ?_ (ih (p := p') hrest)
        rw [head, head, List.length_append]
        exact Nat.le_add_right ..

theorem submit_head {s s' : Server} {request : DeltaRequest} {m : DeltaMessage}
    (h : s.submit request = .ok (s', m)) : s.head ≤ s'.head := by
  unfold submit at h
  split at h
  next => cases h
  next =>
    obtain ⟨_, haccept, hp⟩ := map_eq_ok.1 h
    obtain ⟨rfl, -⟩ := Prod.mk.inj hp
    exact accept_head haccept

end Server

/-! ## The network -/

structure Member where
  user : UserId
  session : SessionId
  config : Config

/-- A server, the sessions of one document, and all that the server ever told. -/
structure Network (ι : Type) where
  server : Server
  sessions : ι → Session Document
  /-- The announcements to all sessions, the oldest first. -/
  broadcasts : List DeltaMessage
  /-- What each session's submissions were answered, as retry version and head, the oldest first. -/
  replies : ι → List (Nat × Nat)
  /-- The broadcasts that reached each session. -/
  heard : ι → List Nat

namespace Network

inductive Failure where
  /-- A session refused an edit. -/
  | refused (fault : Fault)
  /-- A session ended. -/
  | ended
  | server (fault : ServerFault)

/-- Something that happens in a network. -/
inductive Move (ι : Type) where
  | edit (i : ι) (op : Composite)
  | beginCompound (i : ι)
  | endCompound (i : ι)
  /-- Time passes at a session, whose timer may go off. -/
  | wait (i : ι) (delay : Nat)
  /-- The server receives the oldest request of a session that it has not received. -/
  | serve (i : ι)
  /-- A broadcast reaches a session, for the first time or again. -/
  | broadcast (i : ι) (k : Nat)
  /-- A reply reaches the session that it is for, for the first time or again. -/
  | reply (i : ι) (k : Nat)

/-- Elements that the edit of a move inserts. -/
def Move.insertLength {ι : Type} : Move ι → Nat
  | .edit _ op => op.insertLength
  | _ => 0

variable [L : Lengths] [R : Revisions] {ι : Type} [DecidableEq ι]

/-- Puts a session in the place of the present one. It fails if the session has ended. -/
def put (n : Network ι) (i : ι) (s : Session Document) : Except Failure (Network ι) :=
  if s.hasEnded then .error .ended else .ok { n with sessions := Function.update n.sessions i s }

def perform (n : Network ι) : Move ι → Except Failure (Network ι)
  | .edit i op =>
    match (n.sessions i).handle (.edit op) with
    | (.ok (), s) => n.put i s
    | (.error e, _) => .error (.refused e)
  | .beginCompound i => n.put i ((n.sessions i).deliver .beginCompound)
  | .endCompound i => n.put i ((n.sessions i).deliver .endCompound)
  | .wait i delay => n.put i ((n.sessions i).wait delay)
  | .serve i =>
    match (n.sessions i).outbound with
    | [] => .ok n
    | .submit version request :: rest =>
      match n.server.submit request with
      | .error e => .error (.server e)
      | .ok (server, message) =>
        { n with
          server
          broadcasts := n.broadcasts ++ [message]
          replies := Function.update n.replies i (n.replies i ++ [(version, message.revision)])
        }.put i { n.sessions i with outbound := rest }
    | _ :: rest => n.put i { n.sessions i with outbound := rest }
  | .broadcast i k =>
    match n.broadcasts[k]? with
    | none => .ok n
    | some m =>
      { n with heard := Function.update n.heard i (k :: n.heard i) }.put i ((n.sessions i).deliver (.delta m))
  | .reply i k =>
    match (n.replies i)[k]? with
    | none => .ok n
    | some (version, head) => n.put i ((n.sessions i).deliver (.submitAcked version head))

/-- Whether a move may be made. Edits are of texts, lists and maps, with lengths that fit; they apply to the document of
their session and use each object as what it is. Everything else may happen at any time. -/
def Due (kinds : ObjectId → Kind) (n : Network ι) : Move ι → Prop
  | .edit i op =>
    op.Fits ∧ (∃ d, op.apply (n.sessions i).target = .ok d) ∧
      ∀ c ∈ op.components, c.op.kind = kinds c.target ∧ kinds c.target ≠ .reference
  | _ => True

instance (kinds : ObjectId → Kind) (n : Network ι) (m : Move ι) : Decidable (n.Due kinds m) :=
  match m with
  | .edit i op =>
    have : Decidable (∃ d, op.apply (n.sessions i).target = .ok d) :=
      match op.apply (n.sessions i).target with
      | .ok d => isTrue ⟨d, rfl⟩
      | .error _ => isFalse fun ⟨_, h⟩ => nomatch h
    have : Decidable (∀ c ∈ op.components, c.op.kind = kinds c.target ∧ kinds c.target ≠ .reference) :=
      List.decidableBAll _ _
    have : Decidable ((∃ d, op.apply (n.sessions i).target = .ok d) ∧
      ∀ c ∈ op.components, c.op.kind = kinds c.target ∧ kinds c.target ≠ .reference) := instDecidableAnd
    instDecidableAnd
  | .beginCompound _ | .endCompound _ | .wait .. | .serve _ | .broadcast .. | .reply .. => isTrue trivial

/-- A session of each member, connected to an empty document. -/
def start (document : DocumentId) (members : ι → Member) : Network ι where
  server := .empty
  sessions i :=
    let m := members i
    ((Session.new (.new document m.user m.session m.config) Document.empty).connect 0).2
  broadcasts := []
  replies _ := []
  heard _ := []

/-- The states that moves lead to, with the number of elements that edits inserted. -/
inductive Reachable (kinds : ObjectId → Kind) (document : DocumentId) (members : ι → Member) :
    Nat → Network ι → Prop where
  | start : Reachable kinds document members 0 (start document members)
  | move {inserted : Nat} {n n' : Network ι} {m : Move ι} : Reachable kinds document members inserted n →
      n.Due kinds m → n.perform m = .ok n' → Reachable kinds document members (inserted + m.insertLength) n'

def HasHeardAll (n : Network ι) (i : ι) : Prop := ∀ k, k < n.broadcasts.length → k ∈ n.heard i

instance (n : Network ι) (i : ι) : Decidable (n.HasHeardAll i) :=
  inferInstanceAs (Decidable (∀ k, k < n.broadcasts.length → k ∈ n.heard i))

/-- Makes moves in turn, if each is due and can be made. -/
def run (kinds : ObjectId → Kind) (n : Network ι) : List (Move ι) → Option (Network ι)
  | [] => some n
  | m :: ms =>
    if n.Due kinds m then
      match n.perform m with
      | .ok n' => run kinds n' ms
      | .error _ => none
    else none

variable {kinds : ObjectId → Kind} {document : DocumentId} {members : ι → Member}

omit L R in
theorem put_server {n n' : Network ι} {i : ι} {s : Session Document} (h : n.put i s = .ok n') :
    n'.server = n.server := by
  unfold put at h
  split at h
  next => cases h
  next =>
    obtain rfl := Except.ok.inj h
    rfl

/-- The server never goes back. -/
theorem perform_head {n n' : Network ι} {m : Move ι} (h : n.perform m = .ok n') : n.server.head ≤ n'.server.head := by
  have same : n'.server = n.server → n.server.head ≤ n'.server.head := fun h => h ▸ Nat.le_refl _
  cases m with
  | edit i op =>
    rw [perform] at h
    split at h
    next => exact same (put_server h)
    next => cases h
  | beginCompound i => exact same (put_server h)
  | endCompound i => exact same (put_server h)
  | wait i delay => exact same (put_server h)
  | serve i =>
    rw [perform] at h
    split at h
    next => exact Except.ok.inj h ▸ Nat.le_refl _
    next =>
      split at h
      next => cases h
      next hsubmit =>
        rw [put_server h]
        exact Server.submit_head hsubmit
    next => exact same (put_server h)
  | broadcast i k =>
    rw [perform] at h
    split at h
    next => exact Except.ok.inj h ▸ Nat.le_refl _
    next => exact same ((put_server h).trans rfl)
  | reply i k =>
    rw [perform] at h
    split at h
    next => exact Except.ok.inj h ▸ Nat.le_refl _
    next => exact same (put_server h)

theorem reachable_of_run : ∀ {ms : List (Move ι)} {inserted : Nat} {n n' : Network ι},
    Reachable kinds document members inserted n → n.run kinds ms = some n' →
      Reachable kinds document members (inserted + Segment.total (ms.map Move.insertLength)) n'
  | [], _, _, _, h, hr => Option.some.inj hr ▸ h
  | m :: ms, _, n, n', h, hr => by
    unfold run at hr
    split at hr
    next hdue =>
      cases hm : n.perform m with
      | ok n₁ =>
        rw [hm] at hr
        rw [List.map_cons, Segment.total_cons, ← Nat.add_assoc]
        exact reachable_of_run (h.move hdue hm) hr
      | error e =>
        rw [hm] at hr
        cases hr
    next => cases hr

end Network
end Coedit
