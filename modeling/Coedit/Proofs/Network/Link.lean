import Coedit.Proofs.Channel.Ledger
import Coedit.Proofs.Network.Serve

/-!
# One channel and the server, over several connections

A channel may be disconnected and connected again while submissions of the connection before are still on their way.
The server receives a submission at most once, but it may receive it late: when the channel is connected again and has
gone on without it.  Nothing tells an operation that was submitted late from one of the present connection, as both come
from one session.

* `Link.perform`, `Link.Reachable` — what may happen, and the states that it leads to;
* `Link.late` — the revisions at which the server applied what was submitted late;
* `Link.disown` — the history with what was submitted late ascribed to nobody;
* `Server.submit_eq_ok`, `Server.submit_single` — what a request adds to the history.
-/

namespace Coedit

/-! ## What may happen -/

/-- A channel, the server, and what is on its way between them. -/
structure Link where
  channel : Channel
  server : Server
  /-- The submissions that the server has not received, each with the retry version that it was made under. -/
  requests : List (Nat × DeltaRequest)
  /-- What the server answered to submissions, as retry version and head. -/
  replies : List (Nat × Nat)
  /-- The revisions at which the server applied, since the channel was connected, what had been submitted before. -/
  late : List Nat

namespace Link

/-- Something that happens to a channel and its server. -/
inductive Move where
  | call (x : Call)
  /-- The server receives a submission, not necessarily the oldest. -/
  | serve (k : Nat)
  /-- The server applies an operation of another session. -/
  | apply (op : Composite)

/-- Makes a move. A submission that the server cannot apply stays where it is. -/
def perform (l : Link) : Move → Link
  | .call x =>
    { l with
      channel := (l.channel.perform x).2
      requests := l.requests ++ l.channel.requested [x]
      late := if l.channel.isConnected then l.late else [] }
  | .serve k =>
    match l.requests[k]? with
    | none => l
    | some (version, request) =>
      match l.server.submit request with
      | .error _ => l
      | .ok (server, message) =>
        { l with
          server
          requests := l.requests.eraseIdx k
          replies := l.replies ++ [(version, message.revision)]
          late := if version = l.channel.retryVersion then l.late
            else l.late ++ List.range' (l.server.head + 1) message.deltas.length }
  | .apply op =>
    match op.apply l.server.document with
    | .error _ => l
    | .ok document => { l with server := ⟨l.server.history ++ [op], document⟩ }

/-- Whether a move may be made. The channel is connected at the head that the server has reached, deltas tell of its
history, and replies were given. No submission fails. -/
def Due (l : Link) : Move → Prop
  | .call (.connect revision) => revision = l.server.head
  | .call (.delta m) => ∀ e ∈ m.revisions, Records l.server.history e.1 e.2
  | .call (.submitAcked version head) => (version, head) ∈ l.replies
  | .call (.submitFailed ..) => False
  | .apply op => ¬ op.IsFrom l.channel.session
  | _ => True

def start (document : DocumentId) (user : UserId) (session : SessionId) (config : Config) (server : Server) : Link :=
  ⟨.new document user session config, server, [], [], []⟩

inductive Reachable (first : Link) : Link → Prop where
  | start : Reachable first first
  | move {l : Link} {x : Move} : Reachable first l → l.Due x → Reachable first (l.perform x)

end Link

/-! ## Who made an operation does not matter to others -/

namespace Composite

/-- The operation, ascribed to nobody. -/
def disown (op : Composite) : Composite := { op with origin := .unknown }

theorem disown_isFrom (session : SessionId) (op : Composite) : ¬ op.disown.IsFrom session := nofun

/-- Only the components of an operation are looked at when another passes it. -/
theorem transform_congr {s t : Composite} (h : s.components = t.components) (c : Composite) :
    s.transform c = (t.transform c).map fun p => ({ s with components := p.1.components }, p.2) := by
  unfold transform
  rw [h]
  cases transformComponents t.components c.components <;> rfl

theorem passServers_congr : ∀ {ss ts : List Composite} (c : Composite),
    ss.map (·.components) = ts.map (·.components) → (passServers c ss).2 = (passServers c ts).2
  | [], [], _, _ => rfl
  | [], _ :: _, _, h => absurd h.symm (List.cons_ne_nil _ _)
  | _ :: _, [], _, h => absurd h (List.cons_ne_nil _ _)
  | s :: ss, t :: ts, c, h => by
    obtain ⟨hfirst, hrest⟩ := List.cons.inj h
    have hs : Operation.transform s c =
        (Operation.transform t c).map fun p => ({ s with components := p.1.components }, p.2) :=
      transform_congr hfirst c
    simp only [passServers, hs]
    cases Operation.transform t c with
    | error e => rfl
    | ok p => exact passServers_congr p.2 hrest

end Composite

namespace Link

variable {late : List Nat} {history ops : List Composite} {k : Nat}

/-- The history, in which the operations of the listed revisions are ascribed to nobody. -/
def disown (late : List Nat) (history : List Composite) : List Composite :=
  history.mapIdx fun k op => if k + 1 ∈ late then op.disown else op

theorem disown_length (late : List Nat) (history : List Composite) : (disown late history).length = history.length :=
  List.length_mapIdx

theorem disown_getElem? (h : k + 1 ∉ late) : (disown late history)[k]? = history[k]? := by
  simp [disown, h]

/-- The history grows by operations that are not listed. -/
theorem disown_append (h : ∀ n ∈ late, n ≤ history.length) (ops : List Composite) :
    disown late (history ++ ops) = disown late history ++ ops := by
  rw [disown, List.mapIdx_append, disown]
  congr 1
  refine List.ext_getElem? fun k => ?_
  have hnew : k + history.length + 1 ∉ late := fun hat => by
    have := h _ hat
    omega
  simp [hnew]

/-- The history grows by operations that are listed. -/
theorem disown_append_late (late : List Nat) (history ops : List Composite) :
    disown (late ++ List.range' (history.length + 1) ops.length) (history ++ ops) =
      disown late history ++ ops.map Composite.disown := by
  rw [disown, List.mapIdx_append, disown]
  congr 1
  · refine List.ext_getElem? fun k => ?_
    rw [List.getElem?_mapIdx, List.getElem?_mapIdx]
    cases hk : history[k]? with
    | none => rfl
    | some op =>
      have hlt := (List.getElem?_eq_some_iff.1 hk).1
      have hold : k + 1 ∉ List.range' (history.length + 1) ops.length := fun hat => by
        have := (List.mem_range'_1.1 hat).1
        omega
      simp [List.mem_append, hold]
  · refine List.ext_getElem? fun k => ?_
    rw [List.getElem?_mapIdx, List.getElem?_map]
    cases hk : ops[k]? with
    | none => rfl
    | some op =>
      have hlt := (List.getElem?_eq_some_iff.1 hk).1
      have hnew : k + history.length + 1 ∈ List.range' (history.length + 1) ops.length :=
        List.mem_range'_1.2 ⟨by omega, by omega⟩
      simp [hnew]

theorem passServers_disown (late : List Nat) (history : List Composite) (r : Nat) (op : Composite) :
    (passServers op ((disown late history).drop r)).2 = (passServers op (history.drop r)).2 := by
  refine Composite.passServers_congr op ?_
  rw [List.map_drop, List.map_drop]
  congr 1
  refine List.ext_getElem? fun k => ?_
  simp only [disown, List.getElem?_map, List.getElem?_mapIdx, Option.map_map]
  congr 1
  funext op
  dsimp only [Function.comp_apply]
  split <;> rfl

end Link

/-! ## What the server makes of a request -/

namespace Server

variable {s s' : Server} {request : DeltaRequest} {message : DeltaMessage} {made : Composite}

theorem accept_eq_ok : ∀ {ops concurrent : List Composite} {s s' : Server} {applied : List Composite},
    s.accept concurrent ops = .ok (s', applied) → s'.history = s.history ++ applied
  | [], _, _, _, _, h => by
    obtain ⟨rfl, rfl⟩ := Prod.mk.inj (Except.ok.inj h)
    exact (List.append_nil _).symm
  | op :: ops, concurrent, s, s', applied, h => by
    unfold accept at h
    split at h
    next => cases h
    next op' _ =>
      split at h
      next => cases h
      next document _ =>
        obtain ⟨⟨s₁, rest⟩, hrest, hp⟩ := map_eq_ok.1 h
        obtain ⟨rfl, rfl⟩ := Prod.mk.inj hp
        rw [accept_eq_ok hrest, List.append_assoc]
        rfl

/-- A request adds to the history what the server announces. -/
theorem submit_eq_ok (h : s.submit request = .ok (s', message)) :
    s'.history = s.history ++ message.deltas ∧ message.revision = s'.head := by
  unfold submit at h
  split at h
  next => cases h
  next =>
    obtain ⟨⟨s₁, applied⟩, haccept, hp⟩ := map_eq_ok.1 h
    obtain ⟨rfl, rfl⟩ := Prod.mk.inj hp
    exact ⟨accept_eq_ok haccept, rfl⟩

/-- A single operation is applied as it passes what its session had not seen. -/
theorem submit_single (h : s.submit request = .ok (s', message)) (hd : request.deltas = [made]) :
    ∃ echo, message.deltas = [echo] ∧ (passServers made (s.history.drop request.revision)).2 = .ok echo := by
  unfold submit at h
  split at h
  next => cases h
  next =>
    obtain ⟨⟨s₁, applied⟩, haccept, hp⟩ := map_eq_ok.1 h
    obtain ⟨-, rfl⟩ := Prod.mk.inj hp
    rw [hd] at haccept
    unfold accept at haccept
    split at haccept
    next => cases haccept
    next concurrent op hpass =>
      split at haccept
      next => cases haccept
      next document _ =>
        obtain ⟨⟨s₂, rest⟩, hrest, hp⟩ := map_eq_ok.1 haccept
        obtain ⟨-, rfl⟩ := Prod.mk.inj (Except.ok.inj hrest)
        obtain ⟨-, rfl⟩ := Prod.mk.inj hp
        exact ⟨op, rfl, congrArg Prod.snd hpass⟩

end Server
end Coedit
