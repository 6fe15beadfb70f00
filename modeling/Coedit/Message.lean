import Coedit.Composite

/-!
# Delta messages

Both directions carry lists of composites.  A message with `k` deltas at revision `r` carries what the
server applied at the revisions from `r - k + 1` to `r`, counted as `Revisions` says.
-/

namespace Coedit

/-- A client's submission of the batch in flight. -/
structure DeltaRequest where
  document : DocumentId
  session : SessionId
  /-- The revision that the deltas were made against. -/
  revision : Nat
  deltas : List Composite

/-- The server's broadcast of operations it applied to a document. -/
structure DeltaMessage where
  session : SessionId
  user : UserId
  revision : Nat
  deltas : List Composite

namespace DeltaMessage

/-- The revision of the first delta, if there is one and the message does not claim too many. -/
def firstRevision? [R : Revisions] (m : DeltaMessage) : Option Nat :=
  let next := R.arithmetic.wrap (m.revision + 1)
  if m.deltas.isEmpty then none
  else if m.deltas.length ≤ next then some (next - m.deltas.length)
  else none

/-- Stamps deltas with consecutive revisions and, where they have none, with an origin. -/
def stamp (origin : Origin) (first : Nat) : List Composite → List (Nat × Composite)
  | [] => []
  | c :: rest =>
    (first, { c with origin := c.origin.orElse origin, revision := some first })
      :: stamp origin (first + 1) rest

/-- The deltas with the revision at which each was applied. Deltas without an origin of their own have
that of the message. -/
def revisions [R : Revisions] (m : DeltaMessage) : List (Nat × Composite) :=
  match m.firstRevision? with
  | none => []
  | some first => stamp ⟨some m.user, some m.session⟩ first m.deltas

end DeltaMessage
end Coedit
