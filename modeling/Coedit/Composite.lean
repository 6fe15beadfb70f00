import Coedit.Document

/-!
# Composite operations

A composite groups the operations of one edit under a common origin and revision.  It is the unit that is
submitted, acknowledged and broadcast.  Composition and transformation pair components by their target.
-/

namespace Coedit

/-- The operations of one edit. -/
structure Composite where
  origin : Origin
  /-- The revision that the server gave to the edit, once it did. -/
  revision : Option Nat
  components : List TargetedOp

namespace Composite

/-- An edit without a stamp. -/
def ofComponents (components : List TargetedOp) : Composite := ⟨.unknown, none, components⟩

/-- The edit as it comes from a user's session. -/
def withOrigin (c : Composite) (user : UserId) (session : SessionId) : Composite :=
  { c with origin := ⟨some user, some session⟩ }

/-- The edit as the server applied it at `revision`. -/
def withRevision (c : Composite) (revision : Nat) : Composite := { c with revision := some revision }

def isAcknowledged (c : Composite) : Bool := c.revision.isSome

variable [L : Lengths]

def apply (c : Composite) (d : Document) : Except ApplyFault Document := d.applyComponents c.components

/-- The operations that change something. -/
def dropNoops (components : List TargetedOp) : List TargetedOp :=
  components.filter fun c => !c.op.isNoop

/-- Whether two components neither share a target nor depend on one another's order. -/
def passes (a b : TargetedOp) : Bool := a.target != b.target || a.op.isIndependent b.op

/-- Merges a component into the first of `components` that it does not pass, or adds it at the end.
The list is given from its end. -/
def mergeReversed (incoming : TargetedOp) : List TargetedOp → Except ComposeFault (Option (List TargetedOp))
  | [] => .ok none
  | c :: earlier =>
    if passes c incoming then (mergeReversed incoming earlier).map (·.map (c :: ·))
    else (c.op.compose incoming.op).map fun op => some ({ c with op } :: earlier)

/-- Merges a component into the latest one that it does not pass, or appends it. -/
def merge (components : List TargetedOp) (incoming : TargetedOp) : Except ComposeFault (List TargetedOp) :=
  (mergeReversed incoming components.reverse).map fun
    | some merged => merged.reverse
    | none => components ++ [incoming]

/-- One edit with the effect of `first` and then `second`, under the stamp of the second. -/
def compose (first second : Composite) : Except ComposeFault Composite :=
  if first.origin != second.origin then .error (.origins first.origin second.origin)
  else
    (second.components.foldlM merge first.components).map fun components =>
      { second with components := dropNoops components }

/-- Transforms one component of the client past the server's components, giving these as they apply after
it and the component as it applies after them. -/
def transformOne (client : TargetedOp) :
    List TargetedOp → Except TransformFault (List TargetedOp × TargetedOp)
  | [] => .ok ([], client)
  | s :: server =>
    if passes s client then (transformOne client server).map fun p => (s :: p.1, p.2)
    else
      match s.op.transform client.op with
      | .error e => .error e
      | .ok (op, op') =>
        (transformOne { client with op := op' } server).map fun p => ({ s with op } :: p.1, p.2)

/-- Transforms each component of the client in turn past the server's components. -/
def transformComponents (server : List TargetedOp) :
    List TargetedOp → Except TransformFault (List TargetedOp × List TargetedOp)
  | [] => .ok (server, [])
  | c :: client =>
    match transformOne c server with
    | .error e => .error e
    | .ok (server, c) => (transformComponents server client).map fun p => (p.1, c :: p.2)

/-- Two edits of one document, each as it applies after the other. -/
def transform (server client : Composite) : Except TransformFault (Composite × Composite) :=
  (transformComponents server.components client.components).map fun p =>
    ({ server with components := dropNoops p.1 }, { client with components := dropNoops p.2 })

/-- The edit that undoes `c`, under the same stamp. -/
def invert (c : Composite) : Composite :=
  { c with components := c.components.reverse.map fun t => { t with op := t.op.invert } }

def isNoop (c : Composite) : Bool := c.components.all fun t => t.op.isNoop

/-- Edits of one origin may be folded into one. -/
def canCompose (first second : Composite) : Bool := first.origin == second.origin

instance : Operation Composite Document where
  apply := apply
  compose := compose
  transform := transform
  invert := invert
  isNoop := isNoop
  canCompose := canCompose

end Composite

namespace Document

variable [L : Lengths]

def toInitialization (d : Document) : Composite := .ofComponents d.initialization

def ofInitialization (c : Composite) : Except ApplyFault Document := empty.applyComponents c.components

end Document
end Coedit
