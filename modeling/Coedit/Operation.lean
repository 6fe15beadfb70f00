import Coedit.Fault

/-!
# Operations

An operation applies to a target, composes with the operation that follows it, is transformed against a
concurrent one and can be undone.  `transform server client` takes two operations made against one state
and gives `(server', client')` such that `server` followed by `client'` has the effect of `client`
followed by `server'`.
-/

namespace Coedit

class Operation (ω : Type) (τ : outParam Type) where
  /-- The target after the operation. -/
  apply : ω → τ → Except ApplyFault τ
  /-- One operation with the effect of the first and then the second. -/
  compose : ω → ω → Except ComposeFault ω
  /-- Each of two concurrent operations as it applies after the other, the server's first. -/
  transform : ω → ω → Except TransformFault (ω × ω)
  /-- The operation that undoes this one. -/
  invert : ω → ω
  /-- Whether the operation changes nothing. -/
  isNoop : ω → Bool
  /-- Whether the second operation may be folded into the first. -/
  canCompose : ω → ω → Bool := fun _ _ => true

namespace Operation

variable {ω τ : Type} [Operation ω τ]

def applyAll (ops : List ω) (target : τ) : Except ApplyFault τ :=
  ops.foldlM (fun t op => apply op t) target

/-- Folds operations into one, from the left. -/
def composeAll (first : ω) (rest : List ω) : Except ComposeFault ω :=
  rest.foldlM (fun acc op => compose acc op) first

end Operation
end Coedit
