import Coedit.Composite
import Coedit.Wire.Object

/-!
# Written form of composites

A composite is `[components, user, revision, session]`.  Its revision is a signed 64-bit integer, where
-1 stands for none, so a larger revision cannot be written.
-/

namespace Coedit

namespace Composite

/-- A revision as written in a composite. -/
def revisionJson? : Option Nat → Option Json
  | none => some (.int (-1))
  | some r => if r ≤ Int64.maxValue.toInt then some (.int r) else none

def toJson? (c : Composite) : Option Json :=
  (revisionJson? c.revision).map fun revision =>
    .arr [.arr (c.components.map TargetedOp.toJson), (c.origin.user.map fun u => .str u.text).getD .null,
      revision, (c.origin.session.map fun s => .str s.text).getD .null]

/-- Reads a revision; -1 and `null` are none, other negative numbers are refused. -/
def revisionOfJson? : Json → Option (Option Nat)
  | .null => some none
  | .int n => if n = -1 then some none else if 0 ≤ n ∧ n ≤ Int64.maxValue.toInt then some (some n.toNat) else none
  | _ => none

def ofJson? [L : Lengths] : Json → Option Composite
  | .arr [components, user, revision, session] => do
    let components ← components.list? TargetedOp.ofJson?
    let user ← user.optional? fun j => j.str?.map UserId.mk
    let revision ← revisionOfJson? revision
    let session ← session.optional? fun j => j.str?.map SessionId.mk
    return ⟨⟨user, session⟩, revision, components⟩
  | _ => none

end Composite
end Coedit
