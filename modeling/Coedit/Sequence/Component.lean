import Coedit.Fault
import Coedit.Sequence.Segment

/-!
# Components of an edit

An edit of a sequence is a walk over it from left to right.  Each step keeps some elements, inserts a
segment at the cursor, or deletes a segment that must be found there.  A segment is a list of elements:
characters of a text or JSON values of a list.

A length is a natural number, as it is written; whoever adds lengths up does it as `Lengths` says.
-/

namespace Coedit

/-- An element of a collaborative sequence: it can be compared, and its segments can be shown. -/
class Element (α : Type) extends BEq α where
  fragment : List α → Fragment

instance : Element Char := { fragment := .text }
instance : Element Value := { fragment := .items }

/-- One step of an edit. -/
inductive Component (α : Type) where
  /-- Keep the next elements. -/
  | retain (length : Nat)
  /-- Insert a segment at the cursor. -/
  | insert (segment : List α)
  /-- Remove this very segment at the cursor. -/
  | delete (segment : List α)

namespace Component

variable {α : Type}

/-- Elements taken from the value that the edit applies to. -/
def preLength : Component α → Nat
  | retain n => n
  | insert _ => 0
  | delete s => s.length

/-- Elements contributed to the result. -/
def postLength : Component α → Nat
  | retain n => n
  | insert s => s.length
  | delete _ => 0

/-- The step that undoes this one. -/
def invert : Component α → Component α
  | retain n => retain n
  | insert s => delete s
  | delete s => insert s

def isRetain : Component α → Bool
  | retain _ => true
  | _ => false

/-- Whether the step says nothing. -/
def isEmpty : Component α → Bool
  | retain n => n == 0
  | insert s => s.isEmpty
  | delete s => s.isEmpty

/-- The components still to come after `used` of the `length` elements that a retain keeps. -/
def afterRetain (length used : Nat) (rest : List (Component α)) : List (Component α) :=
  if used < length then retain (length - used) :: rest else rest

/-- The components still to come after the first part of an insert; `s` is what is left of it. -/
def afterInsert (s : List α) (rest : List (Component α)) : List (Component α) :=
  if s.isEmpty then rest else insert s :: rest

/-- The components still to come after the first part of a delete; `s` is what is left of it. -/
def afterDelete (s : List α) (rest : List (Component α)) : List (Component α) :=
  if s.isEmpty then rest else delete s :: rest

theorem length_afterRetain (n k : Nat) (rest : List (Component α)) :
    (afterRetain n k rest).length = rest.length + if k < n then 1 else 0 := by
  unfold afterRetain; split <;> simp

theorem length_afterInsert (s : List α) (rest : List (Component α)) :
    (afterInsert s rest).length = rest.length + if s.isEmpty then 0 else 1 := by
  unfold afterInsert; split <;> simp

theorem length_afterDelete (s : List α) (rest : List (Component α)) :
    (afterDelete s rest).length = rest.length + if s.isEmpty then 0 else 1 := by
  unfold afterDelete; split <;> simp

/-- Elements that a list of components takes in all. -/
def totalPre (cs : List (Component α)) : Nat := Segment.total (cs.map preLength)

/-- Elements that a list of components yields in all. -/
def totalPost (cs : List (Component α)) : Nat := Segment.total (cs.map postLength)

end Component
end Coedit
