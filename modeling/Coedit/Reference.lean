import Coedit.Operation

/-!
# References into collaborative sequences

A reference, such as a cursor, points to a position inside another object.  A shift moves it from one
index to another and carries the flag that the reference has afterwards.  The flag travels with changes
of the index only: a shift that does not change the index changes nothing, whatever its flag.
-/

namespace Coedit

/-- A reference to a position inside another object. -/
structure IndexReference where
  object : ObjectId
  /-- The position, or -1 once it was invalidated. -/
  index : Int64
  /-- Whether deleting the position invalidates the reference instead of moving it. -/
  canBeDeleted : Bool
  deriving DecidableEq

namespace IndexReference

/-- The index of a reference that points nowhere. -/
def invalidated : Int64 := -1

/-- A reference that does not point anywhere yet. -/
def unset (object : ObjectId) (canBeDeleted : Bool) : IndexReference :=
  ⟨object, invalidated, canBeDeleted⟩

def isInvalidated (r : IndexReference) : Bool := r.index == invalidated

end IndexReference

/-- Moves a reference from one index to another. -/
structure Shift where
  object : ObjectId
  old : Int64
  new : Int64
  /-- The flag of the reference after the move. -/
  canBeDeleted : Bool
  deriving DecidableEq

namespace Shift

/-- Whether the shift leaves the reference pointing nowhere. -/
def invalidates (s : Shift) : Bool := s.new == IndexReference.invalidated

def apply (s : Shift) (r : IndexReference) : Except ApplyFault IndexReference :=
  if r.object != s.object then .error (.object r.object s.object)
  else if r.index != s.old then .error (.index r.index s.old)
  else .ok { r with index := s.new, canBeDeleted := s.canBeDeleted }

def compose (first second : Shift) : Except ComposeFault Shift :=
  if first.object != second.object then .error (.objects first.object second.object)
  else if first.new != second.old then .error (.indices first.new second.old)
  else .ok ⟨first.object, first.old, second.new, second.canBeDeleted⟩

/-- Each side starts where the other left the reference; both settle on the client's index and flag. -/
def transform (server client : Shift) : Except TransformFault (Shift × Shift) :=
  if server.object != client.object then .error (.objects server.object client.object)
  else if server.old != client.old then .error (.indices server.old client.old)
  else
    .ok (⟨server.object, client.new, client.new, client.canBeDeleted⟩,
      ⟨client.object, server.new, client.new, client.canBeDeleted⟩)

/-- Moves back. The flag before the move is not recorded, so the inverse carries the same one. -/
def invert (s : Shift) : Shift := { s with old := s.new, new := s.old }

def isNoop (s : Shift) : Bool := s.old == s.new

instance : Operation Shift IndexReference where
  apply := apply
  compose := compose
  transform := transform
  invert := invert
  isNoop := isNoop

end Shift
end Coedit
