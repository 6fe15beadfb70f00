import Coedit.MapUpdate
import Coedit.Reference
import Coedit.Sequence.Edit

/-!
# Collaborative objects

An object is a text, a list, a map or a reference, and an object operation is one of the operations of
these kinds.  Operations of different kinds cannot be combined.
-/

namespace Coedit

inductive ObjectValue where
  | text (content : List Char)
  | list (items : List Value)
  | map (content : MapContent)
  | reference (target : IndexReference)

inductive ObjectOp where
  | text (edit : TextEdit)
  | list (edit : ListEdit)
  | map (update : MapUpdate)
  | reference (shift : Shift)

namespace ObjectOp

def kind : ObjectOp → Kind
  | text _ => .text
  | list _ => .list
  | map _ => .map
  | reference _ => .reference

/-- Whether two operations touch disjoint parts of one object, so that their order does not matter and
neither needs transforming. Only updates of different keys do. -/
def isIndependent : ObjectOp → ObjectOp → Bool
  | map a, map b => a.key != b.key
  | _, _ => false

end ObjectOp

namespace ObjectValue

def kind : ObjectValue → Kind
  | text _ => .text
  | list _ => .list
  | map _ => .map
  | reference _ => .reference

/-- The object that an operation creates when its target does not exist yet. -/
def emptyFor : ObjectOp → ObjectValue
  | .text _ => text []
  | .list _ => list []
  | .map _ => map .empty
  | .reference s => reference (.unset s.object s.canBeDeleted)

/-- Whether the object holds nothing beyond its empty state. -/
def isEmpty : ObjectValue → Bool
  | text s => s.isEmpty
  | list l => l.isEmpty
  | map m => m.isEmpty
  | reference r => r.isInvalidated

/-- An operation that changes nothing but creates the object in its empty state. -/
def creation : ObjectValue → ObjectOp
  | text _ => .text .identity
  | list _ => .list .identity
  | map _ => .map ⟨"", .null, .null⟩
  | reference r => .reference ⟨r.object, IndexReference.invalidated, IndexReference.invalidated, r.canBeDeleted⟩

/-- Operations that create the object and fill in its content. -/
def initialization [L : Lengths] (v : ObjectValue) : List ObjectOp :=
  if v.isEmpty then [v.creation]
  else
    match v with
    | text s => [.text (.insertAt 0 0 s)]
    | list l => [.list (.insertAt 0 0 l)]
    | map m => m.entries.map fun e => .map (.set e.1 e.2)
    | reference r => [.reference ⟨r.object, IndexReference.invalidated, r.index, r.canBeDeleted⟩]

end ObjectValue

namespace ObjectOp

variable [L : Lengths]

def apply : ObjectOp → ObjectValue → Except ApplyFault ObjectValue
  | text e, .text s => (e.apply s).map .text
  | list e, .list l => (e.apply l).map .list
  | map u, .map m => (u.apply m).map .map
  | reference s, .reference r => (s.apply r).map .reference
  | op, v => .error (.kind op.kind v.kind)

def compose : ObjectOp → ObjectOp → Except ComposeFault ObjectOp
  | text a, text b => (a.compose b).map text
  | list a, list b => (a.compose b).map list
  | map a, map b => (a.compose b).map map
  | reference a, reference b => (a.compose b).map reference
  | a, b => .error (.kinds a.kind b.kind)

def transform : ObjectOp → ObjectOp → Except TransformFault (ObjectOp × ObjectOp)
  | text s, text c => (s.transform c).map fun p => (text p.1, text p.2)
  | list s, list c => (s.transform c).map fun p => (list p.1, list p.2)
  | map s, map c => (s.transform c).map fun p => (map p.1, map p.2)
  | reference s, reference c => (s.transform c).map fun p => (reference p.1, reference p.2)
  | s, c => .error (.kinds s.kind c.kind)

def invert : ObjectOp → ObjectOp
  | text e => text e.invert
  | list e => list e.invert
  | map u => map u.invert
  | reference s => reference s.invert

def isNoop : ObjectOp → Bool
  | text e => e.isNoop
  | list e => e.isNoop
  | map u => u.isNoop
  | reference s => s.isNoop

instance : Operation ObjectOp ObjectValue where
  apply := apply
  compose := compose
  transform := transform
  invert := invert
  isNoop := isNoop

end ObjectOp
end Coedit
