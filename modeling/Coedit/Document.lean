import Coedit.Object

/-!
# Documents

A document holds every collaborative object by its identifier.  Operations addressed to objects are
applied in order, all or none; an operation on an object that does not exist creates it first.
-/

namespace Coedit

/-- An operation addressed to one object. -/
structure TargetedOp where
  target : ObjectId
  op : ObjectOp

/-- All collaborative objects of one document. -/
structure Document where
  objects : Table ObjectId ObjectValue

/-- One object in the persisted form of a document. -/
structure SnapshotEntry where
  target : ObjectId
  value : ObjectValue

namespace Document

def empty : Document := ⟨.empty⟩

instance : Inhabited Document := ⟨empty⟩

def get? (d : Document) (target : ObjectId) : Option ObjectValue := d.objects.get? target

def size (d : Document) : Nat := d.objects.size

def isEmpty (d : Document) : Bool := d.objects.isEmpty

def text? (d : Document) (target : ObjectId) : Option (List Char) :=
  match d.get? target with
  | some (.text s) => some s
  | _ => none

def list? (d : Document) (target : ObjectId) : Option (List Value) :=
  match d.get? target with
  | some (.list l) => some l
  | _ => none

def map? (d : Document) (target : ObjectId) : Option MapContent :=
  match d.get? target with
  | some (.map m) => some m
  | _ => none

def reference? (d : Document) (target : ObjectId) : Option IndexReference :=
  match d.get? target with
  | some (.reference r) => some r
  | _ => none

/-- The object that an operation finds: the one there is, or a new empty one. -/
def found (d : Document) (c : TargetedOp) : ObjectValue :=
  (d.get? c.target).getD (.emptyFor c.op)

/-- The document after one addressed operation. -/
def applyOne [L : Lengths] (d : Document) (c : TargetedOp) : Except ApplyFault Document :=
  match c.op.apply (d.found c) with
  | .ok v => .ok ⟨d.objects.insert c.target v⟩
  | .error e => .error (.inObject c.target e)

def applyComponents [L : Lengths] (d : Document) (components : List TargetedOp) : Except ApplyFault Document :=
  components.foldlM applyOne d

/-! ## Persisted form -/

/-- The entries of a document by ascending identifier. -/
def toEntries (d : Document) : List SnapshotEntry := d.objects.entries.map fun e => ⟨e.1, e.2⟩

/-- Adds one entry, whose object must be new. -/
def addEntry (d : Document) (e : SnapshotEntry) : Except ApplyFault Document :=
  if d.objects.contains e.target then .error (.repeatedObject e.target)
  else .ok ⟨d.objects.insert e.target e.value⟩

def ofEntries (entries : List SnapshotEntry) : Except ApplyFault Document :=
  entries.foldlM addEntry empty

/-- Operations that build the document from nothing, one or more for each object. -/
def initialization [L : Lengths] (d : Document) : List TargetedOp :=
  d.objects.entries.flatMap fun e => e.2.initialization.map fun op => ⟨e.1, op⟩

end Document
end Coedit
