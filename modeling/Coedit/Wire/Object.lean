import Coedit.Document
import Coedit.Wire.Edit

/-!
# Written form of object operations and snapshot entries

An update of a map is `[key, old, new]`, a shift of a reference `[object, old, new, canBeDeleted]`, an
addressed operation `[kind, target, operation]` and a snapshot entry `[target, kind, content]`.
-/

namespace Coedit

namespace Kind

def toJson (k : Kind) : Json := .str k.tag

/-- Reads a tag, which may also be the key of an object that holds `null` alone. -/
def ofJson? : Json → Option Kind
  | .str s => ofTag? s
  | .obj [(s, .null)] => ofTag? s
  | _ => none

end Kind

namespace ObjectId
def toJson (i : ObjectId) : Json := .str i.text
def ofJson? (j : Json) : Option ObjectId := j.str?.map mk
end ObjectId

namespace MapUpdate

def toJson (u : MapUpdate) : Json := .arr [.str u.key, u.old.json, u.new.json]

def ofJson? : Json → Option MapUpdate
  | .arr [key, old, new] => do return ⟨← key.str?, ← old.value?, ← new.value?⟩
  | _ => none

end MapUpdate

namespace MapContent

def toJson (m : MapContent) : Json := .obj (m.entries.map fun e => (e.1, e.2.json))

/-- Reads one member of an object. -/
def entry? (m : String × Json) : Option (String × Value) := m.2.value?.map fun v => (m.1, v)

/-- Reads an object as the content of a map. -/
def ofJson? : Json → Option MapContent
  | .obj members => (members.mapM entry?).map Table.ofList
  | _ => none

end MapContent

namespace Int64
def toJson (n : Int64) : Json := .int n.toInt
end Int64

namespace Shift

def toJson (s : Shift) : Json :=
  .arr [s.object.toJson, Int64.toJson s.old, Int64.toJson s.new, .bool s.canBeDeleted]

def ofJson? : Json → Option Shift
  | .arr [object, old, new, flag] => do
    return ⟨← ObjectId.ofJson? object, ← old.int64?, ← new.int64?, ← flag.bool?⟩
  | _ => none

end Shift

namespace IndexReference

/-- The form of a reference on its own. -/
def toJson (r : IndexReference) : Json :=
  .obj [("referenced_object", r.object.toJson), ("index", Int64.toJson r.index),
    ("can_be_deleted", .bool r.canBeDeleted)]

def ofJson? (j : Json) : Option IndexReference := do
  match ← j.record? ["referenced_object", "index", "can_be_deleted"] with
  | [object, index, flag] =>
    return ⟨← Json.required? ObjectId.ofJson? object, ← Json.required? Json.int64? index,
      ← Json.required? Json.bool? flag⟩
  | _ => none

/-- The form of a reference inside a snapshot. -/
def toEntryJson (r : IndexReference) : Json :=
  .arr [r.object.toJson, Int64.toJson r.index, .bool r.canBeDeleted]

def ofEntryJson? : Json → Option IndexReference
  | .arr [object, index, flag] => do
    return ⟨← ObjectId.ofJson? object, ← index.int64?, ← flag.bool?⟩
  | _ => none

end IndexReference

namespace ObjectOp

def toJson : ObjectOp → Json
  | text e => e.toJson
  | list e => e.toJson
  | map u => u.toJson
  | reference s => s.toJson

/-- Reads an operation of a known kind. -/
def ofJson? [L : Lengths] (k : Kind) (j : Json) : Option ObjectOp :=
  match k with
  | .text => (Edit.ofJson? j).map text
  | .list => (Edit.ofJson? j).map list
  | .map => (MapUpdate.ofJson? j).map map
  | .reference => (Shift.ofJson? j).map reference

end ObjectOp

namespace TargetedOp

def toJson (c : TargetedOp) : Json := .arr [c.op.kind.toJson, c.target.toJson, c.op.toJson]

/-- Reads an addressed operation; its body is brought to canonical form first. -/
def ofJson? [L : Lengths] : Json → Option TargetedOp
  | .arr [kind, target, body] => do
    let kind ← Kind.ofJson? kind
    let target ← ObjectId.ofJson? target
    let body ← body.value?
    return ⟨target, ← ObjectOp.ofJson? kind body.json⟩
  | _ => none

end TargetedOp

namespace ObjectValue

def toJson : ObjectValue → Json
  | text s => SegmentForm.toJson s
  | list l => SegmentForm.toJson l
  | map m => MapContent.toJson m
  | reference r => r.toEntryJson

/-- Reads the content of an object of a known kind. A map holds no `null`. -/
def ofJson? (k : Kind) (j : Json) : Option ObjectValue :=
  match k with
  | .text => (SegmentForm.ofJson? j).map text
  | .list => (SegmentForm.ofJson? j).map list
  | .map => (MapContent.ofJson? j).map fun m => map (m.filter fun _ v => !v.isNull)
  | .reference => (IndexReference.ofEntryJson? j).map reference

end ObjectValue

namespace SnapshotEntry

def toJson (e : SnapshotEntry) : Json := .arr [e.target.toJson, e.value.kind.toJson, e.value.toJson]

/-- Reads an entry; its content is brought to canonical form first. -/
def ofJson? : Json → Option SnapshotEntry
  | .arr [target, kind, content] => do
    let target ← ObjectId.ofJson? target
    let kind ← Kind.ofJson? kind
    let content ← content.value?
    return ⟨target, ← ObjectValue.ofJson? kind content.json⟩
  | _ => none

end SnapshotEntry
end Coedit
