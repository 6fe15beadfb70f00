import Coedit.Proofs.Wire.Edit
import Coedit.Wire.Object

/-!
# Written objects and operations read back

An addressed operation and a snapshot entry are read in two steps, first their content as a value and then
that value as what their kind says.  What is written is canonical at every level, so the first step changes
nothing.  The reader of entries drops `null` from maps; an entry reads back if it holds none.

* `ObjectOp.ofJson?_toJson`, `TargetedOp.ofJson?_toJson` — operations read back;
* `ObjectValue.ofJson?_toJson`, `SnapshotEntry.ofJson?_toJson` — so do objects without `null` in a map;
* `SnapshotEntry.nullFree_of_ofJson?` — no other objects are ever read.
-/

namespace Coedit

/-! ## Names and kinds -/

@[simp] theorem Kind.ofJson?_toJson (k : Kind) : Kind.ofJson? k.toJson = some k := k.ofTag?_tag

@[simp] theorem ObjectId.ofJson?_toJson (i : ObjectId) : ObjectId.ofJson? i.toJson = some i := rfl

/-! ## Operations -/

namespace MapUpdate

theorem canonical_toJson (u : MapUpdate) : u.toJson.Canonical := ⟨trivial, u.old.canonical, u.new.canonical, trivial⟩

theorem ofJson?_toJson (u : MapUpdate) : ofJson? u.toJson = some u := by
  simp [ofJson?, toJson, Json.str?]

end MapUpdate

namespace Shift

theorem canonical_toJson (s : Shift) : s.toJson.Canonical := ⟨trivial, trivial, trivial, trivial, trivial⟩

theorem ofJson?_toJson (s : Shift) : ofJson? s.toJson = some s := by
  simp [ofJson?, toJson, Int64.toJson, Json.bool?]

end Shift

namespace ObjectOp

/-- All lengths that the operation retains are 64-bit numbers. -/
def InRange : ObjectOp → Prop
  | text e => e.InRange
  | list e => e.InRange
  | _ => True

theorem canonical_toJson (op : ObjectOp) : op.toJson.Canonical := by
  cases op with
  | text e => exact e.canonical_toJson
  | list e => exact e.canonical_toJson
  | map u => exact u.canonical_toJson
  | reference s => exact s.canonical_toJson

theorem ofJson?_toJson {op : ObjectOp} (h : op.InRange) : ofJson? op.kind op.toJson = some op := by
  cases op with
  | text e => exact congrArg (Option.map text) (Edit.ofJson?_toJson h)
  | list e => exact congrArg (Option.map list) (Edit.ofJson?_toJson h)
  | map u => exact congrArg (Option.map map) u.ofJson?_toJson
  | reference s => exact congrArg (Option.map reference) s.ofJson?_toJson

end ObjectOp

/-- Written addressed operations read back. -/
theorem TargetedOp.ofJson?_toJson {c : TargetedOp} (h : c.op.InRange) : ofJson? c.toJson = some c := by
  simp [ofJson?, toJson, Json.value?_of_canonical c.op.canonical_toJson, ObjectOp.ofJson?_toJson h]

/-! ## Objects -/

namespace IndexReference

theorem canonical_toEntryJson (r : IndexReference) : r.toEntryJson.Canonical := ⟨trivial, trivial, trivial, trivial⟩

theorem ofEntryJson?_toEntryJson (r : IndexReference) : ofEntryJson? r.toEntryJson = some r := by
  simp [ofEntryJson?, toEntryJson, Int64.toJson, Json.bool?]

end IndexReference

namespace MapContent

/-- No key holds `null`. -/
def NullFree (m : MapContent) : Prop := ∀ key v, m.get? key = some v → v.isNull = false

theorem nullFree_filter (m : MapContent) : NullFree (m.filter fun _ v => !v.isNull) := by
  intro key v h
  rw [Table.get?_filter, Option.filter_eq_some_iff] at h
  simpa using h.2

theorem filter_of_nullFree {m : MapContent} (h : NullFree m) : (m.filter fun _ v => !v.isNull) = m := by
  refine Table.ext_get? fun key => ?_
  rw [Table.get?_filter]
  cases hv : m.get? key with
  | none => rfl
  | some v => simp [Option.filter, h key v hv]

theorem canonical_toJson (m : MapContent) : (toJson m).Canonical := by
  refine ⟨?_, Json.canonicalMembers_iff.2 fun j hj => ?_⟩
  · exact List.pairwise_map.2 m.ascending
  · obtain ⟨e, _, rfl⟩ := List.mem_map.1 hj
    exact e.2.canonical

theorem mapM_entry? (l : List (String × Value)) : (l.map fun e => (e.1, e.2.json)).mapM entry? = some l := by
  induction l with
  | nil => rfl
  | cons e l ih => simp [ih, entry?]

theorem ofJson?_toJson (m : MapContent) : ofJson? (toJson m) = some m := by
  rw [toJson, ofJson?, mapM_entry?, Option.map_some, Table.ofList_entries]

end MapContent

namespace ObjectValue

/-- The object is no map with `null` in it. -/
def NullFree : ObjectValue → Prop
  | map m => MapContent.NullFree m
  | _ => True

theorem canonical_toJson (v : ObjectValue) : v.toJson.Canonical := by
  cases v with
  | text s => exact LawfulSegmentForm.canonical_toJson s
  | list l => exact LawfulSegmentForm.canonical_toJson l
  | map m => exact MapContent.canonical_toJson m
  | reference r => exact r.canonical_toEntryJson

theorem ofJson?_toJson {v : ObjectValue} (h : v.NullFree) : ofJson? v.kind v.toJson = some v := by
  cases v with
  | text s => exact congrArg (Option.map text) (LawfulSegmentForm.ofJson?_toJson s)
  | list l => exact congrArg (Option.map list) (LawfulSegmentForm.ofJson?_toJson l)
  | map m =>
    have hm : ofJson? .map (toJson (map m)) = some (map (m.filter fun _ v => !v.isNull)) :=
      congrArg (Option.map fun m : MapContent => map (m.filter fun _ v => !v.isNull)) (MapContent.ofJson?_toJson m)
    rw [MapContent.filter_of_nullFree h] at hm
    exact hm
  | reference r => exact congrArg (Option.map reference) r.ofEntryJson?_toEntryJson

theorem nullFree_of_ofJson? {k : Kind} {j : Json} {v : ObjectValue} (h : ofJson? k j = some v) : v.NullFree := by
  cases k with
  | map =>
    obtain ⟨m, _, rfl⟩ := Option.map_eq_some_iff.1 h
    exact MapContent.nullFree_filter m
  | text =>
    obtain ⟨s, _, rfl⟩ := Option.map_eq_some_iff.1 h
    trivial
  | list =>
    obtain ⟨l, _, rfl⟩ := Option.map_eq_some_iff.1 h
    trivial
  | reference =>
    obtain ⟨r, _, rfl⟩ := Option.map_eq_some_iff.1 h
    trivial

end ObjectValue

namespace SnapshotEntry

/-- Written entries read back. -/
theorem ofJson?_toJson {e : SnapshotEntry} (h : e.value.NullFree) : ofJson? e.toJson = some e := by
  simp [ofJson?, toJson, Json.value?_of_canonical e.value.canonical_toJson, ObjectValue.ofJson?_toJson h]

/-- What was read as an entry holds no `null` in a map. -/
theorem nullFree_of_ofJson? {j : Json} {e : SnapshotEntry} (h : ofJson? j = some e) : e.value.NullFree := by
  unfold ofJson? at h
  split at h
  next target kind content =>
    simp only [Option.bind_eq_bind, Option.bind_eq_some_iff, Option.pure_def] at h
    obtain ⟨_, _, _, _, _, _, v, hv, h⟩ := h
    cases h
    exact ObjectValue.nullFree_of_ofJson? hv
  next => cases h

end SnapshotEntry
end Coedit
