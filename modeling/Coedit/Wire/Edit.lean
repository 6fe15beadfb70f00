import Coedit.Sequence.Edit
import Coedit.Wire.Reading

/-!
# Written form of edits

An edit is an array of components: a retain is its length, an insert or a delete is an object with the
segment under `i` or `d`.  A text segment is a string, a list segment an array.
-/

namespace Coedit

/-- How the segments of a sequence are written. -/
class SegmentForm (α : Type) where
  toJson : List α → Json
  ofJson? : Json → Option (List α)

instance : SegmentForm Char where
  toJson s := .str (String.ofList s)
  ofJson? j := j.str?.map String.toList

instance : SegmentForm Value where
  toJson l := .arr (l.map Value.json)
  ofJson? j := j.list? Json.value?

namespace Component

variable {α : Type} [SegmentForm α]

def toJson : Component α → Json
  | .retain n => .int n
  | .insert s => .obj [("i", SegmentForm.toJson s)]
  | .delete s => .obj [("d", SegmentForm.toJson s)]

/-- The segment under a key of a component, if it can be read. -/
def segment? (key : String) (members : List (String × Json)) : Option (List α) :=
  (Json.only? key members).bind SegmentForm.ofJson?

/-- Reads a component. What reads as an insert is one, whatever else is there; nothing inside may be
unusable. -/
def ofJson? (j : Json) : Option (Component α) :=
  if j.canonical?.isNone then none
  else
    match j with
    | .obj members =>
      match segment? "i" members with
      | some s => some (.insert s)
      | none => (segment? "d" members).map .delete
    | j => j.word?.map .retain

end Component

namespace Edit

variable {α : Type} [Element α] [SegmentForm α]

def toJson (e : Edit α) : Json := .arr (e.components.map Component.toJson)

/-- Reads components and brings them to normal form. -/
def ofJson? [L : Lengths] (j : Json) : Option (Edit α) := (j.list? Component.ofJson?).map ofComponents

end Edit
end Coedit
