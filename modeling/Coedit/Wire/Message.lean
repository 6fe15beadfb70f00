import Coedit.Message
import Coedit.Wire.Composite

/-!
# Written form of messages

Messages are records.  A message can be written if each of its deltas can.
-/

namespace Coedit

namespace DeltaMessage

def toJson? (m : DeltaMessage) : Option Json :=
  (m.deltas.mapM Composite.toJson?).map fun deltas =>
    .obj [("sessionId", .str m.session.text), ("userId", .str m.user.text), ("revision", .int m.revision),
      ("deltas", .arr deltas)]

def ofJson? [L : Lengths] (j : Json) : Option DeltaMessage := do
  match ← j.record? ["sessionId", "userId", "revision", "deltas"] with
  | [session, user, revision, deltas] =>
    return ⟨⟨← Json.required? Json.str? session⟩, ⟨← Json.required? Json.str? user⟩,
      ← Json.required? Json.word? revision, ← Json.required? (Json.list? Composite.ofJson?) deltas⟩
  | _ => none

end DeltaMessage

namespace DeltaRequest

def toJson? (r : DeltaRequest) : Option Json :=
  (r.deltas.mapM Composite.toJson?).map fun deltas =>
    .obj [("id", .str r.document.text), ("sessionId", .str r.session.text), ("revision", .int r.revision),
      ("deltas", .arr deltas)]

def ofJson? [L : Lengths] (j : Json) : Option DeltaRequest := do
  match ← j.record? ["id", "sessionId", "revision", "deltas"] with
  | [document, session, revision, deltas] =>
    return ⟨⟨← Json.required? Json.str? document⟩, ⟨← Json.required? Json.str? session⟩,
      ← Json.required? Json.word? revision, ← Json.required? (Json.list? Composite.ofJson?) deltas⟩
  | _ => none

end DeltaRequest
end Coedit
