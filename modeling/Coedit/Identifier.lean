/-!
# Identifiers

Identifiers are opaque texts.  Each kind is a type of its own, so a session cannot stand where an object
is expected.  Object identifiers are ordered by their text, code point by code point.
-/

namespace Coedit

/-- One collaborative object inside a document. -/
structure ObjectId where
  text : String
  deriving DecidableEq

/-- One connected editing session. A user may hold several at once. -/
structure SessionId where
  text : String
  deriving DecidableEq

/-- The user an edit is attributed to. -/
structure UserId where
  text : String
  deriving DecidableEq

structure DocumentId where
  text : String
  deriving DecidableEq

namespace ObjectId

instance : Ord ObjectId := ⟨fun a b => compare a.text b.text⟩

theorem compare_def (a b : ObjectId) : compare a b = compare a.text b.text := rfl

instance : Std.TransOrd ObjectId where
  eq_swap {a b} := by simpa [compare_def] using Std.OrientedCmp.eq_swap
  isLE_trans {a b c} hab hbc := by
    rw [compare_def] at *
    exact Std.TransCmp.isLE_trans hab hbc

instance : Std.LawfulEqOrd ObjectId where
  compare_self {a} := by rw [compare_def]; exact Std.ReflCmp.compare_self
  eq_of_compare {a b} h := by
    cases a; cases b
    rw [compare_def] at h
    exact congrArg mk (Std.LawfulEqCmp.eq_of_compare h)

end ObjectId

/-- Where an edit comes from, as far as it is known. -/
structure Origin where
  user : Option UserId
  session : Option SessionId
  deriving DecidableEq

namespace Origin

/-- An edit that carries no stamp yet. -/
def unknown : Origin := ⟨none, none⟩

/-- The parts of `o` that are known, the others from `default`. -/
def orElse (o default : Origin) : Origin :=
  ⟨o.user.or default.user, o.session.or default.session⟩

end Origin
end Coedit
