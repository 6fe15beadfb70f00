/-!
# Kinds of collaborative objects
-/

namespace Coedit

/-- What an object of a document is. -/
inductive Kind where
  | text
  | list
  | map
  | reference
  deriving DecidableEq

namespace Kind

def tag : Kind → String
  | .text => "text"
  | .list => "list"
  | .map => "map"
  | .reference => "ref"

def ofTag? : String → Option Kind
  | "text" => some .text
  | "list" => some .list
  | "map" => some .map
  | "ref" => some .reference
  | _ => none

@[simp] theorem ofTag?_tag (k : Kind) : ofTag? k.tag = some k := by cases k <;> rfl

end Kind
end Coedit
