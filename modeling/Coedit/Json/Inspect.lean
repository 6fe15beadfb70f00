import Coedit.Json.Basic
import Coedit.Text.Quoted

/-!
# Values in messages

Messages show a JSON value with the name of its kind before its content.
-/

namespace Coedit

namespace Json

mutual

def inspect : Json → String
  | .null => "Null"
  | .bool true => "Bool(true)"
  | .bool false => "Bool(false)"
  | .int n => "Number(" ++ toString n ++ ")"
  | .float x => "Number(" ++ x.text ++ ")"
  | .str s => "String(" ++ Text.quoted s.toList ++ ")"
  | .arr l => "Array [" ++ String.intercalate ", " (inspectItems l) ++ "]"
  | .obj l => "Object \x7b" ++ String.intercalate ", " (inspectMembers l) ++ "\x7d"
  | .unusable => "Null"

def inspectItems : List Json → List String
  | [] => []
  | a :: l => inspect a :: inspectItems l

def inspectMembers : List (String × Json) → List String
  | [] => []
  | (k, a) :: l => (Text.quoted k.toList ++ ": " ++ inspect a) :: inspectMembers l

end

end Json

namespace Value

def inspect (v : Value) : String := v.json.inspect

def inspectList (l : List Value) : String := "[" ++ String.intercalate ", " (l.map inspect) ++ "]"

end Value

def inspectOption {α : Type} (inspect : α → String) : Option α → String
  | none => "None"
  | some a => "Some(" ++ inspect a ++ ")"

end Coedit
