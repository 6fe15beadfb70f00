import Coedit.Json.Basic

/-!
# Writing JSON text

Text is written without blanks, members in the order of the tree.
-/

namespace Coedit.Json

def hexDigits (n : Nat) : List Char := Nat.toDigits 16 n

/-- The escaped form of a character inside a JSON string. -/
def escaped (c : Char) : List Char :=
  match c with
  | '"' => ['\\', '"']
  | '\\' => ['\\', '\\']
  | '\n' => ['\\', 'n']
  | '\r' => ['\\', 'r']
  | '\t' => ['\\', 't']
  | c =>
    if c.toNat < 0x20 then
      let ds := hexDigits c.toNat
      '\\' :: 'u' :: List.replicate (4 - ds.length) '0' ++ ds
    else [c]

def quoted (s : String) : String := String.ofList ('"' :: s.toList.flatMap escaped ++ ['"'])

mutual

/-- The text of a tree; the unusable tree is written as `null`. -/
def render : Json → String
  | .null => "null"
  | .bool true => "true"
  | .bool false => "false"
  | .int n => toString n
  | .float x => x.text
  | .str s => quoted s
  | .arr l => "[" ++ String.intercalate "," (renderItems l) ++ "]"
  | .obj l => "\x7b" ++ String.intercalate "," (renderMembers l) ++ "\x7d"
  | .unusable => "null"

def renderItems : List Json → List String
  | [] => []
  | a :: l => render a :: renderItems l

def renderMembers : List (String × Json) → List String
  | [] => []
  | (k, a) :: l => (quoted k ++ ":" ++ render a) :: renderMembers l

end

end Coedit.Json
