import Coedit.Json.Token

/-!
# Reading JSON text

The tree is built token by token over a stack of unfinished containers, so its depth is the size of the
stack.  A container nested more than 127 deep is well-formed but unusable, and so is an object with a key
that denotes no text.
-/

namespace Coedit.Json

/-- Containers may be nested this deep. -/
def depthLimit : Nat := 127

/-- An unfinished container, its parts so far in reverse. -/
inductive Frame where
  | items (done : List Json)
  /-- The members so far, and the key of the member that is being read. -/
  | members (done : List (Option String × Json)) (key : Option String)

/-- What may come next. -/
inductive Expected where
  | value
  | valueOrClose
  | key
  | keyOrClose
  | colon
  | separatorOrClose
  | nothing

/-- A tree under construction. -/
structure Partway where
  stack : List Frame
  expected : Expected
  /-- The tree, once it is complete. -/
  root : Json

namespace Partway

def start : Partway := ⟨[], .value, .null⟩

/-- Puts a finished tree where it belongs. -/
def place (j : Json) : List Frame → Partway
  | [] => ⟨[], .nothing, j⟩
  | .items done :: outer => ⟨.items (j :: done) :: outer, .separatorOrClose, .null⟩
  | .members done key :: outer => ⟨.members ((key, j) :: done) none :: outer, .separatorOrClose, .null⟩

/-- Members whose keys all denote texts. -/
def keyed? : List (Option String × Json) → Option (List (String × Json))
  | [] => some []
  | (some k, j) :: rest => (keyed? rest).map ((k, j) :: ·)
  | (none, _) :: _ => none

/-- Finishes an array, which stands inside `outer`. -/
def closeItems (done : List Json) (outer : List Frame) : Partway :=
  place (if outer.length < depthLimit then .arr done.reverse else .unusable) outer

/-- Finishes an object, which stands inside `outer`. -/
def closeMembers (done : List (Option String × Json)) (outer : List Frame) : Partway :=
  let members :=
    match keyed? done.reverse with
    | some l => .obj l
    | none => .unusable
  place (if outer.length < depthLimit then members else .unusable) outer

/-- Takes in the next token, or refuses it. -/
def feed (p : Partway) (t : Token) : Option Partway :=
  match p.expected, t, p.stack with
  | .value, .openArr, stack | .valueOrClose, .openArr, stack =>
    some { p with stack := .items [] :: stack, expected := .valueOrClose }
  | .value, .openObj, stack | .valueOrClose, .openObj, stack =>
    some { p with stack := .members [] none :: stack, expected := .keyOrClose }
  | .value, .leaf j, stack | .valueOrClose, .leaf j, stack => some (place j stack)
  | .value, .text s, stack | .valueOrClose, .text s, stack =>
    some (place (s.elim .unusable .str) stack)
  | .valueOrClose, .closeArr, .items done :: outer
  | .separatorOrClose, .closeArr, .items done :: outer => some (closeItems done outer)
  | .key, .text k, .members done _ :: outer | .keyOrClose, .text k, .members done _ :: outer =>
    some { p with stack := .members done k :: outer, expected := .colon }
  | .keyOrClose, .closeObj, .members done _ :: outer
  | .separatorOrClose, .closeObj, .members done _ :: outer => some (closeMembers done outer)
  | .colon, .colon, _ => some { p with expected := .value }
  | .separatorOrClose, .comma, .items _ :: _ => some { p with expected := .value }
  | .separatorOrClose, .comma, .members _ _ :: _ => some { p with expected := .key }
  | _, _, _ => none

end Partway

/-- The tree that the tokens spell, if they spell exactly one. -/
def ofTokens? (tokens : List Token) : Option Json := do
  let p ← tokens.foldlM Partway.feed Partway.start
  match p.expected with
  | .nothing => some p.root
  | _ => none

def parse? (s : String) : Option Json := (Token.scan? s).bind ofTokens?

end Coedit.Json
