import Coedit.Operation
import Coedit.Table

/-!
# Updates of collaborative maps

An update of one key records the value it expects there and the value it writes, so it can be undone, and
concurrent updates of one key resolve to the one that the server applies last.  A JSON `null` on either
side means that the key is absent.
-/

namespace Coedit

abbrev MapContent := Table String Value

/-- Replaces the value at one key. -/
structure MapUpdate where
  key : String
  old : Value
  new : Value

namespace MapUpdate

/-- What a recorded value says of the key: `null` is no value. -/
def present? (v : Value) : Option Value := if v.isNull then none else some v

def old? (u : MapUpdate) : Option Value := present? u.old

def new? (u : MapUpdate) : Option Value := present? u.new

/-- An update of an absent key. -/
def set (key : String) (value : Value) : MapUpdate := ⟨key, .null, value⟩

def apply (u : MapUpdate) (target : MapContent) : Except ApplyFault MapContent :=
  let current := target.get? u.key
  if current == u.old? then
    .ok (match u.new? with
      | some v => target.insert u.key v
      | none => target.erase u.key)
  else .error (.value u.key current u.old?)

def compose (first second : MapUpdate) : Except ComposeFault MapUpdate :=
  if first.key != second.key then .error (.keys first.key second.key)
  else if first.new == second.old then .ok ⟨first.key, first.old, second.new⟩
  else .error (.values first.key first.new? second.old?)

/-- The client's write is the later one and wins; the server's update changes nothing after it. Updates of
different keys pass each other unchanged. -/
def transform (server client : MapUpdate) : Except TransformFault (MapUpdate × MapUpdate) :=
  if server.key != client.key then .ok (server, client)
  else if server.old == client.old then
    .ok (⟨server.key, client.new, client.new⟩, ⟨client.key, server.new, client.new⟩)
  else .error (.values server.key server.old? client.old?)

def invert (u : MapUpdate) : MapUpdate := ⟨u.key, u.new, u.old⟩

def isNoop (u : MapUpdate) : Bool := u.old == u.new

instance : Operation MapUpdate MapContent where
  apply := apply
  compose := compose
  transform := transform
  invert := invert
  isNoop := isNoop

end MapUpdate
end Coedit
