import Coedit.Json.Basic

/-!
# Reading parts of a tree

The pieces from which readers are made.  A record may be written as an object, whose unknown members are
ignored and whose known members must not repeat, or as an array of its fields in their fixed order.
-/

namespace Coedit.Json

def str? : Json → Option String
  | .str s => some s
  | _ => none

def bool? : Json → Option Bool
  | .bool b => some b
  | _ => none

/-- A non-negative integer below `limit`. -/
def natBelow? (limit : Nat) : Json → Option Nat
  | .int n => if 0 ≤ n ∧ n < limit then some n.toNat else none
  | _ => none

def word? (j : Json) : Option Nat := j.natBelow? UInt64.size

def int64? : Json → Option Int64
  | .int n => if Int64.minValue.toInt ≤ n ∧ n ≤ Int64.maxValue.toInt then some (.ofInt n) else none
  | _ => none

/-- An array whose items all read as `α`. -/
def list? {α : Type} (item? : Json → Option α) : Json → Option (List α)
  | .arr items => items.mapM item?
  | _ => none

/-- An optional part: `null` stands for none. -/
def optional? {α : Type} (part? : Json → Option α) : Json → Option (Option α)
  | .null => some none
  | j => (part? j).map some

/-- The members with a given key. -/
def named (key : String) (members : List (String × Json)) : List Json :=
  members.filterMap fun m => if m.1 = key then some m.2 else none

/-- The only member with a given key, if there is exactly one. -/
def only? (key : String) (members : List (String × Json)) : Option Json :=
  match named key members with
  | [j] => some j
  | _ => none

/-- The member with a given key, if there is one; repeated members are refused. -/
def atMostOne? (key : String) (members : List (String × Json)) : Option (Option Json) :=
  match named key members with
  | [] => some none
  | [j] => some (some j)
  | _ => none

/-- The fields of a record with the given names, as far as they are there. -/
def record? (names : List String) : Json → Option (List (Option Json))
  | .obj members => names.mapM fun k => atMostOne? k members
  | .arr items =>
    if items.length ≤ names.length then
      some (items.map some ++ List.replicate (names.length - items.length) none)
    else none
  | _ => none

/-- A field that must be there. -/
def required? {α : Type} (part? : Json → Option α) (field : Option Json) : Option α := field.bind part?

/-- A field that may be left out. -/
def withDefault? {α : Type} (part? : Json → Option α) (default : α) : Option Json → Option α
  | none => some default
  | some j => part? j

end Coedit.Json
