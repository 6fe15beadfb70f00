import Coedit.Json.Binary64
import Coedit.Table

/-!
# JSON trees and JSON values

A `Json` tree is what one text says: an object's members stand in written order and may repeat.
A `Value` is a tree in canonical form, with members strictly ascending by key and nothing unusable
in it; it is what lists and maps hold.  `Json.value?` brings a tree to canonical form, where of
several members with one key the last one counts.
-/

namespace Coedit

/-- A JSON tree as written.  Integers and fractional numbers are different kinds of number. -/
inductive Json where
  | null
  | bool (b : Bool)
  | int (n : Int)
  | float (x : Binary64)
  | str (s : String)
  | arr (items : List Json)
  | obj (members : List (String × Json))
  /-- A well-formed piece of text that denotes no value: it may be skipped but not read. -/
  | unusable
  deriving Inhabited

namespace Json

/-! ## Equality -/

mutual

/-- Equality of trees, where numbers of one kind compare numerically: the two zeros are equal, and an
integer never equals a fractional number. -/
def beq : Json → Json → Bool
  | .null, .null => true
  | .bool a, .bool b => a == b
  | .int m, .int n => m == n
  | .float x, .float y => x.same y
  | .str s, .str t => s == t
  | .arr l, .arr m => beqItems l m
  | .obj l, .obj m => beqMembers l m
  | .unusable, .unusable => true
  | _, _ => false

def beqItems : List Json → List Json → Bool
  | [], [] => true
  | a :: l, b :: m => beq a b && beqItems l m
  | _, _ => false

def beqMembers : List (String × Json) → List (String × Json) → Bool
  | [], [] => true
  | (k, a) :: l, (k', b) :: m => k == k' && beq a b && beqMembers l m
  | _, _ => false

end

instance : BEq Json := ⟨beq⟩

/-! ## Canonical form -/

mutual

/-- Members strictly ascend by key at every level, and nothing is unusable. -/
def Canonical : Json → Prop
  | .arr l => CanonicalItems l
  | .obj l => Ascending l ∧ CanonicalMembers l
  | .unusable => False
  | _ => True

def CanonicalItems : List Json → Prop
  | [] => True
  | a :: l => Canonical a ∧ CanonicalItems l

def CanonicalMembers : List (String × Json) → Prop
  | [] => True
  | (_, a) :: l => Canonical a ∧ CanonicalMembers l

end

/-- Inserts members one after the other, so that the last of several with one key stays. -/
def sortMembers (l : List (String × Json)) : List (String × Json) :=
  l.foldl (fun acc m => Table.insertEntry m.1 m.2 acc) []

mutual

/-- The canonical form, unless part of the tree is unusable. -/
def canonical? : Json → Option Json
  | .null => some .null
  | .bool b => some (.bool b)
  | .int n => some (.int n)
  | .float x => some (.float x)
  | .str s => some (.str s)
  | .arr l => (canonicalItems? l).map .arr
  | .obj l => (canonicalMembers? l).map fun l => .obj (sortMembers l)
  | .unusable => none

def canonicalItems? : List Json → Option (List Json)
  | [] => some []
  | a :: l =>
    match canonical? a, canonicalItems? l with
    | some a, some l => some (a :: l)
    | _, _ => none

def canonicalMembers? : List (String × Json) → Option (List (String × Json))
  | [] => some []
  | (k, a) :: l =>
    match canonical? a, canonicalMembers? l with
    | some a, some l => some ((k, a) :: l)
    | _, _ => none

end

theorem canonicalMembers_iff {l : List (String × Json)} :
    CanonicalMembers l ↔ ∀ m ∈ l, Canonical m.2 := by
  induction l with
  | nil => simp [CanonicalMembers]
  | cons m l ih => obtain ⟨k, a⟩ := m; simp [CanonicalMembers, ih]

theorem ascending_foldl_insertEntry (l : List (String × Json)) :
    ∀ {acc : List (String × Json)}, Ascending acc →
      Ascending (l.foldl (fun acc m => Table.insertEntry m.1 m.2 acc) acc) := by
  induction l with
  | nil => exact fun h => h
  | cons m l ih => exact fun h => ih (Table.Ascending.insertEntry m.1 m.2 h)

theorem ascending_sortMembers (l : List (String × Json)) : Ascending (sortMembers l) :=
  ascending_foldl_insertEntry l List.Pairwise.nil

theorem canonicalMembers_sortMembers {l : List (String × Json)} (h : CanonicalMembers l) :
    CanonicalMembers (sortMembers l) := by
  have key : ∀ (l acc : List (String × Json)), CanonicalMembers l → CanonicalMembers acc →
      CanonicalMembers (l.foldl (fun acc m => Table.insertEntry m.1 m.2 acc) acc) := by
    intro l
    induction l with
    | nil => exact fun _ _ h => h
    | cons m l ih =>
      intro acc hl hacc
      refine ih _ (canonicalMembers_iff.2 fun x hx => ?_) (canonicalMembers_iff.2 fun x hx => ?_)
      · exact canonicalMembers_iff.1 hl x (List.mem_cons_of_mem _ hx)
      · rcases Table.mem_insertEntry hx with rfl | hx
        · exact canonicalMembers_iff.1 hl m (List.mem_cons_self ..)
        · exact canonicalMembers_iff.1 hacc x hx
  exact key l [] h trivial

mutual

theorem canonical_of_canonical? : ∀ {j c : Json}, j.canonical? = some c → c.Canonical
  | .null, _, h => by simp [canonical?] at h; subst h; trivial
  | .bool _, _, h => by simp [canonical?] at h; subst h; trivial
  | .int _, _, h => by simp [canonical?] at h; subst h; trivial
  | .float _, _, h => by simp [canonical?] at h; subst h; trivial
  | .str _, _, h => by simp [canonical?] at h; subst h; trivial
  | .arr l, _, h => by
    obtain ⟨m, hm, rfl⟩ := Option.map_eq_some_iff.1 (by simpa [canonical?] using h)
    exact canonicalItems_of_canonicalItems? hm
  | .obj l, _, h => by
    obtain ⟨m, hm, rfl⟩ := Option.map_eq_some_iff.1 (by simpa [canonical?] using h)
    exact ⟨ascending_sortMembers m,
      canonicalMembers_sortMembers (canonicalMembers_of_canonicalMembers? hm)⟩
  | .unusable, _, h => by simp [canonical?] at h

theorem canonicalItems_of_canonicalItems? :
    ∀ {l m : List Json}, canonicalItems? l = some m → CanonicalItems m
  | [], _, h => by simp [canonicalItems?] at h; subst h; trivial
  | a :: l, _, h => by
    unfold canonicalItems? at h
    split at h
    next ha hl =>
      cases h
      exact ⟨canonical_of_canonical? ha, canonicalItems_of_canonicalItems? hl⟩
    next => exact nomatch h

theorem canonicalMembers_of_canonicalMembers? :
    ∀ {l m : List (String × Json)}, canonicalMembers? l = some m → CanonicalMembers m
  | [], _, h => by simp [canonicalMembers?] at h; subst h; trivial
  | (k, a) :: l, _, h => by
    unfold canonicalMembers? at h
    split at h
    next ha hl =>
      cases h
      exact ⟨canonical_of_canonical? ha, canonicalMembers_of_canonicalMembers? hl⟩
    next => exact nomatch h

end

mutual

theorem canonical?_of_canonical : ∀ {j : Json}, j.Canonical → j.canonical? = some j
  | .null, _ => rfl
  | .bool _, _ => rfl
  | .int _, _ => rfl
  | .float _, _ => rfl
  | .str _, _ => rfl
  | .arr _, h => by simp [canonical?, canonicalItems?_of_canonical h]
  | .obj l, h => by
    have hl : sortMembers l = l := Table.foldl_insertEntry h.1 (by simp)
    simp [canonical?, canonicalMembers?_of_canonical h.2, hl]

theorem canonicalItems?_of_canonical :
    ∀ {l : List Json}, CanonicalItems l → canonicalItems? l = some l
  | [], _ => rfl
  | _ :: _, h => by
    simp [canonicalItems?, canonical?_of_canonical h.1, canonicalItems?_of_canonical h.2]

theorem canonicalMembers?_of_canonical :
    ∀ {l : List (String × Json)}, CanonicalMembers l → canonicalMembers? l = some l
  | [], _ => rfl
  | (_, _) :: _, h => by
    simp [canonicalMembers?, canonical?_of_canonical h.1, canonicalMembers?_of_canonical h.2]

end

end Json

/-- A JSON value in canonical form. -/
@[ext] structure Value where
  json : Json
  canonical : json.Canonical

namespace Value

/-- JSON equality. -/
instance : BEq Value := ⟨fun v w => v.json == w.json⟩

def null : Value := ⟨.null, trivial⟩

instance : Inhabited Value := ⟨null⟩

def isNull (v : Value) : Bool :=
  match v.json with
  | .null => true
  | _ => false

end Value

/-- The value that a tree denotes, unless part of it is unusable. -/
def Json.value? (j : Json) : Option Value :=
  match h : j.canonical? with
  | some c => some ⟨c, Json.canonical_of_canonical? h⟩
  | none => none

/-- A value is what its own tree denotes. -/
@[simp] theorem Value.value?_json (v : Value) : v.json.value? = some v := by
  have h := Json.canonical?_of_canonical v.canonical
  unfold Json.value?
  split
  next c hc => rw [h] at hc; cases hc; rfl
  next hc => rw [h] at hc; cases hc

end Coedit
