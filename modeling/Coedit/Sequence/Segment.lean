import Coedit.Arithmetic

/-!
# Segments

Parts of a list by position and length.  Ranges that reach past the end are clipped.  `runs` cuts
consecutive parts in one pass, `subranges` says where each of them lies.
-/

namespace Coedit.Segment

variable {α : Type}

/-- The `length` elements from position `start` on. -/
def subrange (s : List α) (start length : Nat) : List α := (s.drop start).take length

def splitAt (s : List α) (n : Nat) : List α × List α := (s.take n, s.drop n)

/-- Consecutive parts of the given lengths from the front, each cut from what the last one left. -/
def runs (s : List α) : List Nat → List (List α)
  | [] => []
  | n :: lengths => s.take n :: runs (s.drop n) lengths

/-- Consecutive parts of the given lengths from position `start` on, each counted from the front. -/
def subranges [L : Lengths] (s : List α) (start : Nat) : List Nat → List (List α)
  | [] => []
  | n :: lengths => subrange s start n :: subranges s (L.arithmetic.wrap (start + n)) lengths

/-- The length of parts of the given lengths together. -/
def total (lengths : List Nat) : Nat := lengths.foldr (· + ·) 0

@[simp] theorem total_nil : total [] = 0 := rfl

@[simp] theorem total_cons (n : Nat) (lengths : List Nat) : total (n :: lengths) = n + total lengths := rfl

theorem total_append (l m : List Nat) : total (l ++ m) = total l + total m := by
  induction l with
  | nil => exact (Nat.zero_add _).symm
  | cons n l ih => rw [List.cons_append, total_cons, total_cons, ih, Nat.add_assoc]

theorem total_map_filter_le {β : Type} (f : β → Nat) (p : β → Bool) (l : List β) :
    total ((l.filter p).map f) ≤ total (l.map f) := by
  induction l with
  | nil => exact Nat.le_refl 0
  | cons b l ih =>
    rw [List.filter_cons]
    split
    next => exact Nat.add_le_add_left ih (f b)
    next => exact Nat.le_trans ih (Nat.le_add_left ..)

def startsWith [BEq α] (s p : List α) : Bool := p.isPrefixOf s

end Coedit.Segment
