import Coedit.Proofs.Document.Undo

/-!
# Operations on one object undone

The inverse of an operation leads back from what the operation gives.  A shift records the index that its reference had
but not the flag, so that one thing may stay of it: the reference keeps the flag that the shift set.

* `ObjectOp.remainder` — what an object is once an operation on it was made and undone;
* `ObjectOp.remainder_alike_iff` — it is what it was, unless a shift changed the flag;
* `ObjectOp.invert_recovers` — undoing gives the remainder, as long as the lengths of the operation fit.
-/

namespace Coedit
namespace ObjectOp

/-- What an object is once the operation was made and undone. A reference has the flag of the shift. -/
def remainder : ObjectOp → ObjectValue → ObjectValue
  | reference s, .reference r => .reference { r with canBeDeleted := s.canBeDeleted }
  | _, v => v

/-- The operation leaves the flag of a reference as it is. -/
def LeavesFlag : ObjectOp → ObjectValue → Prop
  | reference s, .reference r => s.canBeDeleted = r.canBeDeleted
  | _, _ => True

section fits
variable [L : Lengths] {op : ObjectOp} {v w : ObjectValue}

omit L in
theorem remainder_alike_iff : (op.remainder v).Alike v ↔ op.LeavesFlag v := by
  cases op <;> cases v <;> try exact iff_of_true (.refl _) trivial
  case reference s r =>
    change IndexReference.mk r.object r.index s.canBeDeleted = ⟨r.object, r.index, r.canBeDeleted⟩ ↔ _
    simp only [IndexReference.mk.injEq, true_and]
    rfl

/-- Applying does not look at the flag. -/
theorem apply_remainder (op : ObjectOp) (v : ObjectValue) : op.apply (op.remainder v) = op.apply v := by
  cases op <;> cases v <;> rfl

/-- The remainder fits the operation, also where the object does not. -/
theorem shape_remainder (h : op.apply v = .ok w) : (op.remainder v).shape = op.shape := by
  obtain ⟨-, hs⟩ := shape_apply h
  cases op <;> cases v <;> try cases hs
  case reference.reference s r =>
    have ho : r.object = s.object := (Shape.reference.inj hs).1
    exact congrArg (Shape.reference · s.canBeDeleted) ho
  all_goals rfl

/-- Undoing an operation gives the remainder of the object. -/
theorem apply_invert (hf : op.Fits) (h : op.apply v = .ok w) : ∃ x, op.invert.apply w = .ok x ∧ x.Alike (op.remainder v) := by
  have hsame : op.shape.calculus.Same (op.remainder v) (op.remainder v) := by
    rw [← shape_remainder h]
    exact Shape.same_self _
  have hm : op.shape.calculus.Maps op (op.remainder v) w :=
    Calculus.maps_of_apply (Shape.fit_iff.2 ⟨rfl, hf⟩) hsame ((apply_remainder op v).trans h)
  obtain ⟨-, -, x, hx, hxv⟩ := op.shape.inverts _ _ _ hm
  exact ⟨x, hx, Shape.alike_of_same hxv⟩

/-- **An operation undone.** Where an operation applies whose lengths fit, its inverse applies to what it gives. Texts,
lists and maps are what they were, and a reference is in its place with the flag of the shift. -/
theorem invert_recovers (hf : op.Fits) (h : op.apply v = .ok w) : ∃ x, op.invert.apply w = .ok x ∧ x.Alike (op.remainder v) ∧
    (x.Alike v ↔ op.LeavesFlag v) := by
  obtain ⟨x, hx, hr⟩ := apply_invert hf h
  have hv : x.Alike v ↔ (op.remainder v).Alike v := ⟨hr.symm.trans, hr.trans⟩
  exact ⟨x, hx, hr, hv.trans remainder_alike_iff⟩

end fits

section words
attribute [local instance] Lengths.word

/-- Moves a reference and takes its flag away. -/
def unflagging : ObjectOp := .reference ⟨⟨"t"⟩, 2, 5, false⟩

def flagged : ObjectValue := .reference ⟨⟨"t"⟩, 2, true⟩

/-- Types a letter in front of the only one. -/
def prefixing : ObjectOp := .text (.insertAt 1 0 ['a'])

theorem invert_recovers_flagged :
    (unflagging.Fits ∧ ∃ w, unflagging.apply flagged = .ok w ∧ ∃ x, unflagging.invert.apply w = .ok x ∧
      x.Alike (unflagging.remainder flagged) ∧ (x.Alike flagged ↔ unflagging.LeavesFlag flagged)) ∧
    prefixing.Fits ∧ ∃ w, prefixing.apply (.text ['b']) = .ok w ∧ ∃ x, prefixing.invert.apply w = .ok x ∧
      x.Alike (prefixing.remainder (.text ['b'])) ∧ (x.Alike (.text ['b']) ↔ prefixing.LeavesFlag (.text ['b'])) := by
  have hf : prefixing.Fits := by decide
  exact ⟨⟨trivial, _, rfl, invert_recovers trivial rfl⟩, hf, _, rfl, invert_recovers hf rfl⟩

/-- A flag that a shift changed is not restored. -/
theorem not_invert_recovers_flag : ¬ ∀ (op : ObjectOp) (v w : ObjectValue), op.apply v = .ok w →
    ∃ x, op.invert.apply w = .ok x ∧ x.Alike v := by
  intro h
  obtain ⟨x, hx, hv⟩ := h unflagging flagged (.reference ⟨⟨"t"⟩, 5, false⟩) rfl
  obtain rfl : x = .reference ⟨⟨"t"⟩, 2, false⟩ := (Except.ok.inj hx).symm
  exact Bool.false_ne_true (congrArg IndexReference.canBeDeleted hv)

end words

end ObjectOp
end Coedit
