import Coedit.Sequence.Component

/-!
# Composing component lists

Both lists are walked together.  Deletes of the first pass through and inserts of the second are emitted
as they come; all other pairs use up the shorter of the two and carry the rest of the longer one into the
next step.  What the second deletes of an insert of the first vanishes, provided the content agrees.
-/

namespace Coedit.Component

variable {α : Type} [Element α]

/-- Components with the effect of the first list and then the second, not yet in normal form. -/
def composeWalk : List (Component α) → List (Component α) → Except ComposeFault (List (Component α))
  | [], [] => .ok []
  | delete s :: first, second => (composeWalk first second).map (delete s :: ·)
  | first, insert s :: second => (composeWalk first second).map (insert s :: ·)
  | c :: _, [] => .error (.uncovered c.postLength)
  | [], c :: _ => .error (.beyond c.preLength)
  | retain n :: first, retain m :: second =>
    let k := min n m
    (composeWalk (afterRetain n k first) (afterRetain m k second)).map (retain k :: ·)
  | retain n :: first, delete s :: second =>
    let k := min n s.length
    (composeWalk (afterRetain n k first) (afterDelete (s.drop k) second)).map (delete (s.take k) :: ·)
  | insert s :: first, retain m :: second =>
    let k := min s.length m
    (composeWalk (afterInsert (s.drop k) first) (afterRetain m k second)).map (insert (s.take k) :: ·)
  | insert s :: first, delete t :: second =>
    let k := min s.length t.length
    if s.take k == t.take k then
      composeWalk (afterInsert (s.drop k) first) (afterDelete (t.drop k) second)
    else .error (.content (Element.fragment (t.take k)) (Element.fragment (s.take k)))
termination_by first second => first.length + second.length
decreasing_by
  all_goals simp_wf
  all_goals simp only [length_afterRetain, length_afterInsert, length_afterDelete, List.isEmpty_iff,
    List.drop_eq_nil_iff]
  all_goals grind

end Coedit.Component
