import Coedit.Sequence.Component

/-!
# Transforming concurrent component lists

Both lists are walked together over the same value.  Inserts come before anything else at their position,
the server's before the client's, so the server's content ends up first on every replica.  A region that
both delete is deleted by neither transformed list.
-/

namespace Coedit.Component

variable {α : Type} [Element α]

/-- Puts components in front of both sides of a transformed pair. -/
def onto (s c : List (Component α)) (p : List (Component α) × List (Component α)) :
    List (Component α) × List (Component α) :=
  (s ++ p.1, c ++ p.2)

/-- The server's list as it applies after the client's and the client's as it applies after the server's,
not yet in normal form. -/
def transformWalk : List (Component α) → List (Component α) →
    Except TransformFault (List (Component α) × List (Component α))
  | [], [] => .ok ([], [])
  | insert s :: server, client =>
    (transformWalk server client).map (onto [insert s] [retain s.length])
  | server, insert s :: client =>
    (transformWalk server client).map (onto [retain s.length] [insert s])
  | c :: _, [] => .error (.residual c.preLength)
  | [], c :: _ => .error (.residual c.preLength)
  | retain n :: server, retain m :: client =>
    let k := min n m
    (transformWalk (afterRetain n k server) (afterRetain m k client)).map (onto [retain k] [retain k])
  | delete s :: server, retain m :: client =>
    let k := min s.length m
    (transformWalk (afterDelete (s.drop k) server) (afterRetain m k client)).map
      (onto [delete (s.take k)] [])
  | retain n :: server, delete s :: client =>
    let k := min n s.length
    (transformWalk (afterRetain n k server) (afterDelete (s.drop k) client)).map
      (onto [] [delete (s.take k)])
  | delete s :: server, delete t :: client =>
    let k := min s.length t.length
    if s.take k == t.take k then
      transformWalk (afterDelete (s.drop k) server) (afterDelete (t.drop k) client)
    else .error (.content (Element.fragment (s.take k)) (Element.fragment (t.take k)))
termination_by server client => server.length + client.length
decreasing_by
  all_goals simp_wf
  all_goals simp only [length_afterRetain, length_afterDelete, List.isEmpty_iff, List.drop_eq_nil_iff]
  all_goals grind

end Coedit.Component
