import Coedit.Message

/-!
# The revisions of a message

A message with `k` deltas at revision `r` carries what the server applied at the revisions from `r - k + 1` to `r`.  The
first revision there is comes after the document was created, so a message can carry no more deltas than its revision
says.  One that claims more is to be dropped, but a single delta too many goes through: it is taken to have been
applied at revision zero.

* `DeltaMessage.firstRevision?_eq`, `DeltaMessage.revisions_eq` — the revisions of a message, whatever it claims;
* `DeltaMessage.numbersDeltas_iff` — the messages whose deltas have the revisions that they should have.
-/

namespace Coedit
namespace DeltaMessage

variable {m : DeltaMessage}

/-- A delta of the message, as applied at `revision`. It has the user and the session of the message where it has none
of its own. -/
def attributed (m : DeltaMessage) (revision : Nat) (op : Composite) : Composite where
  origin := ⟨op.origin.user.or (some m.user), op.origin.session.or (some m.session)⟩
  revision := some revision
  components := op.components

theorem stamp_eq (m : DeltaMessage) : ∀ (ops : List Composite) (first : Nat),
    stamp ⟨some m.user, some m.session⟩ first ops = ops.mapIdx fun i op => (first + i, m.attributed (first + i) op)
  | [], _ => rfl
  | op :: ops, first => by
    rw [stamp, stamp_eq m ops, List.mapIdx_cons]
    simp only [Nat.add_assoc, Nat.add_comm 1]
    rfl

theorem firstRevision?_eq (m : DeltaMessage) : m.firstRevision? =
    if m.deltas = [] ∨ m.revision + 1 < m.deltas.length then none else some (m.revision + 1 - m.deltas.length) := by
  unfold firstRevision?
  dsimp only [Revisions.arithmetic_exact, Arithmetic.wrap_exact]
  by_cases hnone : m.deltas = []
  · simp [hnone]
  · by_cases hmany : m.revision + 1 < m.deltas.length
    · simp [hnone, hmany]
    · simp [hnone, hmany, Nat.not_lt.1 hmany]

/-- The deltas have consecutive revisions, the last of which is that of the message. -/
theorem revisions_eq (m : DeltaMessage) : m.revisions =
    if m.revision + 1 < m.deltas.length then []
    else m.deltas.mapIdx fun i op =>
      (m.revision + 1 - m.deltas.length + i, m.attributed (m.revision + 1 - m.deltas.length + i) op) := by
  unfold revisions
  rw [firstRevision?_eq]
  by_cases hnone : m.deltas = []
  · simp [hnone]
  · by_cases hmany : m.revision + 1 < m.deltas.length
    · simp [hmany]
    · simp only [hnone, hmany, or_self, if_false]
      exact m.stamp_eq m.deltas _

/-- Every delta is stamped with its revision. -/
theorem revisions_dated (m : DeltaMessage) : ∀ e ∈ m.revisions, e.2.revision = some e.1 := by
  intro e he
  rw [revisions_eq] at he
  split at he
  next => cases he
  next =>
    obtain ⟨i, hi, rfl⟩ := List.mem_mapIdx.1 he
    rfl

/-- What the revisions of a message should be. -/
structure NumbersDeltas (m : DeltaMessage) : Prop where
  /-- A message without deltas, or with more of them than there are revisions, has none. -/
  dropped : m.deltas = [] ∨ m.revision < m.deltas.length → m.revisions = []
  /-- Any other has its deltas, in their order, under the revisions up to its own. -/
  kept : m.deltas.length ≤ m.revision → m.revisions = m.deltas.mapIdx fun i op =>
    (m.revision - m.deltas.length + 1 + i, m.attributed (m.revision - m.deltas.length + 1 + i) op)
  /-- Nothing was applied before revision one. -/
  positive : ∀ e ∈ m.revisions, 1 ≤ e.1
  /-- The first revision is told apart, if there is one. -/
  first : m.firstRevision? = m.revisions.head?.map (·.1)

/-- **One delta too many goes through.** The deltas of a message have the revisions that they should have, unless there
is exactly one more of them than revisions. -/
theorem numbersDeltas_iff (m : DeltaMessage) : m.NumbersDeltas ↔ m.deltas.length ≠ m.revision + 1 := by
  constructor
  · intro h heq
    -- the message should have been dropped
    have hdropped := h.dropped (.inr (by omega))
    rw [revisions_eq, if_neg (by omega), List.mapIdx_eq_nil_iff] at hdropped
    rw [hdropped] at heq
    cases heq
  · intro hne
    refine ⟨?_, ?_, ?_, ?_⟩
    · rintro (hnone | hmany)
      · rw [revisions_eq, hnone]
        rfl
      · rw [revisions_eq, if_pos (by omega)]
    · intro hle
      rw [revisions_eq, if_neg (by omega), Nat.sub_add_comm hle]
    · intro e he
      rw [revisions_eq] at he
      split at he
      next => cases he
      next =>
        obtain ⟨i, hi, rfl⟩ := List.mem_mapIdx.1 he
        dsimp only
        omega
    · rw [firstRevision?_eq, revisions_eq]
      by_cases hmany : m.revision + 1 < m.deltas.length
      · simp [hmany]
      · rw [if_neg hmany, List.head?_mapIdx]
        cases hd : m.deltas with
        | nil => rfl
        | cons op ops =>
          rw [hd] at hmany
          rw [if_neg (not_or.2 ⟨List.cons_ne_nil _ _, hmany⟩)]
          rfl

/-- At revision zero nothing was applied yet, but a message may claim that a delta was. -/
theorem not_numbersDeltas_zero : ¬ (mk ⟨"s"⟩ ⟨"u"⟩ 0 [.ofComponents []]).NumbersDeltas :=
  fun h => absurd (h.dropped (.inr Nat.zero_lt_one)) (List.cons_ne_nil _ _)

end DeltaMessage
end Coedit
