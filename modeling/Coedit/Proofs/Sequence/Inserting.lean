import Coedit.Proofs.Calculus
import Coedit.Proofs.Sequence.Fitting

/-!
# What edits insert

An edit makes a value no longer than by the elements that it inserts.  On their way past one another edits come to
insert nothing new, so what all edits ever inserted bounds the length of every value.

* `Component.totalPost_le` — what a list yields beyond what it takes in was inserted;
* `Component.totalInsert_normalize_le`, `Component.totalInsert_of_transformWalk`,
  `Component.totalInsert_of_composeWalk` — normal forms, transformed lists and compositions insert no more than what
  they come from;
* `Edit.insertLength_of_transform`, `Edit.insertLength_of_compose` — the same of edits.
-/

namespace Coedit

variable {α : Type}

namespace Component

/-- Elements that the step adds to the value. -/
def insertLength : Component α → Nat
  | insert s => s.length
  | _ => 0

def totalInsert (cs : List (Component α)) : Nat := Segment.total (cs.map insertLength)

variable {n : Nat} {s ins del : List α} {rest : List (Component α)}

@[simp] theorem totalInsert_nil : totalInsert ([] : List (Component α)) = 0 := rfl

@[simp] theorem totalInsert_retain : totalInsert (retain n :: rest) = totalInsert rest := Nat.zero_add _

@[simp] theorem totalInsert_insert : totalInsert (insert s :: rest) = s.length + totalInsert rest := rfl

@[simp] theorem totalInsert_delete : totalInsert (delete s :: rest) = totalInsert rest := Nat.zero_add _

theorem totalPost_le (cs : List (Component α)) : totalPost cs ≤ totalPre cs + totalInsert cs := by
  induction cs with
  | nil => exact Nat.le_refl 0
  | cons c cs ih =>
    rw [totalPost_cons, totalPre_cons]
    cases c with
    | retain n => simp only [postLength, preLength, totalInsert_retain]; omega
    | insert s => simp only [postLength, preLength, totalInsert_insert]; omega
    | delete s => simp only [postLength, preLength, totalInsert_delete]; omega

/-! ## Normal forms -/

@[simp] theorem totalInsert_retainThen [L : Lengths] : totalInsert (retainThen n rest) = totalInsert rest := by
  unfold retainThen
  split <;> simp only [totalInsert_retain]

@[simp] theorem totalInsert_afterDelete : totalInsert (afterDelete del rest) = totalInsert rest := by
  unfold afterDelete
  split
  next => rfl
  next => exact totalInsert_delete

section normal
variable [Element α] [L : Lengths]

/-- A run that inserts what it deletes counts for nothing. -/
theorem totalInsert_runThen_le : totalInsert (runThen ins del rest) ≤ ins.length + totalInsert rest := by
  unfold runThen
  split
  next => simp only [totalInsert_afterDelete]; omega
  next =>
    split
    next => simp only [totalInsert_retainThen]; omega
    next => simp only [totalInsert_insert, totalInsert_afterDelete]; omega

theorem totalInsert_normalizeAfter_le (cs : List (Component α)) : ∀ ins del : List α,
    totalInsert (normalizeAfter ins del cs) ≤ ins.length + totalInsert cs := by
  induction cs with
  | nil => exact fun _ _ => totalInsert_runThen_le
  | cons c cs ih =>
    intro ins del
    cases c with
    | retain n =>
      unfold normalizeAfter
      split
      next => simpa only [totalInsert_retain] using ih ins del
      next =>
        refine Nat.le_trans totalInsert_runThen_le ?_
        have hrest : totalInsert (normalizeAfter [] [] cs) ≤ 0 + totalInsert cs := ih [] []
        simp only [totalInsert_retainThen, totalInsert_retain]
        omega
    | insert s =>
      have h := ih (ins ++ s) del
      rw [List.length_append] at h
      simp only [normalizeAfter, totalInsert_insert]
      omega
    | delete s => simpa only [normalizeAfter, totalInsert_delete] using ih ins (del ++ s)

theorem totalInsert_normalize_le (cs : List (Component α)) : totalInsert (normalize cs) ≤ totalInsert cs := by
  simpa only [normalize, List.length_nil, Nat.zero_add] using totalInsert_normalizeAfter_le cs [] []

end normal

/-! ## Walks -/

@[simp] theorem totalInsert_append (cs ds : List (Component α)) :
    totalInsert (cs ++ ds) = totalInsert cs + totalInsert ds := by
  rw [totalInsert, List.map_append, Segment.total_append]
  rfl

@[simp] theorem totalInsert_afterRetain {k : Nat} : totalInsert (afterRetain n k rest) = totalInsert rest := by
  unfold afterRetain
  split
  next => exact totalInsert_retain
  next => rfl

@[simp] theorem totalInsert_afterInsert : totalInsert (afterInsert s rest) = s.length + totalInsert rest := by
  unfold afterInsert
  split
  next h => rw [List.isEmpty_iff.1 h, List.length_nil, Nat.zero_add]
  next => rfl

variable [Element α]

/-- Transformed lists insert what they inserted before. -/
theorem totalInsert_of_transformWalk (server client : List (Component α)) : ∀ {p},
    transformWalk server client = .ok p → totalInsert p.1 = totalInsert server ∧ totalInsert p.2 = totalInsert client := by
  induction server, client using transformWalk.induct with
  | case1 =>
    intro p h
    rw [transformWalk] at h
    cases h
    exact ⟨rfl, rfl⟩
  | case2 s server client ih =>
    intro p h
    rw [transformWalk] at h
    obtain ⟨q, hq, rfl⟩ := map_eq_ok.1 h
    simpa [onto] using ih hq
  | case3 server s client hi ih =>
    intro p h
    rw [transformWalk.eq_3 _ _ _ hi] at h
    obtain ⟨q, hq, rfl⟩ := map_eq_ok.1 h
    simpa [onto] using ih hq
  | case4 c server hi =>
    intro p h
    cases c with
    | insert s => exact absurd rfl (hi s)
    | _ => simp [transformWalk] at h
  | case5 c client hi =>
    intro p h
    cases c with
    | insert s => exact absurd rfl (hi s)
    | _ => simp [transformWalk] at h
  | case6 n server m client k =>
    rename_i ih
    intro p h
    rw [transformWalk] at h
    obtain ⟨q, hq, rfl⟩ := map_eq_ok.1 h
    simpa [onto] using ih hq
  | case7 s server m client k =>
    rename_i ih
    intro p h
    rw [transformWalk] at h
    obtain ⟨q, hq, rfl⟩ := map_eq_ok.1 h
    simpa [onto] using ih hq
  | case8 n server s client k =>
    rename_i ih
    intro p h
    rw [transformWalk] at h
    obtain ⟨q, hq, rfl⟩ := map_eq_ok.1 h
    simpa [onto] using ih hq
  | case9 s server t client k heq =>
    rename_i ih
    intro p h
    simp only [transformWalk] at h
    rw [if_pos heq] at h
    simpa using ih h
  | case10 s server t client k =>
    rename_i hne
    intro p h
    simp only [transformWalk] at h
    rw [if_neg hne] at h
    cases h

/-- A composition inserts no more than both lists do. -/
theorem totalInsert_of_composeWalk (first second : List (Component α)) : ∀ {cs : List (Component α)},
    composeWalk first second = .ok cs → totalInsert cs ≤ totalInsert first + totalInsert second := by
  induction first, second using composeWalk.induct with
  | case1 =>
    intro cs h
    rw [composeWalk] at h
    cases h
    exact Nat.le_refl 0
  | case2 s first second ih =>
    intro cs h
    rw [composeWalk] at h
    obtain ⟨rest, hrest, rfl⟩ := map_eq_ok.1 h
    simpa using ih hrest
  | case3 first s second hd ih =>
    intro cs h
    rw [composeWalk.eq_3 _ _ _ hd] at h
    obtain ⟨rest, hrest, rfl⟩ := map_eq_ok.1 h
    have hle := ih hrest
    simp only [totalInsert_insert]
    omega
  | case4 c first hd =>
    intro cs h
    cases c with
    | delete s => exact absurd rfl (hd s)
    | _ => simp [composeWalk] at h
  | case5 c second hi =>
    intro cs h
    cases c with
    | insert s => exact absurd rfl (hi s)
    | _ => simp [composeWalk] at h
  | case6 n first m second k =>
    rename_i ih
    intro cs h
    rw [composeWalk] at h
    obtain ⟨rest, hrest, rfl⟩ := map_eq_ok.1 h
    simpa using ih hrest
  | case7 n first s second k =>
    rename_i ih
    intro cs h
    rw [composeWalk] at h
    obtain ⟨rest, hrest, rfl⟩ := map_eq_ok.1 h
    simpa using ih hrest
  | case8 s first m second k =>
    rename_i ih
    intro cs h
    rw [composeWalk] at h
    obtain ⟨rest, hrest, rfl⟩ := map_eq_ok.1 h
    have hle := ih hrest
    simp only [totalInsert_insert, totalInsert_retain, totalInsert_afterInsert, totalInsert_afterRetain, List.length_take,
      List.length_drop] at hle ⊢
    omega
  | case9 s first t second k heq =>
    rename_i ih
    intro cs h
    simp only [composeWalk] at h
    rw [if_pos heq] at h
    have hle := ih h
    simp only [totalInsert_insert, totalInsert_afterInsert, totalInsert_afterDelete, totalInsert_delete,
      List.length_drop] at hle ⊢
    omega
  | case10 s first t second k =>
    rename_i hne
    intro cs h
    simp only [composeWalk] at h
    rw [if_neg hne] at h
    cases h

end Component

/-! ## Edits -/

namespace Edit

open Component

variable [Element α] [L : Lengths] {a b e s c s' c' : Edit α} {cs : List (Component α)}

/-- Elements that the edit adds to a value. -/
def insertLength (e : Edit α) : Nat := Component.totalInsert e.components

theorem insertLength_ofComponents_le (cs : List (Component α)) :
    (ofComponents cs).insertLength ≤ Component.totalInsert cs :=
  totalInsert_normalize_le cs

/-- Transformed edits insert no more than before. -/
theorem insertLength_of_transform (h : s.transform c = .ok (s', c')) :
    s'.insertLength ≤ s.insertLength ∧ c'.insertLength ≤ c.insertLength := by
  unfold Edit.transform at h
  split at h
  next =>
    obtain ⟨rfl, rfl⟩ := Prod.mk.inj (Except.ok.inj h)
    exact ⟨Nat.le_refl _, Nat.le_refl _⟩
  next =>
    split at h
    next => cases h
    next =>
      obtain ⟨p, hp, he⟩ := map_eq_ok.1 h
      obtain ⟨rfl, rfl⟩ := Prod.mk.inj he
      obtain ⟨hs, hc⟩ := totalInsert_of_transformWalk _ _ hp
      exact ⟨Nat.le_trans (insertLength_ofComponents_le p.1) (Nat.le_of_eq hs),
        Nat.le_trans (insertLength_ofComponents_le p.2) (Nat.le_of_eq hc)⟩

/-- A composition inserts no more than both edits do. -/
theorem insertLength_of_compose (h : a.compose b = .ok e) : e.insertLength ≤ a.insertLength + b.insertLength := by
  unfold Edit.compose at h
  split at h
  next =>
    cases h
    exact Nat.le_add_left ..
  next =>
    split at h
    next =>
      cases h
      exact Nat.le_add_right ..
    next =>
      obtain ⟨cs, hcs, rfl⟩ := map_eq_ok.1 h
      exact Nat.le_trans (insertLength_ofComponents_le cs) (totalInsert_of_composeWalk _ _ hcs)

end Edit
end Coedit
