import Coedit.Proofs.Document.Targeted

/-!
# Documents object by object

An operation touches its own target only, so components do to each object what those addressed to it do to that
object alone, and they apply if they do so everywhere.

* `Composite.opsOn` — the operations on one object;
* `ObjectOp.applyOn` — what they make of an object that may not be there yet;
* `Document.get?_of_applyComponents`, `Document.exists_applyComponents` — components apply object by object.
-/

namespace Coedit

def Composite.opsOn (target : ObjectId) (cs : List TargetedOp) : List ObjectOp :=
  (cs.filter fun c => c.target = target).map (·.op)

/-- What operations in turn make of an object that may not be there yet. -/
def ObjectOp.applyOn (v? : Option ObjectValue) (ops : List ObjectOp) : Except ApplyFault (Option ObjectValue) :=
  ops.foldlM (fun v? op => (op.apply (v?.getD (.emptyFor op))).map some) v?

section lists
variable {c : TargetedOp} {cs : List TargetedOp} {target : ObjectId}

theorem Composite.opsOn_cons_self : opsOn c.target (c :: cs) = c.op :: opsOn c.target cs := by
  simp [opsOn]

theorem Composite.opsOn_cons_of_ne (h : c.target ≠ target) : opsOn target (c :: cs) = opsOn target cs := by
  simp [opsOn, h]

theorem Composite.mem_opsOn {op : ObjectOp} (h : op ∈ opsOn target cs) : ∃ t ∈ cs, t.op = op := by
  obtain ⟨t, ht, hop⟩ := List.mem_map.1 h
  exact ⟨t, List.mem_of_mem_filter ht, hop⟩

theorem ObjectOp.applyOn_cons_eq_ok {op : ObjectOp} {ops : List ObjectOp} {v? w? : Option ObjectValue} :
    applyOn v? (op :: ops) = .ok w? ↔ ∃ v, op.apply (v?.getD (.emptyFor op)) = .ok v ∧ applyOn (some v) ops = .ok w? := by
  unfold applyOn
  rw [List.foldlM_cons, bind_eq_ok]
  constructor
  · rintro ⟨_, h, ho⟩
    obtain ⟨v, hv, rfl⟩ := map_eq_ok.1 h
    exact ⟨v, hv, ho⟩
  · rintro ⟨v, hv, ho⟩
    exact ⟨some v, map_eq_ok.2 ⟨v, hv, rfl⟩, ho⟩

end lists

namespace Document

open Composite (opsOn opsOn_cons_self opsOn_cons_of_ne)

variable {d x : Document} {cs : List TargetedOp}

/-- Components do to each object what those addressed to it do. -/
theorem get?_of_applyComponents (h : d.applyComponents cs = .ok x) (target : ObjectId) :
    ObjectOp.applyOn (d.get? target) (opsOn target cs) = .ok (x.get? target) := by
  induction cs generalizing d with
  | nil =>
    cases h
    rfl
  | cons c cs ih =>
    obtain ⟨_, hd, h⟩ := applyComponents_cons_eq_ok.1 h
    obtain ⟨v, hv, rfl⟩ := applyOne_eq_ok.1 hd
    have ih := ih h
    rw [get?_put] at ih
    by_cases ht : c.target = target
    · subst ht
      rw [if_pos rfl] at ih
      rw [opsOn_cons_self]
      exact ObjectOp.applyOn_cons_eq_ok.2 ⟨v, hv, ih⟩
    · rw [if_neg (Ne.symm ht)] at ih
      rwa [opsOn_cons_of_ne ht]

/-- Components that apply to each object apply. -/
theorem exists_applyComponents (h : ∀ target, ∃ w?, ObjectOp.applyOn (d.get? target) (opsOn target cs) = .ok w?) :
    ∃ x, d.applyComponents cs = .ok x := by
  induction cs generalizing d with
  | nil => exact ⟨d, rfl⟩
  | cons c cs ih =>
    obtain ⟨w?, hw⟩ := h c.target
    rw [opsOn_cons_self] at hw
    obtain ⟨v, hv, hw⟩ := ObjectOp.applyOn_cons_eq_ok.1 hw
    have hd : d.applyOne c = .ok (d.put c.target v) := applyOne_eq_ok.2 ⟨v, hv, rfl⟩
    obtain ⟨x, hx⟩ := ih (d := d.put c.target v) fun target => by
      rw [get?_put]
      by_cases ht : c.target = target
      · subst ht
        rw [if_pos rfl]
        exact ⟨w?, hw⟩
      · rw [if_neg (Ne.symm ht)]
        have h := h target
        rwa [opsOn_cons_of_ne ht] at h
    exact ⟨x, applyComponents_cons_eq_ok.2 ⟨_, hd, hx⟩⟩

end Document
end Coedit
