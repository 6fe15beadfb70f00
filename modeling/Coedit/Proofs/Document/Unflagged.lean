import Coedit.Proofs.Document.Agreement

/-!
# Edits but for the flags of references

A shift sets the flag of its reference, which no schema allows.  Whether composites apply and whether they can be
composed does not depend on the flags, though: with all flags cleared they do so as before, and fit a schema.

* `Document.applyComponents_unflagged` — components apply with their flags cleared;
* `Composite.compose_unflagged` — composing and clearing the flags may be done in either order;
* `Composite.chain_unflagged` — composites that apply are chains once their flags are cleared.
-/

namespace Coedit

/-! ## Clearing the flags -/

def IndexReference.unflagged (r : IndexReference) : IndexReference := { r with canBeDeleted := false }

def Shift.unflagged (s : Shift) : Shift := { s with canBeDeleted := false }

/-- The object but for the flag of a reference. -/
def ObjectValue.unflagged : ObjectValue → ObjectValue
  | .reference r => .reference r.unflagged
  | v => v

def ObjectOp.unflagged : ObjectOp → ObjectOp
  | .reference s => .reference s.unflagged
  | op => op

def TargetedOp.unflagged (c : TargetedOp) : TargetedOp := { c with op := c.op.unflagged }

def Composite.unflagged (c : Composite) : Composite := { c with components := c.components.map TargetedOp.unflagged }

def Document.unflagged (d : Document) : Document where
  objects :=
    { entries := d.objects.entries.map fun e => (e.1, e.2.unflagged)
      ascending := by
        rw [Ascending, List.pairwise_map]
        exact d.objects.ascending }

/-! ## Objects -/

theorem Shift.compose_unflagged (a b : Shift) : a.unflagged.compose b.unflagged = (a.compose b).map unflagged := by
  by_cases ho : a.object = b.object
  · by_cases hi : a.new = b.old
    · simp [compose, unflagged, ho, hi, Except.map]
    · simp [compose, unflagged, ho, hi, Except.map]
  · simp [compose, unflagged, ho, Except.map]

namespace ObjectOp

variable {a b op : ObjectOp} {v w : ObjectValue}

/-- An operation applies with the flags cleared. -/
theorem apply_unflagged [Lengths] (h : op.apply v = .ok w) : op.unflagged.apply v.unflagged = .ok w.unflagged := by
  cases op with
  | text e =>
    cases v with
    | text s =>
      obtain ⟨_, _, rfl⟩ := map_eq_ok.1 h
      exact h
    | _ => cases h
  | list e =>
    cases v with
    | list l =>
      obtain ⟨_, _, rfl⟩ := map_eq_ok.1 h
      exact h
    | _ => cases h
  | map u =>
    cases v with
    | map m =>
      obtain ⟨_, _, rfl⟩ := map_eq_ok.1 h
      exact h
    | _ => cases h
  | reference s =>
    cases v with
    | reference r =>
      obtain ⟨_, hr, rfl⟩ := map_eq_ok.1 h
      obtain ⟨ho, hi, rfl⟩ := Shift.apply_eq_ok.1 hr
      exact map_eq_ok.2 ⟨_, Shift.apply_eq_ok.2 ⟨ho, hi, rfl⟩, rfl⟩
    | _ => cases h

theorem compose_unflagged [Lengths] (a b : ObjectOp) : a.unflagged.compose b.unflagged = (a.compose b).map unflagged := by
  cases a with
  | text e =>
    cases b with
    | text e' => show (e.compose e').map _ = ((e.compose e').map _).map _; cases e.compose e' <;> rfl
    | _ => rfl
  | list e =>
    cases b with
    | list e' => show (e.compose e').map _ = ((e.compose e').map _).map _; cases e.compose e' <;> rfl
    | _ => rfl
  | map u =>
    cases b with
    | map u' => show (u.compose u').map _ = ((u.compose u').map _).map _; cases u.compose u' <;> rfl
    | _ => rfl
  | reference s =>
    cases b with
    | reference s' =>
      have hs := Shift.compose_unflagged s s'
      show (s.unflagged.compose s'.unflagged).map _ = ((s.compose s').map _).map _
      rw [hs]
      cases s.compose s' <;> rfl
    | _ => rfl

theorem invert_unflagged [Lengths] (op : ObjectOp) : op.invert.unflagged = op.unflagged.invert := by
  cases op <;> rfl

theorem fits_unflagged [Lengths] : op.unflagged.Fits ↔ op.Fits := by
  cases op <;> rfl

@[simp] theorem isNoop_unflagged (op : ObjectOp) : op.unflagged.isNoop = op.isNoop := by
  cases op <;> rfl

theorem isIndependent_unflagged (a b : ObjectOp) : a.unflagged.isIndependent b.unflagged = a.isIndependent b := by
  cases a <;> cases b <;> rfl

theorem emptyFor_unflagged (op : ObjectOp) : ObjectValue.emptyFor op.unflagged = (ObjectValue.emptyFor op).unflagged := by
  cases op <;> rfl

end ObjectOp

/-! ## Documents -/

namespace Document

variable {d x : Document} {c : TargetedOp} {cs : List TargetedOp}

theorem get?_unflagged (d : Document) (target : ObjectId) :
    d.unflagged.get? target = (d.get? target).map ObjectValue.unflagged := by
  have find : ∀ l : List (ObjectId × ObjectValue),
      Table.findEntry target (l.map fun e => (e.1, e.2.unflagged)) = (Table.findEntry target l).map ObjectValue.unflagged := by
    intro l
    induction l with
    | nil => rfl
    | cons e l ih =>
      simp only [List.map_cons, Table.findEntry, ih]
      split <;> rfl
  exact find d.objects.entries

theorem ext_get? {d e : Document} (h : ∀ target, d.get? target = e.get? target) : d = e :=
  congrArg Document.mk (Table.ext_get? h)

theorem put_unflagged (d : Document) (target : ObjectId) (v : ObjectValue) :
    (d.put target v).unflagged = d.unflagged.put target v.unflagged := by
  refine ext_get? fun t => ?_
  rw [get?_unflagged, get?_put, get?_put, get?_unflagged]
  split <;> rfl

theorem applyOne_unflagged [Lengths] (h : d.applyOne c = .ok x) : d.unflagged.applyOne c.unflagged = .ok x.unflagged := by
  obtain ⟨v, hv, rfl⟩ := applyOne_eq_ok.1 h
  refine applyOne_eq_ok.2 ⟨v.unflagged, ?_, put_unflagged d c.target v⟩
  have hf : d.unflagged.found c.unflagged = (d.found c).unflagged := by
    rw [found, found, get?_unflagged]
    show ((d.get? c.target).map _).getD (ObjectValue.emptyFor c.op.unflagged) = _
    rw [ObjectOp.emptyFor_unflagged]
    cases d.get? c.target <;> rfl
  rw [hf]
  exact ObjectOp.apply_unflagged hv

/-- Components apply with their flags cleared. -/
theorem applyComponents_unflagged [Lengths] (cs : List TargetedOp) : ∀ {d : Document}, d.applyComponents cs = .ok x →
    d.unflagged.applyComponents (cs.map TargetedOp.unflagged) = .ok x.unflagged := by
  induction cs with
  | nil =>
    intro d h
    cases h
    rfl
  | cons c cs ih =>
    intro d h
    obtain ⟨d', hc, h⟩ := applyComponents_cons_eq_ok.1 h
    exact applyComponents_cons_eq_ok.2 ⟨d'.unflagged, applyOne_unflagged hc, ih h⟩

/-- Without flags all shifts of one reference agree on them. -/
theorem oneFlag_unflagged (d : Document) (cs : List TargetedOp) : d.unflagged.OneFlag (cs.map TargetedOp.unflagged) := by
  have cleared : ∀ c ∈ cs.map TargetedOp.unflagged, ∀ s, c.op = .reference s → s.canBeDeleted = false := by
    intro c hc s hs
    obtain ⟨⟨target, op⟩, -, rfl⟩ := List.mem_map.1 hc
    cases op with
    | reference s' => exact (congrArg Shift.canBeDeleted (ObjectOp.reference.inj hs)).symm
    | _ => cases hs
  constructor
  · intro a ha b hb _ t u ht hu
    rw [cleared a ha t ht, cleared b hb u hu]
  · intro a ha t r ht hr
    rw [cleared a ha t ht]
    rw [get?_unflagged] at hr
    obtain ⟨v, -, hv⟩ := Option.map_eq_some_iff.1 hr
    cases v with
    | reference r' => exact congrArg IndexReference.canBeDeleted (ObjectValue.reference.inj hv)
    | _ => cases hv

end Document

/-! ## Composing -/

namespace Composite

variable [L : Lengths] {a b c : Composite} {d x : Document}

omit L in
theorem passes_unflagged (t u : TargetedOp) : passes t.unflagged u.unflagged = passes t u :=
  congrArg (t.target != u.target || ·) (ObjectOp.isIndependent_unflagged t.op u.op)

theorem mergeReversed_unflagged (incoming : TargetedOp) (reversed : List TargetedOp) :
    mergeReversed incoming.unflagged (reversed.map TargetedOp.unflagged)
      = (mergeReversed incoming reversed).map (·.map (·.map TargetedOp.unflagged)) := by
  induction reversed with
  | nil => rfl
  | cons c earlier ih =>
    rw [List.map_cons, mergeReversed, mergeReversed, passes_unflagged]
    split
    · rw [ih]
      cases mergeReversed incoming earlier with
      | error e => rfl
      | ok r => cases r <;> rfl
    · show (c.op.unflagged.compose incoming.op.unflagged).map _ = _
      rw [ObjectOp.compose_unflagged]
      cases c.op.compose incoming.op <;> rfl

theorem merge_unflagged (components : List TargetedOp) (incoming : TargetedOp) :
    merge (components.map TargetedOp.unflagged) incoming.unflagged
      = (merge components incoming).map (·.map TargetedOp.unflagged) := by
  unfold merge
  rw [← List.map_reverse, mergeReversed_unflagged]
  cases mergeReversed incoming components.reverse with
  | error e => rfl
  | ok r =>
    cases r with
    | none => simp [Except.map]
    | some merged => simp [Except.map]

theorem foldlM_merge_unflagged (rest : List TargetedOp) : ∀ components : List TargetedOp,
    (rest.map TargetedOp.unflagged).foldlM merge (components.map TargetedOp.unflagged)
      = (rest.foldlM merge components).map (·.map TargetedOp.unflagged) := by
  induction rest with
  | nil => exact fun _ => rfl
  | cons c rest ih =>
    intro components
    rw [List.map_cons, List.foldlM_cons, List.foldlM_cons, merge_unflagged]
    cases merge components c with
    | error e => rfl
    | ok merged => exact ih merged

omit L in
theorem dropNoops_unflagged (components : List TargetedOp) :
    dropNoops (components.map TargetedOp.unflagged) = (dropNoops components).map TargetedOp.unflagged := by
  unfold dropNoops
  rw [List.filter_map]
  exact congrArg _ (List.filter_congr fun c _ => congrArg (!·) c.op.isNoop_unflagged)

/-- Composing and clearing the flags may be done in either order. -/
theorem compose_unflagged (a b : Composite) : a.unflagged.compose b.unflagged = (a.compose b).map unflagged := by
  unfold compose
  show (if a.origin != b.origin then _ else _) = _
  split
  · rfl
  · show ((b.components.map TargetedOp.unflagged).foldlM merge (a.components.map TargetedOp.unflagged)).map _ = _
    rw [foldlM_merge_unflagged]
    cases b.components.foldlM merge a.components with
    | error e => rfl
    | ok merged => exact congrArg (fun cs => Except.ok { b with components := cs }) (dropNoops_unflagged merged)

theorem invert_unflagged (c : Composite) : c.invert.unflagged = c.unflagged.invert := by
  have hc : (c.components.reverse.map Operation.invert).map TargetedOp.unflagged
      = (c.components.map TargetedOp.unflagged).reverse.map Operation.invert := by
    rw [← List.map_reverse, List.map_map, List.map_map]
    exact List.map_congr_left fun t _ => congrArg (TargetedOp.mk t.target) t.op.invert_unflagged
  exact congrArg (fun cs => { c with components := cs }) hc

/-- Composites that apply are chains once their flags are cleared. -/
theorem chain_unflagged (hl : c.Fits) (h : c.apply d = .ok x) :
    ∃ σ, (TargetedOp.calculus σ).Chain c.unflagged.components d.unflagged x.unflagged := by
  have hu := Document.applyComponents_unflagged c.components h
  have hfits : ∀ t ∈ c.unflagged.components, t.Fits (d.unflagged.schemaFor c.unflagged.components) := by
    intro t ht
    obtain ⟨t, htc, rfl⟩ := List.mem_map.1 ht
    exact Document.fits_of_applyComponents hu (d.oneFlag_unflagged c.components) ht
      (ObjectOp.fits_unflagged.2 (hl t htc))
  exact ⟨_, chain_of_apply hfits (d.unflagged.same_schemaFor _) hu⟩

/-- Composites of one origin can be composed if they are chains, one after the other, once their flags are cleared. -/
theorem exists_compose_of_chain {σ : Schema} {x y z : Document} (ho : a.origin = b.origin)
    (ha : (TargetedOp.calculus σ).Chain a.unflagged.components x y)
    (hb : (TargetedOp.calculus σ).Chain b.unflagged.components y z) : ∃ c, a.compose b = .ok c := by
  have ho : a.unflagged.origin = b.unflagged.origin := ho
  obtain ⟨cs, hc, -⟩ := compose_chain ho ha hb
  rw [compose_unflagged] at hc
  obtain ⟨c, hc, -⟩ := map_eq_ok.1 hc
  exact ⟨c, hc⟩

end Composite
end Coedit
