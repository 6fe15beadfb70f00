import Coedit.Proofs.Document.Composite

/-!
# Documents that agree

Composites that apply to a document need not fit one schema: the shape of a reference holds its flag, which shifts
may set.  Where they carry one flag for each reference, the document and the components suggest a schema that they
fit, and documents that are the same under it agree object by object.

* `Document.Agree` — the documents agree at every object;
* `Document.unflagged_of_apply` — what components that apply in turn take an object for;
* `Document.shape_eq_schemaFor`, `Document.fits_of_applyComponents` — components fit the schema that a document and they
  suggest.
-/

namespace Coedit

/-! ## Agreement -/

/-- Objects with one content, where JSON values are compared by JSON equality. -/
def ObjectValue.Alike : ObjectValue → ObjectValue → Prop
  | .text s, .text t => s = t
  | .list l, .list m => (l == m) = true
  | .map m, .map n => MapContent.Alike m n
  | .reference r, .reference r' => r = r'
  | _, _ => False

namespace ObjectValue

variable {v w x : ObjectValue} {op : ObjectOp}

theorem Alike.refl (v : ObjectValue) : v.Alike v := by
  cases v with
  | text s => exact (rfl : s = s)
  | list l => exact alike_iff_beq.1 (.refl l)
  | map m => exact fun _ => BEq.rfl
  | reference r => exact (rfl : r = r)

theorem Alike.symm (h : v.Alike w) : w.Alike v := by
  cases v <;> cases w <;> try cases h; done
  case text => exact Eq.symm h
  case list => exact alike_iff_beq.1 (alike_iff_beq.2 h).symm
  case map => exact fun k => BEq.symm (h k)
  case reference => exact Eq.symm h

theorem Alike.trans (h : v.Alike w) (h' : w.Alike x) : v.Alike x := by
  cases v <;> cases w <;> (try cases h; done) <;> cases x <;> try cases h'; done
  case text => exact Eq.trans h h'
  case list => exact alike_iff_beq.1 ((alike_iff_beq.2 h).trans (alike_iff_beq.2 h'))
  case map => exact fun k => BEq.trans (h k) (h' k)
  case reference => exact Eq.trans h h'

/-- Objects with one content have results with one content. -/
theorem Alike.apply (h : v.Alike w) (hv : op.apply v = .ok x) : ∃ y, op.apply w = .ok y ∧ x.Alike y := by
  cases v <;> cases w <;> try cases h; done
  case text s t =>
    obtain rfl : s = t := h
    exact ⟨x, hv, .refl x⟩
  case list l m =>
    cases op with
    | list e =>
      obtain ⟨l', hl, rfl⟩ := map_eq_ok.1 hv
      obtain ⟨m', hm, hs⟩ := (Edit.maps_of_apply hl).congr (L := .exact) trivial (alike_iff_beq.2 h) (.refl l')
      exact ⟨.list m', map_eq_ok.2 ⟨m', hm, rfl⟩, alike_iff_beq.1 hs.symm⟩
    | _ => cases hv
  case map m n =>
    cases op with
    | map u =>
      obtain ⟨m', hm, rfl⟩ := map_eq_ok.1 hv
      obtain ⟨n', hn, hs⟩ := MapUpdate.calculus.apply_same trivial h hm
      exact ⟨.map n', map_eq_ok.2 ⟨n', hn, rfl⟩, hs⟩
    | _ => cases hv
  case reference r r' =>
    obtain rfl : r = r' := h
    exact ⟨x, hv, .refl x⟩

end ObjectValue

/-- The documents agree at every object, where an object that is not there counts as an empty one. -/
def Document.Agree (d e : Document) : Prop := ∀ target,
  match d.get? target, e.get? target with
  | some v, some w => v.Alike w
  | some v, none => v.isEmpty = true
  | none, some w => w.isEmpty = true
  | none, none => True

namespace Shape

variable {σ : Shape} {v w : ObjectValue}

theorem alike_of_same [Lengths] (h : σ.calculus.Same v w) : v.Alike w := by
  cases σ with
  | text =>
    obtain ⟨s, t, rfl, rfl, h⟩ := h
    exact alike_iff_eq.1 h
  | list =>
    obtain ⟨l, m, rfl, rfl, h⟩ := h
    exact alike_iff_beq.1 h
  | map =>
    obtain ⟨m, n, rfl, rfl, h⟩ := h
    exact h
  | reference object canBeDeleted =>
    obtain ⟨r, r', rfl, rfl, h, _⟩ := h
    exact h

theorem isEmpty_of_alike (h : v.Alike σ.empty) : v.isEmpty = true := by
  cases σ with
  | text =>
    cases v with
    | text s =>
      obtain rfl : s = [] := h
      rfl
    | _ => cases h
  | list =>
    cases v with
    | list l =>
      cases l with
      | nil => rfl
      | cons a l => cases h
    | _ => cases h
  | map =>
    cases v with
    | map m =>
      obtain ⟨entries, hm⟩ := m
      cases entries with
      | nil => rfl
      | cons e rest =>
        have h := h e.1
        simp [Table.get?, Table.findEntry, Table.empty, Std.ReflCmp.compare_self] at h
    | _ => cases h
  | reference object canBeDeleted =>
    cases v with
    | reference r =>
      obtain rfl : r = .unset object canBeDeleted := h
      rfl
    | _ => cases h

end Shape

/-- Documents that are the same under a schema agree. -/
theorem Document.Same.agree [Lengths] {σ : Schema} {d e : Document} (h : d.Same σ e) : d.Agree e := by
  intro t
  have hs := h t
  unfold view at hs
  cases hd : d.get? t with
  | none =>
    cases he : e.get? t with
    | none => trivial
    | some w =>
      rw [hd, he] at hs
      exact Shape.isEmpty_of_alike (Shape.alike_of_same ((σ t).calculus.symm hs))
  | some v =>
    cases he : e.get? t with
    | none =>
      rw [hd, he] at hs
      exact Shape.isEmpty_of_alike (Shape.alike_of_same hs)
    | some w =>
      rw [hd, he] at hs
      exact Shape.alike_of_same hs

/-! ## What applying fixes -/

/-- A shape but for the flag of a reference, which a shift may set. -/
def Shape.unflagged : Shape → Shape
  | .reference object _ => .reference object false
  | σ => σ

def Shape.flag? : Shape → Option Bool
  | .reference _ canBeDeleted => some canBeDeleted
  | _ => none

theorem Shape.eq_of_unflagged {σ τ : Shape} (h : σ.unflagged = τ.unflagged)
    (hf : ∀ f ∈ σ.flag?, ∀ g ∈ τ.flag?, f = g) : σ = τ := by
  cases σ <;> cases τ <;> simp_all [unflagged, flag?]

theorem ObjectOp.flag?_eq_some {op : ObjectOp} {f : Bool} :
    op.shape.flag? = some f ↔ ∃ s, op = .reference s ∧ s.canBeDeleted = f := by
  cases op <;> simp [ObjectOp.shape, Shape.flag?]

theorem ObjectValue.flag?_eq_some {v : ObjectValue} {f : Bool} :
    v.shape.flag? = some f ↔ ∃ r, v = .reference r ∧ r.canBeDeleted = f := by
  cases v <;> simp [ObjectValue.shape, Shape.flag?]

/-- An object changes its shape by no more than the flag, and takes the flag of the operation. -/
theorem ObjectOp.shape_apply [Lengths] {op : ObjectOp} {v w : ObjectValue} (h : op.apply v = .ok w) :
    w.shape = op.shape ∧ v.shape.unflagged = op.shape.unflagged := by
  cases op with
  | text e =>
    cases v with
    | text s =>
      obtain ⟨t, _, rfl⟩ := map_eq_ok.1 h
      exact ⟨rfl, rfl⟩
    | _ => cases h
  | list e =>
    cases v with
    | list l =>
      obtain ⟨m, _, rfl⟩ := map_eq_ok.1 h
      exact ⟨rfl, rfl⟩
    | _ => cases h
  | map u =>
    cases v with
    | map m =>
      obtain ⟨n, _, rfl⟩ := map_eq_ok.1 h
      exact ⟨rfl, rfl⟩
    | _ => cases h
  | reference s =>
    cases v with
    | reference r =>
      obtain ⟨r', hr, rfl⟩ := map_eq_ok.1 h
      obtain ⟨ho, _, rfl⟩ := Shift.apply_eq_ok.1 hr
      simp only [ObjectValue.shape, ObjectOp.shape, Shape.unflagged, ho, and_self]
    | _ => cases h

namespace Document

variable {d d' x : Document} {c : TargetedOp} {cs : List TargetedOp}

/-- Components that apply in turn take each object for what the document and the others take it for. -/
theorem unflagged_of_apply [Lengths] (cs : List TargetedOp) : ∀ {d : Document}, d.applyComponents cs = .ok x →
    ∀ c ∈ cs, (∀ v, d.get? c.target = some v → v.shape.unflagged = c.op.shape.unflagged) ∧
      ∀ c' ∈ cs, c'.target = c.target → c'.op.shape.unflagged = c.op.shape.unflagged := by
  induction cs with
  | nil => exact fun _ _ => nofun
  | cons a cs ih =>
    intro d h
    obtain ⟨d', ha, h⟩ := applyComponents_cons_eq_ok.1 h
    obtain ⟨w, hw, rfl⟩ := applyOne_eq_ok.1 ha
    obtain ⟨hwa, hfound⟩ := ObjectOp.shape_apply hw
    have ih := ih h
    have head : ∀ v, d.get? a.target = some v → v.shape.unflagged = a.op.shape.unflagged := by
      intro v hv
      rwa [found, hv, Option.getD_some] at hfound
    -- a later component finds the object that `a` left
    have later : ∀ c ∈ cs, c.target = a.target → a.op.shape.unflagged = c.op.shape.unflagged := by
      intro c hc ht
      rw [← hwa]
      exact (ih c hc).1 w (by rw [get?_put, if_pos ht])
    intro c hc
    rcases List.mem_cons.1 hc with rfl | hcs
    · refine ⟨head, fun c' hc' ht => ?_⟩
      rcases List.mem_cons.1 hc' with rfl | hcs'
      · rfl
      · exact (later c' hcs' ht).symm
    · refine ⟨fun v hv => ?_, fun c' hc' ht => ?_⟩
      · by_cases ht : c.target = a.target
        · exact (head v (ht ▸ hv)).trans (later c hcs ht)
        · exact (ih c hcs).1 v (by rwa [get?_put, if_neg ht])
      · rcases List.mem_cons.1 hc' with rfl | hcs'
        · exact later c hcs ht.symm
        · exact (ih c hcs).2 c' hcs' ht

/-- The schema that a document and the components on it suggest. -/
def schemaFor (d : Document) (cs : List TargetedOp) : Schema := fun target =>
  match d.get? target with
  | some v => v.shape
  | none =>
    match cs.find? fun c => c.target = target with
    | some c => c.op.shape
    | none => .text

/-- A document keeps to the schema that it suggests. -/
theorem same_schemaFor [Lengths] (d : Document) (cs : List TargetedOp) : d.Same (d.schemaFor cs) d := by
  intro t
  unfold view schemaFor
  cases hd : d.get? t with
  | some v => exact Shape.same_self v
  | none => exact Shape.same_empty _

/-- Shifts of one reference carry one flag, which is the one that the reference has. -/
structure OneFlag (d : Document) (cs : List TargetedOp) : Prop where
  /-- All shifts of one reference carry one flag. -/
  flag : ∀ a ∈ cs, ∀ b ∈ cs, a.target = b.target → ∀ t u, a.op = .reference t → b.op = .reference u →
    t.canBeDeleted = u.canBeDeleted
  /-- The flag is the one that the reference has. -/
  ownFlag : ∀ a ∈ cs, ∀ t r, a.op = .reference t → d.get? a.target = some (.reference r) →
    t.canBeDeleted = r.canBeDeleted

/-- Components that take each object for what the document and the others take it for have the shapes of the schema that
they suggest. -/
theorem shape_eq_schemaFor (hd : ∀ c ∈ cs, ∀ v, d.get? c.target = some v → v.shape.unflagged = c.op.shape.unflagged)
    (hcs : ∀ a ∈ cs, ∀ b ∈ cs, a.target = b.target → a.op.shape.unflagged = b.op.shape.unflagged)
    (hf : d.OneFlag cs) (hc : c ∈ cs) : c.op.shape = d.schemaFor cs c.target := by
  unfold schemaFor
  cases hget : d.get? c.target with
  | some v =>
    refine Shape.eq_of_unflagged (hd c hc v hget).symm fun f hcf g hg => ?_
    obtain ⟨t, hct, rfl⟩ := ObjectOp.flag?_eq_some.1 hcf
    obtain ⟨r, rfl, rfl⟩ := ObjectValue.flag?_eq_some.1 hg
    exact hf.ownFlag c hc t r hct hget
  | none =>
    cases hfind : cs.find? fun b => b.target = c.target with
    | some b =>
      have hb := List.mem_of_find?_eq_some hfind
      have ht : b.target = c.target := by simpa using List.find?_some hfind
      refine Shape.eq_of_unflagged (hcs c hc b hb ht.symm) fun f hcf g hg => ?_
      obtain ⟨t, hct, rfl⟩ := ObjectOp.flag?_eq_some.1 hcf
      obtain ⟨u, hbu, rfl⟩ := ObjectOp.flag?_eq_some.1 hg
      exact hf.flag c hc b hb ht.symm t u hct hbu
    | none =>
      have hne := List.find?_eq_none.1 hfind c hc
      exact absurd (by simp) hne

/-- Components that apply in turn fit the schema that they suggest. -/
theorem fits_of_applyComponents [Lengths] (h : d.applyComponents cs = .ok x) (hf : d.OneFlag cs) (hc : c ∈ cs)
    (hl : c.op.Fits) : c.Fits (d.schemaFor cs) := by
  have htaken := unflagged_of_apply cs h
  exact ⟨shape_eq_schemaFor (fun c hc => (htaken c hc).1) (fun _ hc c' hc' ht => (htaken c' hc').2 _ hc ht) hf hc, hl⟩

end Document

end Coedit
