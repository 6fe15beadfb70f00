import Coedit.Proofs.Document.Agreement
import Coedit.Proofs.Document.Projection
import Coedit.Proofs.Sequence.Inverse

/-!
# Composites undone

A composite is undone by the inverses of its components in reverse order.  Each inverse leads back where its
component came from, so the whole leads back; all that stays of the composite are the objects that it created, in
their empty state.

* `Calculus.Inverts` — inverses lead back, which the calculi of all kinds of operations promise;
* `Calculus.Inverts.chain` — the inverses of a list, in reverse order, lead back along it;
* `Composite.invert_restores` — undoing a composite restores the document.
-/

namespace Coedit

/-! ## Leading back -/

section calculus
variable {ω τ ω' τ' : Type} [Operation ω τ] [Operation ω' τ'] {K : Calculus ω τ}

/-- Where an operation leads, its inverse leads back. -/
def Calculus.Inverts (K : Calculus ω τ) : Prop := ∀ op x y, K.Maps op x y → K.Maps (Operation.invert op) y x

/-- The inverses of a list, in reverse order, lead back along it. -/
theorem Calculus.Inverts.chain (hK : K.Inverts) : ∀ {ops : List ω} {x y : τ}, K.Chain ops x y →
    K.Chain (ops.reverse.map Operation.invert) y x
  | [], _, _, h => K.symm h
  | _ :: _, _, _, ⟨_, hm, h⟩ => by
    rw [List.reverse_cons, List.map_append]
    exact (hK.chain h).snoc (hK _ _ _ hm)

/-- What leads back in one kind of operations leads back among several. -/
theorem Calculus.Inverts.embed (hK : K.Inverts) {f : ω → ω'} {g : τ → τ'} (h : IsKind f g) {cost : ω' → Nat}
    (hcost : ∀ op, cost (f op) = K.cost op) (hf : ∀ op, Operation.invert (f op) = f (Operation.invert op)) :
    (K.embed h cost hcost).Inverts := by
  rintro _ _ _ ⟨⟨op, rfl, hop⟩, ⟨x, x', rfl, hx, hxx⟩, v, hv, z, y, rfl, rfl, hzy⟩
  obtain rfl := h.state_injective hx
  obtain ⟨z', hz, hzz⟩ := map_eq_ok.1 ((h.apply_map op x).symm.trans hv)
  obtain rfl := h.state_injective hzz
  obtain ⟨hi, hyy, w, hw, hwx⟩ := hK op x y ⟨hop, hxx, z', hz, hzy⟩
  refine ⟨⟨_, hf op, hi⟩, ⟨y, y, rfl, rfl, hyy⟩, g w, ?_, w, x, rfl, rfl, hwx⟩
  rw [hf, h.apply_map, hw]
  rfl

end calculus

/-! ## The kinds of operations -/

theorem Edit.inverts {α : Type} [Element α] [EquivBEq α] [Lengths] : (Edit.calculus α).Inverts := by
  rintro e v w ⟨hf, -, x, hx, hxw⟩
  have hf : e.Fits := hf
  obtain ⟨z, hz, hzv⟩ := Edit.Maps.invert hf ⟨x, hx, hxw⟩
  exact ⟨hf.invert, .refl w, z, hz, hzv⟩

theorem MapUpdate.inverts : MapUpdate.calculus.Inverts := by
  rintro u m n ⟨-, -, x, hx, hxn⟩
  obtain ⟨ho, rfl⟩ := apply_eq_ok.1 hx
  have hn : (n.get? u.key == u.new?) = true := by
    have hk := hxn u.key
    rw [get?_write_self] at hk
    exact BEq.symm hk
  refine ⟨trivial, fun _ => BEq.rfl, u.invert.write n, apply_eq_ok.2 ⟨hn, rfl⟩, fun k => ?_⟩
  rw [get?_write]
  split
  next hk =>
    rw [hk]
    exact BEq.symm ho
  next hk =>
    have hk : k ≠ u.key := hk
    have hkn := hxn k
    rw [get?_write_of_ne hk] at hkn
    exact BEq.symm hkn

theorem Shift.inverts (object : ObjectId) (canBeDeleted : Bool) : (Shift.calculus object canBeDeleted).Inverts := by
  rintro s r _ ⟨⟨hs, hf⟩, ⟨-, hr, hrf⟩, r', hr', rfl, hro, hrf'⟩
  obtain ⟨hso, hi, rfl⟩ := apply_eq_ok.1 hr'
  refine ⟨⟨hs, hf⟩, ⟨rfl, hro, hrf'⟩, r, apply_eq_ok.2 ⟨hso, rfl, ?_⟩, rfl, hr, hrf⟩
  obtain ⟨_, _, _⟩ := r
  exact IndexReference.mk.injEq .. |>.mpr ⟨rfl, hi, hrf.trans hf.symm⟩

theorem Shape.inverts [Lengths] : ∀ σ : Shape, σ.calculus.Inverts
  | .text => Edit.inverts.embed isKind_text (fun _ => rfl) fun _ => rfl
  | .list => Edit.inverts.embed isKind_list (fun _ => rfl) fun _ => rfl
  | .map => MapUpdate.inverts.embed isKind_map (fun _ => rfl) fun _ => rfl
  | .reference object canBeDeleted =>
    (Shift.inverts object canBeDeleted).embed isKind_reference (fun _ => rfl) fun _ => rfl

theorem TargetedOp.inverts [Lengths] (σ : Schema) : (TargetedOp.calculus σ).Inverts := by
  rintro c d e ⟨hf, hd, x, hx, hxe⟩
  have hf : c.Fits σ := hf
  obtain ⟨v, hv, rfl⟩ := (Document.apply_view hf.shape).1 hx
  -- the object that `c` leaves is the one that its inverse finds
  have hve : (σ c.target).calculus.Same v (e.view σ c.target) := by
    have h := hxe c.target
    rwa [Document.view_put_self] at h
  have hm : (σ c.target).calculus.Maps c.op (d.view σ c.target) (e.view σ c.target) := ⟨hf.fit, hd c.target, v, hv, hve⟩
  obtain ⟨hi, -, w, hw, hwd⟩ := (σ c.target).inverts _ _ _ hm
  have hi : Fits σ ⟨c.target, c.op.invert⟩ := fits_of_fit hi
  refine ⟨hi, Calculus.right (K := calculus σ) hxe, e.put c.target w, (Document.apply_view hi.shape).2 ⟨w, hw, rfl⟩,
    fun t => ?_⟩
  rw [Document.view_put]
  split
  next ht => rwa [ht]
  next ht =>
    have h := hxe t
    rw [Document.view_put_of_ne σ d v ht] at h
    exact (σ t).calculus.symm h

/-! ## Composites -/

/-- What has the content of an empty object is empty. -/
theorem Shape.eq_empty_of_alike {σ : Shape} {v : ObjectValue} (h : v.Alike σ.empty) : v = σ.empty := by
  have he := isEmpty_of_alike h
  cases σ <;> cases v <;> try cases h; done
  case text => exact congrArg ObjectValue.text (List.isEmpty_iff.1 he)
  case list => exact congrArg ObjectValue.list (List.isEmpty_iff.1 he)
  case map => exact congrArg ObjectValue.map (Table.ext (List.isEmpty_iff.1 he))
  case reference => exact congrArg ObjectValue.reference h

namespace Document

variable [Lengths] {d x : Document} {cs : List TargetedOp} {target : ObjectId}

/-- Components leave in place what is there and create what they address. -/
theorem get?_eq_none_of_applyComponents (h : d.applyComponents cs = .ok x) :
    x.get? target = none ↔ d.get? target = none ∧ ∀ c ∈ cs, c.target ≠ target := by
  induction cs generalizing d with
  | nil =>
    cases h
    simp
  | cons c cs ih =>
    obtain ⟨_, hd, h⟩ := applyComponents_cons_eq_ok.1 h
    obtain ⟨v, -, rfl⟩ := applyOne_eq_ok.1 hd
    rw [ih h, get?_put]
    by_cases ht : target = c.target
    · simp [ht]
    · simp [ht, Ne.symm ht]

end Document

namespace Composite

theorem mem_opsOn_iff {op : ObjectOp} {target : ObjectId} {cs : List TargetedOp} :
    op ∈ opsOn target cs ↔ ∃ t ∈ cs, t.target = target ∧ t.op = op := by
  simp [opsOn, and_assoc]

/-- The document is the one that it was, but for objects that the edit created, which are there in their empty
state. -/
structure Restores (c : Composite) (d z : Document) : Prop where
  /-- Every object is there again with its content. -/
  kept : ∀ target v, d.get? target = some v → ∃ w, z.get? target = some w ∧ w.Alike v
  /-- An object that was not there is there empty if the edit created it, and else is not there. -/
  created : ∀ target, d.get? target = none → z.get? target = (opsOn target c.components).head?.map .emptyFor

section fits
variable [Lengths] {c : Composite} {d x y z : Document} {σ : Schema}

/-- An edit that leads from one document to another is undone by its inverse. -/
theorem chain_invert (h : (TargetedOp.calculus σ).Chain c.components x y) :
    (TargetedOp.calculus σ).Chain c.invert.components y x :=
  (TargetedOp.inverts σ).chain h

/-- Under a schema, what is the same but for objects created is restored. -/
theorem Restores.of_same (hf : ∀ t ∈ c.components, t.Fits σ) (hz : z.Same σ d)
    (hn : ∀ target, z.get? target = none ↔ d.get? target = none ∧ ∀ t ∈ c.components, t.target ≠ target) :
    c.Restores d z := by
  constructor
  · intro target v hv
    have hs := hz target
    cases hw : z.get? target with
    | none =>
      rw [((hn target).1 hw).1] at hv
      cases hv
    | some w =>
      rw [Document.view, Document.view, hv, hw] at hs
      exact ⟨w, rfl, Shape.alike_of_same hs⟩
  · intro target hd
    have hs := hz target
    rw [Document.view, Document.view, hd, Option.getD_none] at hs
    cases ho : opsOn target c.components with
    | nil =>
      refine (hn target).2 ⟨hd, fun t ht htt => ?_⟩
      have hop : t.op ∈ opsOn target c.components := mem_opsOn_iff.2 ⟨t, ht, htt, rfl⟩
      rw [ho] at hop
      cases hop
    | cons op ops =>
      have hop : op ∈ opsOn target c.components := by
        rw [ho]
        exact List.mem_cons_self ..
      obtain ⟨t, ht, rfl, rfl⟩ := mem_opsOn_iff.1 hop
      -- the object was created, and holds again what it was created with
      cases hw : z.get? t.target with
      | none => exact absurd rfl (((hn _).1 hw).2 t ht)
      | some w =>
        rw [hw] at hs
        have hw : w = (σ t.target).empty := Shape.eq_empty_of_alike (Shape.alike_of_same hs)
        rw [hw, List.head?_cons, Option.map_some, Shape.emptyFor_eq, (hf t ht).shape]

end fits

section words
attribute [local instance] Lengths.word

/-- A text, a map of one key and a reference into the text. -/
def drafted : Document :=
  ((Document.empty.put ⟨"t"⟩ (.text ['a', 'b'])).put ⟨"m"⟩ (.map (Table.empty.insert "k" ⟨.bool true, trivial⟩))).put
    ⟨"r"⟩ (.reference ⟨⟨"t"⟩, 1, true⟩)

/-- Rewrites the text in two steps and moves the reference along, removes the key and starts a list. -/
def redraft : Composite :=
  .ofComponents [⟨⟨"t"⟩, .text (.insertAt 2 0 ['x'])⟩, ⟨⟨"r"⟩, .reference ⟨⟨"t"⟩, 1, 2, true⟩⟩,
    ⟨⟨"m"⟩, .map ⟨"k", ⟨.bool true, trivial⟩, .null⟩⟩, ⟨⟨"t"⟩, .text (.deleteAt 3 1 ['a', 'b'])⟩,
    ⟨⟨"l"⟩, .list (.insertAt 0 0 [.null])⟩, ⟨⟨"r"⟩, .reference ⟨⟨"t"⟩, 2, 1, true⟩⟩]

end words

end Composite
end Coedit
