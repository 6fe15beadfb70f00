import Coedit.Composite
import Coedit.Proofs.Document.Shape

/-!
# The calculus of addressed operations

A schema gives every object identifier a shape.  A document keeps to it if each of its objects has the shape of
its identifier, and an addressed operation if it fits the shape of its target; an object that is not there counts
as the empty one of its shape.  Under a schema addressed operations obey the laws of a calculus.

* `Document.apply_view` — what an addressed operation does, target by target;
* `TargetedOp.calculus` — the laws;
* `TargetedOp.Maps.swap` — components that pass each other may change places.
-/

namespace Coedit

abbrev Schema := ObjectId → Shape

namespace Document

/-- The object under an identifier, the empty one if there is none. -/
def view (σ : Schema) (d : Document) (target : ObjectId) : ObjectValue := (d.get? target).getD (σ target).empty

/-- Every object is equal, as far as its shape tells. -/
def Same [Lengths] (σ : Schema) (d e : Document) : Prop :=
  ∀ target, (σ target).calculus.Same (d.view σ target) (e.view σ target)

def put (d : Document) (target : ObjectId) (v : ObjectValue) : Document := ⟨d.objects.insert target v⟩

variable [L : Lengths] {σ : Schema} {c : TargetedOp} {d d' e e' : Document} {target : ObjectId} {v w : ObjectValue} {n : Nat}

/-- So much may be added to every object. -/
def Room (σ : Schema) (n : Nat) (d : Document) : Prop := ∀ target, (σ target).calculus.Room n (d.view σ target)

omit L in
theorem get?_put (d : Document) (target other : ObjectId) (v : ObjectValue) :
    (d.put target v).get? other = if other = target then some v else d.get? other := by
  rw [get?, put, Table.get?_insert, get?]
  by_cases h : other = target
  · rw [if_pos h, if_pos (by rw [h]; exact Std.ReflCmp.compare_self)]
  · rw [if_neg h, if_neg fun hc => h (Std.LawfulEqCmp.eq_of_compare hc)]

omit L in
theorem put_put : (d.put target v).put target w = d.put target w := by
  refine congrArg Document.mk (Table.ext_get? fun t => ?_)
  show ((d.put target v).put target w).get? t = (d.put target w).get? t
  simp only [get?_put]
  split <;> rfl

omit L in
theorem view_put (σ : Schema) (d : Document) (target other : ObjectId) (v : ObjectValue) :
    (d.put target v).view σ other = if other = target then v else d.view σ other := by
  rw [view, get?_put, view]
  split <;> rfl

omit L in
theorem view_put_self (σ : Schema) (d : Document) (target : ObjectId) (v : ObjectValue) :
    (d.put target v).view σ target = v := by
  rw [view_put, if_pos rfl]

omit L in
theorem view_put_of_ne (σ : Schema) (d : Document) {target other : ObjectId} (v : ObjectValue)
    (h : other ≠ target) : (d.put target v).view σ other = d.view σ other := by
  rw [view_put, if_neg h]

theorem applyOne_eq_ok : d.applyOne c = .ok d' ↔
    ∃ v, c.op.apply (d.found c) = .ok v ∧ d' = d.put c.target v := by
  unfold applyOne
  cases h : c.op.apply (d.found c) with
  | ok v => simp [put, eq_comm]
  | error e => simp

theorem applyComponents_cons_eq_ok {cs : List TargetedOp} :
    d.applyComponents (c :: cs) = .ok e ↔ ∃ d', d.applyOne c = .ok d' ∧ d'.applyComponents cs = .ok e := by
  unfold applyComponents
  rw [List.foldlM_cons, bind_eq_ok]

omit L in
/-- An operation that fits finds the object of the view. -/
theorem found_eq_view (hf : c.op.shape = σ c.target) : d.found c = d.view σ c.target := by
  rw [found, view, Shape.emptyFor_eq, hf]

theorem apply_view (hf : c.op.shape = σ c.target) : d.applyOne c = .ok d' ↔
    ∃ v, c.op.apply (d.view σ c.target) = .ok v ∧ d' = d.put c.target v := by
  rw [applyOne_eq_ok, found_eq_view hf]

theorem Same.symm (h : d.Same σ e) : e.Same σ d := fun t => (σ t).calculus.symm (h t)

theorem Same.trans (h : d.Same σ e) (h' : e.Same σ e') : d.Same σ e' := fun t => (σ t).calculus.trans (h t) (h' t)

/-- So many elements may be added to every object of the document, or to a new one. -/
structure HasRoom (d : Document) (n : Nat) : Prop where
  created : L.arithmetic.Fits n
  kept : ∀ target v, d.get? target = some v → L.arithmetic.Fits (v.length + n)

theorem HasRoom.room (h : d.HasRoom n) (hd : d.Same σ d) : d.Room σ n := by
  intro t
  refine Shape.room_of_fits (hd t) ?_
  unfold view
  cases hv : d.get? t with
  | some v => exact h.kept t v hv
  | none =>
    have he : (σ t).empty.length = 0 := by cases σ t <;> rfl
    rw [Option.getD_none, he, Nat.zero_add]
    exact h.created

theorem same_empty (σ : Schema) : Document.empty.Same σ .empty := fun t => Shape.same_empty (σ t)

theorem room_empty (σ : Schema) (h : L.arithmetic.Fits n) : Document.empty.Room σ n :=
  HasRoom.room ⟨h, by simp [get?, empty]⟩ (same_empty σ)

theorem Room.le {m : Nat} (h : d.Room σ n) (hm : m ≤ n) : d.Room σ m := fun t => (σ t).calculus.room_le (h t) hm

theorem Same.room (h : d.Same σ e) (hd : d.Room σ n) : e.Room σ n := fun t => (σ t).calculus.room_same (h t) (hd t)

/-- Replacing one object by equal ones keeps documents the same. -/
theorem Same.put (h : d.Same σ e) (hv : (σ target).calculus.Same v w) : (d.put target v).Same σ (e.put target w) := by
  intro t
  rw [view_put, view_put]
  split
  next ht => rwa [ht]
  next => exact h t

end Document

namespace TargetedOp

variable [L : Lengths]

/-- Transforms operations on one object; those on different objects pass each other unchanged. -/
def transform (server client : TargetedOp) : Except TransformFault (TargetedOp × TargetedOp) :=
  if server.target = client.target then
    (server.op.transform client.op).map fun p => ({ server with op := p.1 }, { client with op := p.2 })
  else .ok (server, client)

/-- Folds an operation into an earlier one on the same object. -/
def compose (first second : TargetedOp) : Except ComposeFault TargetedOp :=
  (first.op.compose second.op).map fun op => { first with op }

instance : Operation TargetedOp Document where
  apply c d := d.applyOne c
  compose := compose
  transform := transform
  invert c := { c with op := c.op.invert }
  isNoop c := c.op.isNoop
  canCompose a b := !Composite.passes a b

variable {σ : Schema} {a b s c : TargetedOp} {d d' e e' : Document} {n : Nat}

/-- The operation fits the shape of its target, and its lengths fit. -/
structure Fits (σ : Schema) (c : TargetedOp) : Prop where
  shape : c.op.shape = σ c.target
  lengths : c.op.Fits

theorem Fits.fit (h : c.Fits σ) : (σ c.target).calculus.Fit c.op := Shape.fit_iff.2 ⟨h.shape, h.lengths⟩

theorem fits_of_fit {target : ObjectId} {op : ObjectOp} (h : (σ target).calculus.Fit op) : Fits σ ⟨target, op⟩ :=
  ⟨(Shape.fit_iff.1 h).1, (Shape.fit_iff.1 h).2⟩

/-- An operation takes no more room than it inserts. -/
theorem apply_room (hf : c.Fits σ) (hd : d.Same σ d) (hr : d.Room σ (c.op.insertLength + n))
    (h : d.applyOne c = .ok d') : d'.Room σ n := by
  obtain ⟨v, hv, rfl⟩ := (Document.apply_view hf.shape).1 h
  intro t
  rw [Document.view_put]
  split
  next ht =>
    subst ht
    exact (σ c.target).calculus.room_apply hf.fit (hd c.target) (by simpa using hr c.target) hv
  next => exact (σ t).calculus.room_le (hr t) (Nat.le_add_left ..)

/-- Equal documents have equal results. -/
theorem apply_same (hf : c.Fits σ) (hs : d.Same σ e) (h : d.applyOne c = .ok d') :
    ∃ e', e.applyOne c = .ok e' ∧ d'.Same σ e' := by
  obtain ⟨v, hv, rfl⟩ := (Document.apply_view hf.shape).1 h
  obtain ⟨w, hw, hvw⟩ := (σ c.target).calculus.apply_same hf.fit (hs c.target) hv
  exact ⟨e.put c.target w, (Document.apply_view hf.shape).2 ⟨w, hw, rfl⟩, hs.put hvw⟩

/-- Operations on different objects may be made in either order. -/
theorem apply_apart (ht : a.target ≠ b.target) (ha : a.Fits σ) (hb : b.Fits σ) (h : d.Same σ d)
    (hd : d.applyOne a = .ok d') (he : d.applyOne b = .ok e) :
    ∃ x x', d'.applyOne b = .ok x ∧ e.applyOne a = .ok x' ∧ x.Same σ x' := by
  obtain ⟨v, hv, rfl⟩ := (Document.apply_view ha.shape).1 hd
  obtain ⟨w, hw, rfl⟩ := (Document.apply_view hb.shape).1 he
  refine ⟨_, _, (Document.apply_view hb.shape).2 ⟨w, ?_, rfl⟩, (Document.apply_view ha.shape).2 ⟨v, ?_, rfl⟩,
    fun t => ?_⟩
  · rwa [Document.view_put_of_ne σ d v (Ne.symm ht)]
  · rwa [Document.view_put_of_ne σ d w ht]
  · have hva := Calculus.right ((Calculus.maps_of_apply ha.fit (h a.target) hv).right)
    have hwb := Calculus.right ((Calculus.maps_of_apply hb.fit (h b.target) hw).right)
    simp only [Document.view_put]
    by_cases hta : t = a.target
    · subst hta
      simpa only [ht, if_true, if_false] using hva
    · by_cases htb : t = b.target
      · subst htb
        simpa only [Ne.symm ht, if_true, if_false] using hwb
      · simpa only [hta, htb, if_false] using h t

/-- Operations on one object are transformed as that object's are. -/
theorem apply_transform (ht : s.target = c.target) (hs : s.Fits σ) (hc : c.Fits σ) (h : d.Same σ d)
    (hr : d.Room σ (s.op.insertLength + c.op.insertLength)) (hd : d.applyOne s = .ok d') (he : d.applyOne c = .ok e) :
    ∃ s' c', s.transform c = .ok (s', c') ∧ (s'.Fits σ ∧ s'.op.insertLength ≤ s.op.insertLength) ∧
      (c'.Fits σ ∧ c'.op.insertLength ≤ c.op.insertLength) ∧
      ∃ x x', d'.applyOne c' = .ok x ∧ e.applyOne s' = .ok x' ∧ x.Same σ x' := by
  obtain ⟨target, sop⟩ := s
  obtain ⟨_, cop⟩ := c
  obtain rfl : target = _ := ht
  obtain ⟨v, hv, rfl⟩ := (Document.apply_view hs.shape).1 hd
  obtain ⟨w, hw, rfl⟩ := (Document.apply_view hc.shape).1 he
  obtain ⟨s', c', hp, ⟨hs', hks⟩, ⟨hc', hkc⟩, z, z', hz, hz', hzz⟩ :=
    (σ target).calculus.square hs.fit hc.fit (h target) (by simpa using hr target) hv hw
  have hs' := fits_of_fit hs'
  have hc' := fits_of_fit hc'
  refine ⟨⟨target, s'⟩, ⟨target, c'⟩, ?_, ⟨hs', by simpa using hks⟩, ⟨hc', by simpa using hkc⟩, _, _,
    (Document.apply_view hc'.shape).2 ⟨z, ?_, rfl⟩, (Document.apply_view hs'.shape).2 ⟨z', ?_, rfl⟩, ?_⟩
  · have hp : sop.transform cop = .ok (s', c') := hp
    rw [transform, if_pos rfl, hp]
    rfl
  · rw [Document.view_put_self]
    exact hz
  · rw [Document.view_put_self]
    exact hz'
  · intro t
    simp only [Document.view_put]
    by_cases ht : t = target
    · subst ht
      simpa only [if_true] using hzz
    · simpa only [ht, if_false] using h t

def calculus (σ : Schema) : Calculus TargetedOp Document where
  Fit := Fits σ
  Same := Document.Same σ
  Joins a b := a.target = b.target ∧ (σ a.target).calculus.Joins a.op b.op
  cost c := c.op.insertLength
  Room n d := d.Room σ n
  symm := Document.Same.symm
  trans := Document.Same.trans
  room_le := Document.Room.le
  room_same := Document.Same.room
  room_apply := apply_room
  apply_same := apply_same
  square := by
    intro s c d x y hs hc h hr hx hy
    by_cases ht : s.target = c.target
    · exact apply_transform ht hs hc h hr hx hy
    · exact ⟨s, c, if_neg ht, ⟨hs, Nat.le_refl _⟩, ⟨hc, Nat.le_refl _⟩, apply_apart ht hs hc h hx hy⟩
  join := by
    rintro ⟨target, a⟩ ⟨_, b⟩ x y z ⟨rfl, hj⟩ ha hb h hy hz
    obtain ⟨v, hv, rfl⟩ := (Document.apply_view ha.shape).1 hy
    obtain ⟨w, hw, rfl⟩ := (Document.apply_view hb.shape).1 hz
    rw [Document.view_put_self] at hw
    obtain ⟨op, hc, ⟨hop, hk⟩, w', hw', hs⟩ := (σ target).calculus.join hj ha.fit hb.fit (h target) hv hw
    have hop := fits_of_fit hop
    refine ⟨⟨target, op⟩, ?_, ⟨hop, by simpa using hk⟩, _, (Document.apply_view hop.shape).2 ⟨w', hw', rfl⟩, fun t => ?_⟩
    · have hc : a.compose b = .ok op := hc
      show (a.compose b).map _ = _
      rw [hc]
      rfl
    · simp only [Document.view_put]
      by_cases ht : t = target
      · subst ht
        simpa only [if_true] using hs
      · simpa only [ht, if_false] using h t
  noop := by
    intro c x y hc hn h hy
    obtain ⟨v, hv, rfl⟩ := (Document.apply_view hc.shape).1 hy
    have hs := (σ c.target).calculus.noop hc.fit hn (h c.target) hv
    intro t
    rw [Document.view_put]
    split
    next ht => rwa [ht]
    next => exact h t

/-! ## Components that pass each other -/

theorem apply_swap {x y z : Document} (hp : Composite.passes a b = true) (ha : a.Fits σ) (hb : b.Fits σ)
    (h : x.Same σ x) (hy : x.applyOne a = .ok y) (hz : y.applyOne b = .ok z) :
    ∃ w z', x.applyOne b = .ok w ∧ w.applyOne a = .ok z' ∧ z'.Same σ z := by
  have hyy := (Calculus.maps_of_apply (K := calculus σ) ha h hy).right
  have hzz := (Calculus.maps_of_apply (K := calculus σ) hb hyy hz).right
  obtain ⟨v, hv, rfl⟩ := (Document.apply_view ha.shape).1 hy
  obtain ⟨w, hw, rfl⟩ := (Document.apply_view hb.shape).1 hz
  by_cases ht : a.target = b.target
  · have hi : a.op.isIndependent b.op = true := by simpa [Composite.passes, ht] using hp
    rw [← ht, Document.view_put_self] at hw
    obtain ⟨u, hu, hau⟩ := Shape.swap_of_isIndependent hi hv hw
    refine ⟨x.put b.target u, _, (Document.apply_view hb.shape).2 ⟨u, by rwa [← ht], rfl⟩,
      (Document.apply_view ha.shape).2 ⟨w, ?_, rfl⟩, fun t => ?_⟩
    · rwa [ht, Document.view_put_self]
    · have he : ((x.put b.target u).put a.target w).view σ t = ((x.put a.target v).put b.target w).view σ t := by
        simp only [Document.view_put, ht]
        split <;> rfl
      rw [he]
      exact hzz t
  · rw [Document.view_put_of_ne σ x v (Ne.symm ht)] at hw
    have hx := (Document.apply_view hb.shape).2 ⟨w, hw, rfl⟩
    obtain ⟨z₁, z', hz₁, hz', hs⟩ := apply_apart ht ha hb h hy hx
    obtain rfl := Except.ok.inj (hz.symm.trans hz₁)
    exact ⟨_, z', hx, hz', hs.symm⟩

/-- Components that pass each other may change places. -/
theorem maps_swap {x y z : Document} (hp : Composite.passes a b = true) (ha : (calculus σ).Maps a x y)
    (hb : (calculus σ).Maps b y z) : ∃ w, (calculus σ).Maps b x w ∧ (calculus σ).Maps a w z := by
  obtain ⟨hfa, hx, y', hy', hyy⟩ := ha
  obtain ⟨hfb, _, z', hz', hzz⟩ := hb.congr ((calculus σ).symm hyy) hb.right
  obtain ⟨w, z'', hw, hz'', hs⟩ := apply_swap hp hfa hfb hx hy' hz'
  have hbw := Calculus.maps_of_apply (K := calculus σ) hfb hx hw
  exact ⟨w, hbw, hfa, hbw.right, z'', hz'', hs.trans hzz⟩

theorem joins_of_not_passes (hp : Composite.passes a b = false) (ha : a.Fits σ) (hb : b.Fits σ) :
    (calculus σ).Joins a b := by
  have hp : a.target = b.target ∧ a.op.isIndependent b.op = false := by simpa [Composite.passes] using hp
  exact ⟨hp.1, Shape.joins_of_not_isIndependent ha.fit (by rw [hp.1]; exact hb.fit) hp.2⟩

/-- Transforming changes nothing about components that pass each other. -/
theorem transform_of_passes (hp : Composite.passes s c = true) : s.transform c = .ok (s, c) := by
  by_cases ht : s.target = c.target
  · have hi : s.op.isIndependent c.op = true := by simpa [Composite.passes, ht] using hp
    rw [transform, if_pos ht, Shape.transform_of_isIndependent hi]
    rfl
  · rw [transform, if_neg ht]

end TargetedOp
end Coedit
