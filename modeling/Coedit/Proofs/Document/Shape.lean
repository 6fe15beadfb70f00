import Coedit.Json.Equality
import Coedit.Object
import Coedit.Proofs.Sequence.Composition

/-!
# The calculus of objects of one shape

The shape of an object is its kind and, for a reference, all that shifts never change: the object referred to and
the flag.  Operations on objects of one shape obey the laws of a calculus.

* `MapUpdate.calculus`, `Shift.calculus` — the laws for map updates and for shifts;
* `Shape.calculus` — the laws for the objects of one shape.
-/

namespace Coedit

instance equivBEqOption {α : Type} [BEq α] [EquivBEq α] : EquivBEq (Option α) where
  symm {a b} h := by
    match a, b, h with
    | none, none, _ => rfl
    | some a, some b, h => exact BEq.symm (α := α) h
  trans {a b c} h h' := by
    match a, b, c, h, h' with
    | none, none, none, _, _ => rfl
    | some a, some b, some c, h, h' => exact BEq.trans (α := α) h h'

/-! ## Maps -/

def MapContent.Alike (m n : MapContent) : Prop := ∀ k, (m.get? k == n.get? k) = true

namespace MapUpdate

variable {u v a b s c : MapUpdate} {m m' n : MapContent} {k : String}

theorem present?_beq (v w : Value) : (present? v == present? w) = (v == w) := by
  have null_beq : ∀ j : Json, (Json.null == j) = true ↔ j = .null := by
    intro j
    cases j <;> simp [BEq.beq, Json.beq]
  have isNull_iff : ∀ v : Value, v.isNull = true ↔ v.json = .null := by
    intro v
    unfold Value.isNull
    split <;> simp_all
  unfold present?
  cases hv : v.isNull with
  | true =>
    have hv := (isNull_iff v).1 hv
    cases hw : w.isNull with
    | true => simp [Value.beq_def, hv, (isNull_iff w).1 hw]
    | false =>
      have hne : (v == w) = false := by
        rw [Bool.eq_false_iff]
        intro h
        rw [Value.beq_def, hv, null_beq, ← isNull_iff, hw] at h
        cases h
      rw [hne]
      rfl
  | false =>
    cases hw : w.isNull with
    | true =>
      have hne : (v == w) = false := by
        rw [Bool.eq_false_iff]
        intro h
        have h := BEq.symm h
        rw [Value.beq_def, (isNull_iff w).1 hw, null_beq, ← isNull_iff, hv] at h
        cases h
      rw [hne]
      rfl
    | false => rfl

/-- The content after an update that applies. -/
def write (u : MapUpdate) (m : MapContent) : MapContent :=
  match u.new? with
  | some v => m.insert u.key v
  | none => m.erase u.key

theorem apply_eq_ok : u.apply m = .ok n ↔ (m.get? u.key == u.old?) = true ∧ n = u.write m := by
  unfold apply
  by_cases h : (m.get? u.key == u.old?) = true
  · rw [if_pos h]
    exact ⟨fun hm => ⟨h, (Except.ok.inj hm).symm⟩, fun hm => congrArg _ hm.2.symm⟩
  · rw [if_neg h]
    exact ⟨nofun, fun hm => absurd hm.1 h⟩

theorem get?_write (u : MapUpdate) (m : MapContent) (k : String) :
    (u.write m).get? k = if k = u.key then u.new? else m.get? k := by
  unfold write
  cases hn : u.new? with
  | none => simp [Table.get?_erase]
  | some v => simp [Table.get?_insert]

theorem get?_write_self (u : MapUpdate) (m : MapContent) : (u.write m).get? u.key = u.new? := by
  rw [get?_write, if_pos rfl]

theorem get?_write_of_ne (h : k ≠ u.key) (m : MapContent) : (u.write m).get? k = m.get? k := by
  rw [get?_write, if_neg h]

/-- Updates with equal new values keep contents alike. -/
theorem write_alike (hm : MapContent.Alike m n) (hk : u.key = v.key) (hn : (u.new == v.new) = true) :
    MapContent.Alike (u.write m) (v.write n) := by
  intro k
  rw [get?_write, get?_write, hk]
  split
  · rwa [new?, new?, present?_beq]
  · exact hm k

/-- Updates of different keys may be made in either order. -/
theorem swap (hk : u.key ≠ v.key) (hu : u.apply m = .ok m') (hv : v.apply m' = .ok n) :
    ∃ w, v.apply m = .ok w ∧ u.apply w = .ok n := by
  obtain ⟨ho, rfl⟩ := apply_eq_ok.1 hu
  obtain ⟨ho', rfl⟩ := apply_eq_ok.1 hv
  rw [get?_write_of_ne (Ne.symm hk)] at ho'
  refine ⟨v.write m, apply_eq_ok.2 ⟨ho', rfl⟩, apply_eq_ok.2 ⟨by rwa [get?_write_of_ne hk], ?_⟩⟩
  refine Table.ext_get? fun k => ?_
  simp only [get?_write]
  by_cases h : k = u.key
  · simp only [h, hk, if_true, if_false]
  · simp only [h, if_false]

/-- Two updates of one content can be transformed, and either order has the same result. -/
theorem apply_transform (hs : s.apply m = .ok m') (hc : c.apply m = .ok n) :
    ∃ s' c' w w', s.transform c = .ok (s', c') ∧ c'.apply m' = .ok w ∧ s'.apply n = .ok w' ∧
      MapContent.Alike w w' := by
  by_cases hk : s.key = c.key
  · obtain ⟨hos, rfl⟩ := apply_eq_ok.1 hs
    obtain ⟨hoc, rfl⟩ := apply_eq_ok.1 hc
    have ho : (s.old == c.old) = true := by
      rw [← present?_beq]
      rw [hk] at hos
      exact BEq.trans (BEq.symm hos) hoc
    refine ⟨_, _, _, _, by rw [transform, if_neg (by simp [hk]), if_pos ho], apply_eq_ok.2 ⟨?_, rfl⟩,
      apply_eq_ok.2 ⟨?_, rfl⟩, ?_⟩
    · rw [← hk, get?_write_self]
      exact BEq.rfl
    · rw [hk, get?_write_self]
      exact BEq.rfl
    · -- both ways round the client's value is the one written last
      intro k
      simp only [get?_write, new?, hk]
      split <;> exact BEq.rfl
  · -- each is made after the other as it is
    obtain ⟨hos, rfl⟩ := apply_eq_ok.1 hs
    have hc' : c.apply (s.write m) = .ok (c.write (s.write m)) := by
      rw [apply_eq_ok, get?_write_of_ne (Ne.symm hk)]
      exact ⟨(apply_eq_ok.1 hc).1, rfl⟩
    obtain ⟨w, hw, hs'⟩ := swap hk hs hc'
    obtain rfl := Except.ok.inj (hc.symm.trans hw)
    exact ⟨s, c, _, _, by rw [transform, if_pos (by simp [hk])], hc', hs', fun k => BEq.rfl⟩

/-- Two updates of one key in turn can be composed. -/
theorem apply_compose (hk : a.key = b.key) (ha : a.apply m = .ok m') (hb : b.apply m' = .ok n) :
    ∃ u w, a.compose b = .ok u ∧ u.apply m = .ok w ∧ MapContent.Alike w n := by
  obtain ⟨hoa, rfl⟩ := apply_eq_ok.1 ha
  obtain ⟨hob, rfl⟩ := apply_eq_ok.1 hb
  rw [← hk, get?_write_self, new?, old?, present?_beq] at hob
  refine ⟨⟨a.key, a.old, b.new⟩, _, by rw [compose, if_neg (by simp [hk]), if_pos hob], apply_eq_ok.2 ⟨hoa, rfl⟩,
    fun k => ?_⟩
  simp only [get?_write, new?, hk]
  split <;> exact BEq.rfl

/-- An update that writes what it expects changes nothing. -/
theorem alike_of_isNoop (hn : u.isNoop = true) (h : u.apply m = .ok n) : MapContent.Alike m n := by
  obtain ⟨ho, rfl⟩ := apply_eq_ok.1 h
  intro k
  rw [get?_write]
  split
  next hk =>
    rw [hk]
    exact BEq.trans ho ((present?_beq u.old u.new).trans hn)
  next => exact BEq.rfl

/-- The calculus of map updates, which take no room. -/
def calculus : Calculus MapUpdate MapContent where
  Fit _ := True
  Same := MapContent.Alike
  Joins a b := a.key = b.key
  cost _ := 0
  Room _ _ := True
  room_le _ _ := trivial
  room_same _ _ := trivial
  room_apply _ _ _ _ := trivial
  symm h k := BEq.symm (h k)
  trans h h' k := BEq.trans (h k) (h' k)
  apply_same := by
    intro u m m' n _ hmn hm
    obtain ⟨ho, rfl⟩ := apply_eq_ok.1 hm
    exact ⟨u.write n, apply_eq_ok.2 ⟨BEq.trans (BEq.symm (hmn u.key)) ho, rfl⟩, write_alike hmn rfl BEq.rfl⟩
  square := by
    intro s c m m' n _ _ _ _ hs hc
    obtain ⟨s', c', w, w', ht, hw, hw', h⟩ := apply_transform hs hc
    exact ⟨s', c', ht, ⟨trivial, Nat.le_refl _⟩, ⟨trivial, Nat.le_refl _⟩, w, w', hw, hw', h⟩
  join := by
    intro a b m m' n hk _ _ _ ha hb
    obtain ⟨u, w, hc, hw, h⟩ := apply_compose hk ha hb
    exact ⟨u, hc, ⟨trivial, Nat.le_refl _⟩, w, hw, h⟩
  noop := fun _ hn _ h => alike_of_isNoop hn h

end MapUpdate

/-! ## References -/

namespace Shift

variable {s c a b : Shift} {r r' : IndexReference}

theorem apply_eq_ok : s.apply r = .ok r' ↔
    r.object = s.object ∧ r.index = s.old ∧ r' = ⟨r.object, s.new, s.canBeDeleted⟩ := by
  unfold apply
  by_cases ho : r.object = s.object
  · by_cases hi : r.index = s.old
    · simp [ho, hi, eq_comm]
    · simp [ho, hi]
  · simp [ho]

theorem transform_eq_ok (ho : s.object = c.object) (hi : s.old = c.old) :
    s.transform c =
      .ok (⟨s.object, c.new, c.new, c.canBeDeleted⟩, ⟨c.object, s.new, c.new, c.canBeDeleted⟩) := by
  rw [transform, if_neg (by simp [ho]), if_neg (by simp [hi])]

theorem compose_eq_ok (ho : a.object = b.object) (hi : a.new = b.old) :
    a.compose b = .ok ⟨a.object, a.old, b.new, b.canBeDeleted⟩ := by
  rw [compose, if_neg (by simp [ho]), if_neg (by simp [hi])]

theorem isNoop_iff : s.isNoop = true ↔ s.old = s.new := by simp [isNoop]

/-- The calculus of shifts of references to one object that agree on the flag. They take no room. -/
def calculus (object : ObjectId) (canBeDeleted : Bool) : Calculus Shift IndexReference where
  Fit s := s.object = object ∧ s.canBeDeleted = canBeDeleted
  Same r r' := r = r' ∧ r.object = object ∧ r.canBeDeleted = canBeDeleted
  Joins _ _ := True
  cost _ := 0
  Room _ _ := True
  room_le _ _ := trivial
  room_same _ _ := trivial
  room_apply _ _ _ _ := trivial
  symm := by
    rintro r _ ⟨rfl, hr⟩
    exact ⟨rfl, hr⟩
  trans := by
    rintro r _ _ ⟨rfl, hr⟩ ⟨rfl, _⟩
    exact ⟨rfl, hr⟩
  apply_same := by
    rintro s r r' _ ⟨_, hf⟩ ⟨rfl, hr, _⟩ h
    obtain ⟨_, _, rfl⟩ := apply_eq_ok.1 h
    exact ⟨_, h, rfl, hr, hf⟩
  square := by
    rintro s c r _ _ ⟨hs, hsf⟩ ⟨hc, hcf⟩ ⟨_, hr, _⟩ - h h'
    obtain ⟨_, hs₀, rfl⟩ := apply_eq_ok.1 h
    obtain ⟨_, hc₀, rfl⟩ := apply_eq_ok.1 h'
    exact ⟨_, _, transform_eq_ok (hs.trans hc.symm) (hs₀.symm.trans hc₀), ⟨⟨hs, hcf⟩, Nat.le_refl _⟩,
      ⟨⟨hc, hcf⟩, Nat.le_refl _⟩, _, _,
      apply_eq_ok.2 ⟨hr.trans hc.symm, rfl, rfl⟩, apply_eq_ok.2 ⟨hr.trans hs.symm, rfl, rfl⟩, rfl, hr, hcf⟩
  join := by
    rintro a b r _ _ - ⟨ha, _⟩ ⟨hb, hbf⟩ ⟨_, hr, _⟩ h h'
    obtain ⟨_, ha₀, rfl⟩ := apply_eq_ok.1 h
    obtain ⟨_, hb₀, rfl⟩ := apply_eq_ok.1 h'
    exact ⟨_, compose_eq_ok (ha.trans hb.symm) hb₀, ⟨⟨ha, hbf⟩, Nat.le_refl _⟩, _, apply_eq_ok.2 ⟨hr.trans ha.symm, ha₀, rfl⟩,
      rfl, hr, hbf⟩
  noop := by
    rintro s r _ ⟨_, hf⟩ hn ⟨_, hr, hrf⟩ h
    obtain ⟨_, hi, rfl⟩ := apply_eq_ok.1 h
    refine ⟨?_, hr, hrf⟩
    rw [← isNoop_iff.1 hn, ← hi, hf, ← hrf]

end Shift

/-! ## Objects -/

/-- The kind of an object and, for a reference, what shifts never change. -/
inductive Shape where
  | text
  | list
  | map
  | reference (object : ObjectId) (canBeDeleted : Bool)
  deriving DecidableEq

def ObjectOp.shape : ObjectOp → Shape
  | .text _ => .text
  | .list _ => .list
  | .map _ => .map
  | .reference s => .reference s.object s.canBeDeleted

/-- The edit of a text or a list is in normal form, and its lengths fit. -/
def ObjectOp.Fits [Lengths] : ObjectOp → Prop
  | .text e => e.Fits
  | .list e => e.Fits
  | _ => True

instance [Lengths] : (op : ObjectOp) → Decidable op.Fits
  | .text e => inferInstanceAs (Decidable e.Fits)
  | .list e => inferInstanceAs (Decidable e.Fits)
  | .map _ => isTrue trivial
  | .reference _ => isTrue trivial

/-- Elements that the operation adds to a text or a list. -/
def ObjectOp.insertLength : ObjectOp → Nat
  | .text e => e.insertLength
  | .list e => e.insertLength
  | _ => 0

def ObjectValue.length : ObjectValue → Nat
  | .text s => s.length
  | .list l => l.length
  | _ => 0

def ObjectValue.shape : ObjectValue → Shape
  | .text _ => .text
  | .list _ => .list
  | .map _ => .map
  | .reference r => .reference r.object r.canBeDeleted

namespace Shape

def empty : Shape → ObjectValue
  | .text => .text []
  | .list => .list []
  | .map => .map .empty
  | .reference object canBeDeleted => .reference (.unset object canBeDeleted)

variable [L : Lengths]

theorem isKind_text : IsKind ObjectOp.text ObjectValue.text := {}

theorem isKind_list : IsKind ObjectOp.list ObjectValue.list := {}

theorem isKind_map : IsKind ObjectOp.map ObjectValue.map := {}

theorem isKind_reference : IsKind ObjectOp.reference ObjectValue.reference := {}

def calculus : Shape → Calculus ObjectOp ObjectValue
  | .text => (Edit.calculus Char).embed isKind_text ObjectOp.insertLength fun _ => rfl
  | .list => (Edit.calculus Value).embed isKind_list ObjectOp.insertLength fun _ => rfl
  | .map => MapUpdate.calculus.embed isKind_map ObjectOp.insertLength fun _ => rfl
  | .reference object canBeDeleted =>
    (Shift.calculus object canBeDeleted).embed isKind_reference ObjectOp.insertLength fun _ => rfl

variable {σ : Shape} {a b op : ObjectOp} {v w x : ObjectValue} {n : Nat}

@[simp] theorem cost_eq (op : ObjectOp) : σ.calculus.cost op = op.insertLength := by
  cases σ <;> rfl

/-- The operations of a shape whose lengths fit are those of interest. -/
theorem fit_iff : σ.calculus.Fit op ↔ op.shape = σ ∧ op.Fits := by
  constructor
  · intro h
    cases σ with
    | text =>
      obtain ⟨e, rfl, hf⟩ := h
      exact ⟨rfl, hf⟩
    | list =>
      obtain ⟨e, rfl, hf⟩ := h
      exact ⟨rfl, hf⟩
    | map =>
      obtain ⟨u, rfl, _⟩ := h
      exact ⟨rfl, trivial⟩
    | reference object canBeDeleted =>
      obtain ⟨s, rfl, rfl, rfl⟩ := h
      exact ⟨rfl, trivial⟩
  · rintro ⟨rfl, hf⟩
    cases op with
    | text e => exact ⟨e, rfl, hf⟩
    | list e => exact ⟨e, rfl, hf⟩
    | map u => exact ⟨u, rfl, trivial⟩
    | reference s => exact ⟨s, rfl, rfl, rfl⟩

/-- An object has room for what fits. -/
theorem room_of_fits (hs : σ.calculus.Same v v) (hf : L.arithmetic.Fits (v.length + n)) : σ.calculus.Room n v := by
  cases σ with
  | text =>
    obtain ⟨s, _, rfl, _, _⟩ := hs
    exact ⟨s, rfl, hf⟩
  | list =>
    obtain ⟨l, _, rfl, _, _⟩ := hs
    exact ⟨l, rfl, hf⟩
  | map =>
    obtain ⟨m, _, rfl, _, _⟩ := hs
    exact ⟨m, rfl, trivial⟩
  | reference object canBeDeleted =>
    obtain ⟨r, _, rfl, _, _⟩ := hs
    exact ⟨r, rfl, trivial⟩

/-- The objects of a shape are states of its calculus. -/
theorem same_self (v : ObjectValue) : v.shape.calculus.Same v v := by
  cases v with
  | text s => exact ⟨s, s, rfl, rfl, .refl s⟩
  | list l => exact ⟨l, l, rfl, rfl, .refl l⟩
  | map m => exact ⟨m, m, rfl, rfl, fun _ => BEq.rfl⟩
  | reference r => exact ⟨r, r, rfl, rfl, rfl, rfl, rfl⟩

omit L in
theorem shape_empty (σ : Shape) : σ.empty.shape = σ := by
  cases σ <;> rfl

theorem same_empty (σ : Shape) : σ.calculus.Same σ.empty σ.empty := by
  have h := same_self σ.empty
  rwa [shape_empty] at h

omit L in
theorem emptyFor_eq (op : ObjectOp) : ObjectValue.emptyFor op = op.shape.empty := by
  cases op <;> rfl

/-- What is folded into one component of an edit can be composed. -/
theorem joins_of_not_isIndependent (ha : σ.calculus.Fit a) (hb : σ.calculus.Fit b)
    (h : a.isIndependent b = false) : σ.calculus.Joins a b := by
  cases σ with
  | text =>
    obtain ⟨e, rfl, _⟩ := ha
    obtain ⟨e', rfl, _⟩ := hb
    exact ⟨e, e', rfl, rfl, trivial⟩
  | list =>
    obtain ⟨e, rfl, _⟩ := ha
    obtain ⟨e', rfl, _⟩ := hb
    exact ⟨e, e', rfl, rfl, trivial⟩
  | map =>
    obtain ⟨u, rfl, _⟩ := ha
    obtain ⟨u', rfl, _⟩ := hb
    have hk : u.key = u'.key := by simpa [ObjectOp.isIndependent] using h
    exact ⟨u, u', rfl, rfl, hk⟩
  | reference object canBeDeleted =>
    obtain ⟨s, rfl, _⟩ := ha
    obtain ⟨s', rfl, _⟩ := hb
    exact ⟨s, s', rfl, rfl, trivial⟩

/-- What is independent may be made in either order. -/
theorem swap_of_isIndependent (h : a.isIndependent b = true) (ha : a.apply v = .ok w) (hb : b.apply w = .ok x) :
    ∃ w', b.apply v = .ok w' ∧ a.apply w' = .ok x := by
  unfold ObjectOp.isIndependent at h
  split at h
  next u u' =>
    cases v with
    | map m =>
      obtain ⟨m', hm, rfl⟩ := map_eq_ok.1 ha
      obtain ⟨n, hn, rfl⟩ := map_eq_ok.1 hb
      obtain ⟨n', hn', hw⟩ := MapUpdate.swap (by simpa using h) hm hn
      exact ⟨.map n', map_eq_ok.2 ⟨n', hn', rfl⟩, map_eq_ok.2 ⟨n, hw, rfl⟩⟩
    | text s => cases ha
    | list l => cases ha
    | reference r => cases ha
  next => cases h

/-- Independent operations are not changed by `transform`. -/
theorem transform_of_isIndependent (h : a.isIndependent b = true) : a.transform b = .ok (a, b) := by
  unfold ObjectOp.isIndependent at h
  split at h
  next u u' => rw [ObjectOp.transform, MapUpdate.transform, if_pos h]; rfl
  next => cases h

end Shape
end Coedit
