import Coedit.Json.Equality
import Coedit.Proofs.Sequence.Inserting
import Mathlib.Data.List.Forall2

/-!
# Carrying components out

What a component list does to a value, read off the list from left to right and told apart from how
`Edit.apply` computes it.  Values are taken up to equality of their elements, which for texts is identity
and for lists JSON equality.  A cursor that moves over the value carries the components out and looks at no more than
the one at hand, where `Edit.apply` adds up all lengths first and cuts the value into runs.

* `Alike v w` — the values have equal elements;
* `Carries cs v w` — carried out over `v` the components `cs` use up all of it and yield `w`;
* `carries_normalize` — the normal form of a list does what the list does;
* `Component.carryOut`, `Component.carries_iff_carryOut` — the cursor, which does what can be done;
* `Edit.toOption_apply` — an edit other than the identity, whose length fits, gives what the cursor gives for its
  components;
* `Edit.maps_iff` — it applies exactly where its components can be carried out.
-/

namespace Coedit

variable {α : Type}

/-! ## Values with equal elements -/

section alike
variable [BEq α]

/-- The values agree element by element. -/
def Alike (v w : List α) : Prop := List.Forall₂ (fun a b => (a == b) = true) v w

theorem alike_iff_beq {v w : List α} : Alike v w ↔ (v == w) = true := by
  induction v generalizing w with
  | nil => cases w <;> simp [Alike]
  | cons a v ih =>
    cases w with
    | nil => simp [Alike]
    | cons b w =>
      have h := ih (w := w)
      unfold Alike at h ⊢
      rw [List.forall₂_cons, h, List.cons_beq_cons, Bool.and_eq_true]

theorem Alike.length_eq {v w : List α} (h : Alike v w) : v.length = w.length := List.Forall₂.length_eq h

theorem Alike.append {v v' w w' : List α} (h : Alike v w) (h' : Alike v' w') : Alike (v ++ v') (w ++ w') :=
  List.rel_append h h'

theorem Alike.take {v w : List α} (h : Alike v w) (n : Nat) : Alike (v.take n) (w.take n) :=
  List.forall₂_take n h

theorem Alike.drop {v w : List α} (h : Alike v w) (n : Nat) : Alike (v.drop n) (w.drop n) :=
  List.forall₂_drop n h

theorem alike_nil_left {w : List α} : Alike [] w ↔ w = [] := List.forall₂_nil_left_iff

theorem alike_nil_right {v : List α} : Alike v [] ↔ v = [] := List.forall₂_nil_right_iff

/-- What is like a concatenation falls into two parts, each like its own. -/
theorem Alike.split {u v w : List α} (h : Alike (u ++ v) w) :
    ∃ u' v', w = u' ++ v' ∧ Alike u u' ∧ Alike v v' := by
  refine ⟨w.take u.length, w.drop u.length, (List.take_append_drop ..).symm, ?_, ?_⟩
  · have := h.take u.length
    rwa [List.take_left'] at this
    rfl
  · have := h.drop u.length
    rwa [List.drop_left'] at this
    rfl

variable [EquivBEq α]

theorem Alike.refl (v : List α) : Alike v v := List.forall₂_same.2 fun _ _ => BEq.rfl

theorem Alike.symm {v w : List α} (h : Alike v w) : Alike w v := by
  induction h with
  | nil => exact .nil
  | cons h _ ih => exact .cons (BEq.symm h) ih

theorem Alike.trans {u v w : List α} (h : Alike u v) (h' : Alike v w) : Alike u w := by
  induction h generalizing w with
  | nil => exact h'
  | cons hab _ ih =>
    obtain ⟨c, w, hbc, hvw, rfl⟩ := List.forall₂_cons_left_iff.1 h'
    exact .cons (BEq.trans hab hbc) (ih hvw)

end alike

theorem alike_iff_eq [BEq α] [LawfulBEq α] {v w : List α} : Alike v w ↔ v = w := by
  rw [alike_iff_beq, beq_iff_eq]

/-! ## Component lists -/

namespace Component

section carries
variable [BEq α]

/-- From left to right: a retain passes elements on, an insert yields its segment, a delete takes away
elements that are its segment, and in the end nothing is left. -/
def Carries : List (Component α) → List α → List α → Prop
  | [], v, w => v = [] ∧ w = []
  | retain n :: cs, v, w =>
    ∃ u u' v' w', v = u ++ v' ∧ w = u' ++ w' ∧ u.length = n ∧ Alike u u' ∧ Carries cs v' w'
  | insert s :: cs, v, w => ∃ s' w', w = s' ++ w' ∧ Alike s s' ∧ Carries cs v w'
  | delete s :: cs, v, w => ∃ u v', v = u ++ v' ∧ Alike s u ∧ Carries cs v' w

variable {cs : List (Component α)} {s u u' v v' w w' : List α} {n k : Nat}

theorem Carries.retain (hn : u.length = n) (hu : Alike u u') (h : Carries cs v w) :
    Carries (.retain n :: cs) (u ++ v) (u' ++ w) := ⟨u, u', v, w, rfl, rfl, hn, hu, h⟩

theorem Carries.insert (hs : Alike s u) (h : Carries cs v w) : Carries (.insert s :: cs) v (u ++ w) :=
  ⟨u, w, rfl, hs, h⟩

theorem Carries.delete (hs : Alike s u) (h : Carries cs v w) : Carries (.delete s :: cs) (u ++ v) w :=
  ⟨u, v, rfl, hs, h⟩

/-- The components need exactly the elements that they count. -/
theorem Carries.length_eq : ∀ {cs : List (Component α)} {v w : List α}, Carries cs v w →
    v.length = totalPre cs
  | [], _, _, ⟨rfl, _⟩ => rfl
  | .retain n :: cs, _, _, ⟨u, u', v, w, rfl, _, hn, _, h⟩ => by
    rw [totalPre_cons, List.length_append, h.length_eq, hn]
    rfl
  | .insert s :: cs, _, _, ⟨_, _, _, _, h⟩ => by
    rw [totalPre_cons, h.length_eq]
    exact (Nat.zero_add _).symm
  | .delete s :: cs, _, _, ⟨u, v, rfl, hu, h⟩ => by
    rw [totalPre_cons, List.length_append, h.length_eq, ← hu.length_eq]
    rfl

/-- The components yield exactly the elements that they count. -/
theorem Carries.length_result : ∀ {cs : List (Component α)} {v w : List α}, Carries cs v w →
    w.length = totalPost cs
  | [], _, _, ⟨_, rfl⟩ => rfl
  | .retain n :: cs, _, _, ⟨u, u', v, w, _, rfl, hn, hu, h⟩ => by
    rw [totalPost_cons, List.length_append, h.length_result, ← hu.length_eq, hn]
    rfl
  | .insert s :: cs, _, _, ⟨u, w, rfl, hu, h⟩ => by
    rw [totalPost_cons, List.length_append, h.length_result, ← hu.length_eq]
    rfl
  | .delete s :: cs, _, _, ⟨_, _, _, _, h⟩ => by
    rw [totalPost_cons, h.length_result]
    exact (Nat.zero_add _).symm

/-! ### Cutting the first component -/

theorem carries_cut_retain (hk : k ≤ n) :
    Carries (.retain n :: cs) v w ↔ Carries (.retain k :: afterRetain n k cs) v w := by
  unfold afterRetain
  split
  next hlt =>
    constructor
    · rintro ⟨u, u', v, w, rfl, rfl, rfl, hu, h⟩
      refine ⟨u.take k, u'.take k, u.drop k ++ v, u'.drop k ++ w, ?_, ?_, by simp; omega, hu.take k, ?_⟩
      · rw [← List.append_assoc, List.take_append_drop]
      · rw [← List.append_assoc, List.take_append_drop]
      · exact .retain (by simp) (hu.drop k) h
    · rintro ⟨u, u', _, _, rfl, rfl, rfl, hu, t, t', v, w, rfl, rfl, ht, htt, h⟩
      rw [← List.append_assoc, ← List.append_assoc]
      exact .retain (by simp; omega) (hu.append htt) h
  next hge =>
    obtain rfl : k = n := by omega
    rfl

theorem carries_cut_delete (k : Nat) :
    Carries (.delete s :: cs) v w ↔ Carries (.delete (s.take k) :: afterDelete (s.drop k) cs) v w := by
  unfold afterDelete
  split
  next hs =>
    have : s.take k = s := List.take_of_length_le (by simpa using hs)
    rw [this]
  next =>
    constructor
    · rintro ⟨u, v, rfl, hu, h⟩
      refine ⟨u.take k, u.drop k ++ v, ?_, hu.take k, .delete (hu.drop k) h⟩
      rw [← List.append_assoc, List.take_append_drop]
    · rintro ⟨u, _, rfl, hu, t, v, rfl, ht, h⟩
      rw [← List.append_assoc]
      refine .delete ?_ h
      simpa using hu.append ht

theorem carries_cut_insert (k : Nat) :
    Carries (.insert s :: cs) v w ↔ Carries (.insert (s.take k) :: afterInsert (s.drop k) cs) v w := by
  unfold afterInsert
  split
  next hs =>
    have : s.take k = s := List.take_of_length_le (by simpa using hs)
    rw [this]
  next =>
    constructor
    · rintro ⟨u, w, rfl, hu, h⟩
      refine ⟨u.take k, u.drop k ++ w, ?_, hu.take k, .insert (hu.drop k) h⟩
      rw [← List.append_assoc, List.take_append_drop]
    · rintro ⟨u, _, rfl, hu, t, w, rfl, ht, h⟩
      rw [← List.append_assoc]
      refine .insert ?_ h
      simpa using hu.append ht

/-! ### Equal values -/

variable [EquivBEq α]

/-- Like values are carried to like values. -/
theorem Carries.congr : ∀ {cs : List (Component α)} {v v' w w' : List α}, Carries cs v w → Alike v v' →
    Alike w w' → Carries cs v' w'
  | [], _, _, _, _, ⟨rfl, rfl⟩, hv, hw => ⟨alike_nil_left.1 hv, alike_nil_left.1 hw⟩
  | .retain n :: cs, _, _, _, _, ⟨u, u', v, w, rfl, rfl, hn, hu, h⟩, hv, hw => by
    obtain ⟨t, v', rfl, ht, hv⟩ := hv.split
    obtain ⟨t', w', rfl, ht', hw⟩ := hw.split
    exact .retain (ht.length_eq ▸ hn) ((ht.symm.trans hu).trans ht') (h.congr hv hw)
  | .insert s :: cs, _, _, _, _, ⟨u, w, rfl, hu, h⟩, hv, hw => by
    obtain ⟨t, w', rfl, ht, hw⟩ := hw.split
    exact .insert (hu.trans ht) (h.congr hv hw)
  | .delete s :: cs, _, _, _, _, ⟨u, v, rfl, hu, h⟩, hv, hw => by
    obtain ⟨t, v', rfl, ht, hv⟩ := hv.split
    exact .delete (hu.trans ht) (h.congr hv hw)

/-! ### Normal form -/

theorem carries_retain_zero : Carries (.retain 0 :: cs) v w ↔ Carries cs v w := by
  constructor
  · rintro ⟨u, u', v, w, rfl, rfl, hn, hu, h⟩
    obtain rfl := List.length_eq_zero_iff.1 hn
    obtain rfl := alike_nil_left.1 hu
    exact h
  · exact fun h => .retain rfl (.refl []) h

theorem carries_insert_nil : Carries (.insert [] :: cs) v w ↔ Carries cs v w := by
  constructor
  · rintro ⟨u, w, rfl, hu, h⟩
    obtain rfl := alike_nil_left.1 hu
    exact h
  · exact fun h => .insert (.refl []) h

theorem carries_delete_nil : Carries (.delete [] :: cs) v w ↔ Carries cs v w := by
  constructor
  · rintro ⟨u, v, rfl, hu, h⟩
    obtain rfl := alike_nil_left.1 hu
    exact h
  · exact fun h => .delete (.refl []) h

end carries

section normal
variable [Element α] [EquivBEq α] {cs rest : List (Component α)} {v w : List α}

theorem carries_afterDelete {del : List α} :
    Carries (afterDelete del rest) v w ↔ Carries (.delete del :: rest) v w := by
  unfold afterDelete
  split
  next h => rw [List.isEmpty_iff.1 h, carries_delete_nil]
  next => rfl

omit [EquivBEq α] in
theorem carries_retainThen {n : Nat} (h : Carries (.retain n :: rest) v w) :
    Carries (retainThen n rest) v w := by
  unfold retainThen
  split
  next m rest =>
    obtain ⟨u, u', _, _, rfl, rfl, hn, hu, t, t', v, w, rfl, rfl, hm, ht, h⟩ := h
    rw [← List.append_assoc, ← List.append_assoc]
    exact .retain (by rw [List.length_append, hn, hm]; rfl) (hu.append ht) h
  next => exact h

theorem carries_runThen {ins del : List α} (h : Carries (.insert ins :: .delete del :: rest) v w) :
    Carries (runThen ins del rest) v w := by
  unfold runThen
  split
  next hi =>
    rw [List.isEmpty_iff.1 hi, carries_insert_nil] at h
    exact carries_afterDelete.2 h
  next =>
    obtain ⟨u, w, rfl, hu, h⟩ := h
    split
    next hd =>
      -- what is taken away is what is put in
      obtain ⟨t, v, rfl, ht, h⟩ := h
      have hid : Alike ins del := alike_iff_beq.2 hd
      refine carries_retainThen (.retain ?_ ((ht.symm.trans hid.symm).trans hu) h)
      rw [← ht.length_eq, hid.length_eq]
    next => exact .insert hu (carries_afterDelete.2 h)

theorem carries_normalizeAfter (cs : List (Component α)) : ∀ {ins del v w : List α},
    Carries (.insert ins :: .delete del :: cs) v w → Carries (normalizeAfter ins del cs) v w := by
  induction cs with
  | nil => exact carries_runThen
  | cons c cs ih =>
    intro ins del v w h
    cases c with
    | retain n =>
      unfold normalizeAfter
      split
      next hn =>
        obtain ⟨u, w, rfl, hu, t, v, rfl, ht, h⟩ := h
        subst hn
        exact ih (.insert hu (.delete ht (carries_retain_zero.1 h)))
      next =>
        obtain ⟨u, w, rfl, hu, t, v, rfl, ht, a, a', v, w, rfl, rfl, hn, ha, h⟩ := h
        have hrest := ih (carries_insert_nil.2 (carries_delete_nil.2 h))
        exact carries_runThen (.insert hu (.delete ht (carries_retainThen (.retain hn ha hrest))))
    | insert s =>
      obtain ⟨u, _, rfl, hu, t, v, rfl, ht, a, w, rfl, ha, h⟩ := h
      refine ih ?_
      rw [← List.append_assoc]
      exact .insert (hu.append ha) (.delete ht h)
    | delete s =>
      obtain ⟨u, w, rfl, hu, t, _, rfl, ht, a, v, rfl, ha, h⟩ := h
      refine ih (.insert hu ?_)
      rw [← List.append_assoc]
      exact .delete (ht.append ha) h

/-- The normal form of a list does what the list does. -/
theorem carries_normalize (h : Carries cs v w) : Carries (normalize cs) v w :=
  carries_normalizeAfter cs (carries_insert_nil.2 (carries_delete_nil.2 h))

end normal

/-! ### The cursor -/

section cursor
variable [BEq α] {cs : List (Component α)} {v w : List α}

/-- What a cursor makes of the value: a retain copies elements, an insert adds its segment, a delete passes over
elements that are its segment, and in the end nothing may be left. -/
def carryOut : List (Component α) → List α → Option (List α)
  | [], v => if v.isEmpty then some [] else none
  | retain n :: cs, v => if n ≤ v.length then (carryOut cs (v.drop n)).map (v.take n ++ ·) else none
  | insert s :: cs, v => (carryOut cs v).map (s ++ ·)
  | delete s :: cs, v => if v.take s.length == s then carryOut cs (v.drop s.length) else none

/-- Where all components are retains, nothing is changed. -/
theorem eq_of_carryOut_retains : ∀ {cs : List (Component α)} {v w : List α}, cs.all isRetain = true →
    carryOut cs v = some w → w = v
  | [], v, w, _, h => by
    unfold carryOut at h
    split at h
    next hv => exact (Option.some.inj h).symm.trans (List.isEmpty_iff.1 hv).symm
    next => cases h
  | .retain n :: cs, v, w, hr, h => by
    rw [List.all_cons, Bool.and_eq_true] at hr
    unfold carryOut at h
    split at h
    next =>
      obtain ⟨x, hx, rfl⟩ := Option.map_eq_some_iff.1 h
      rw [eq_of_carryOut_retains hr.2 hx, List.take_append_drop]
    next => cases h

variable [EquivBEq α]

theorem carries_of_carryOut : ∀ {cs : List (Component α)} {v w : List α}, carryOut cs v = some w → Carries cs v w
  | [], v, w, h => by
    unfold carryOut at h
    split at h
    next hv => exact ⟨List.isEmpty_iff.1 hv, (Option.some.inj h).symm⟩
    next => cases h
  | .retain n :: cs, v, w, h => by
    unfold carryOut at h
    split at h
    next hn =>
      obtain ⟨x, hx, rfl⟩ := Option.map_eq_some_iff.1 h
      have hc : Carries (.retain n :: cs) (v.take n ++ v.drop n) (v.take n ++ x) :=
        .retain (List.length_take_of_le hn) (.refl _) (carries_of_carryOut hx)
      rwa [List.take_append_drop] at hc
    next => cases h
  | .insert s :: cs, v, w, h => by
    obtain ⟨x, hx, rfl⟩ := Option.map_eq_some_iff.1 h
    exact .insert (.refl s) (carries_of_carryOut hx)
  | .delete s :: cs, v, w, h => by
    unfold carryOut at h
    split at h
    next hs =>
      have hc : Carries (.delete s :: cs) (v.take s.length ++ v.drop s.length) w :=
        .delete (alike_iff_beq.2 hs).symm (carries_of_carryOut h)
      rwa [List.take_append_drop] at hc
    next => cases h

theorem exists_carryOut : ∀ {cs : List (Component α)} {v w : List α}, Carries cs v w →
    ∃ x, carryOut cs v = some x ∧ Alike x w
  | [], _, _, ⟨rfl, rfl⟩ => ⟨[], rfl, .refl []⟩
  | .retain n :: cs, _, _, ⟨u, u', v, w, rfl, rfl, hn, hu, h⟩ => by
    obtain ⟨x, hx, hxw⟩ := exists_carryOut h
    refine ⟨u ++ x, ?_, hu.append hxw⟩
    rw [carryOut, if_pos (by simp [hn]), List.take_left' hn, List.drop_left' hn, hx]
    rfl
  | .insert s :: cs, _, _, ⟨u, w, rfl, hu, h⟩ => by
    obtain ⟨x, hx, hxw⟩ := exists_carryOut h
    exact ⟨s ++ x, Option.map_eq_some_iff.2 ⟨x, hx, rfl⟩, hu.append hxw⟩
  | .delete s :: cs, _, _, ⟨u, v, rfl, hu, h⟩ => by
    obtain ⟨x, hx, hxw⟩ := exists_carryOut h
    refine ⟨x, ?_, hxw⟩
    have hl : u.length = s.length := hu.length_eq.symm
    rw [carryOut, List.take_left' hl, List.drop_left' hl, if_pos (alike_iff_beq.1 hu.symm), hx]

/-- **Components that can be carried out are carried out by the cursor**, and by it only these. -/
theorem carries_iff_carryOut : Carries cs v w ↔ ∃ x, carryOut cs v = some x ∧ Alike x w :=
  ⟨exists_carryOut, fun ⟨_, hx, hxw⟩ => (carries_of_carryOut hx).congr (.refl v) hxw⟩

end cursor

/-- Every component list can be carried out over some value. -/
theorem exists_carries [BEq α] [EquivBEq α] [Inhabited α] :
    ∀ cs : List (Component α), ∃ v w, Carries cs v w
  | [] => ⟨[], [], rfl, rfl⟩
  | .retain n :: cs =>
    let ⟨_, _, h⟩ := exists_carries cs
    ⟨_, _, .retain (List.length_replicate (n := n) (a := default)) (.refl _) h⟩
  | .insert s :: cs =>
    let ⟨_, _, h⟩ := exists_carries cs
    ⟨_, _, .insert (.refl s) h⟩
  | .delete s :: cs =>
    let ⟨_, _, h⟩ := exists_carries cs
    ⟨_, _, .delete (.refl s) h⟩

end Component

/-! ## Edits -/

namespace Edit

open Component

variable [Element α] [L : Lengths] {e : Edit α} {cs : List (Component α)} {v w x : List α}

/-- The edit applies to `v`, and what it gives is like `w`. -/
def Maps (e : Edit α) (v w : List α) : Prop := ∃ x, e.apply v = .ok x ∧ Alike x w

omit [Element α] L in
theorem total_runLengths (cs : List (Component α)) : Segment.total (runLengths cs) = totalPre cs := by
  induction cs with
  | nil => rfl
  | cons c cs ih =>
    rw [totalPre_cons, ← ih]
    cases c <;> simp [runLengths, Component.preLength]

theorem maps_of_isIdentity (he : e.isIdentity = true) : e.Maps v w ↔ Alike v w := by
  unfold Maps apply
  rw [if_pos he]
  constructor
  · rintro ⟨x, hx, h⟩
    cases hx
    exact h
  · exact fun h => ⟨v, rfl, h⟩

/-- A value of another length is refused before anything is cut. -/
theorem apply_of_ne (he : e.isIdentity = false) (hl : v.length ≠ e.preLength) :
    e.apply v = .error (.coverage e.preLength v.length) := by
  unfold apply
  rw [if_neg (by simp [he])]
  simp only [total_runLengths]
  exact if_pos (bne_iff_ne.2 (Ne.symm hl))

theorem apply_of_length (he : e.isIdentity = false) (hl : v.length = e.preLength) :
    e.apply v = assemble 0 e.components (Segment.runs v (runLengths e.components)) := by
  unfold apply
  rw [if_neg (by simp [he])]
  simp only [total_runLengths]
  exact if_neg (by rw [bne_iff_ne, not_ne_iff]; exact hl.symm)

/-- Over a value that is covered exactly, putting runs together is moving the cursor. -/
theorem toOption_assemble : ∀ {cs : List (Component α)} {p : Nat} {v : List α}, v.length = totalPre cs →
    (assemble p cs (Segment.runs v (runLengths cs))).toOption = carryOut cs v
  | [], _, v, hl => by
    obtain rfl : v = [] := List.length_eq_zero_iff.1 hl
    rfl
  | .retain n :: cs, p, v, hl => by
    rw [totalPre_cons, Component.preLength] at hl
    have ih : (assemble (L.arithmetic.wrap (p + n)) cs (Segment.runs (v.drop n) (runLengths cs))).toOption
        = carryOut cs (v.drop n) := toOption_assemble (by rw [List.length_drop]; omega)
    rw [carryOut, if_pos (by omega), ← ih]
    simp only [assemble, runLengths, List.filterMap_cons, Segment.runs, List.tail_cons, List.headD_cons]
    cases assemble (L.arithmetic.wrap (p + n)) cs _ <;> rfl
  | .insert s :: cs, p, v, hl => by
    rw [totalPre_cons, Component.preLength, Nat.zero_add] at hl
    have ih := toOption_assemble (p := p) hl
    rw [carryOut, ← ih]
    simp only [assemble, runLengths, List.filterMap_cons]
    cases assemble p cs _ <;> rfl
  | .delete s :: cs, p, v, hl => by
    rw [totalPre_cons, Component.preLength] at hl
    have ih : (assemble (L.arithmetic.wrap (p + s.length)) cs (Segment.runs (v.drop s.length) (runLengths cs))).toOption
        = carryOut cs (v.drop s.length) := toOption_assemble (by rw [List.length_drop]; omega)
    rw [carryOut, ← ih]
    simp only [assemble, runLengths, List.filterMap_cons, Segment.runs, List.tail_cons, List.headD_cons]
    split <;> rfl

variable [EquivBEq α]

/-- **An edit other than the identity gives what the cursor gives for its components**, and fails where the cursor
does. -/
theorem toOption_apply (hf : L.arithmetic.Fits (totalPre e.components)) (he : e.isIdentity = false) :
    (e.apply v).toOption = carryOut e.components v := by
  have hpre : e.preLength = totalPre e.components := Arithmetic.wrap_of_fits hf
  by_cases hl : v.length = e.preLength
  · rw [apply_of_length he hl]
    exact toOption_assemble (hl.trans hpre)
  · rw [apply_of_ne he hl]
    -- the cursor needs exactly the elements that the components count
    cases hc : carryOut e.components v with
    | none => rfl
    | some w => exact absurd ((carries_of_carryOut hc).length_eq.trans hpre.symm) hl

/-- An edit that keeps all it covers changes nothing. -/
theorem eq_of_isNoop (hf : L.arithmetic.Fits (totalPre e.components)) (hn : e.isNoop = true)
    (h : e.apply v = .ok w) : v = w := by
  cases he : e.isIdentity with
  | false =>
    have hc := toOption_apply (v := v) hf he
    rw [h] at hc
    exact (eq_of_carryOut_retains hn hc.symm).symm
  | true =>
    rw [apply, if_pos he] at h
    exact Except.ok.inj h

theorem Maps.alike_of_isNoop (hf : L.arithmetic.Fits (totalPre e.components)) (h : e.Maps v w)
    (hn : e.isNoop = true) : Alike v w := by
  obtain ⟨x, hx, hxw⟩ := h
  rwa [eq_of_isNoop hf hn hx]

/-- **An edit other than the identity applies exactly where its components can be carried out.** -/
theorem maps_iff (hf : L.arithmetic.Fits (totalPre e.components)) (he : e.isIdentity = false) :
    e.Maps v w ↔ Carries e.components v w := by
  rw [carries_iff_carryOut, ← toOption_apply hf he]
  unfold Maps
  cases e.apply v <;> simp [Except.toOption]

/-- An edit makes a value no longer than by what it inserts. -/
theorem length_le_of_apply (hf : L.arithmetic.Fits (totalPre e.components)) (h : e.apply v = .ok w) :
    w.length ≤ v.length + e.insertLength := by
  cases he : e.isIdentity with
  | false =>
    have hc := (maps_iff hf he).1 ⟨w, h, .refl w⟩
    rw [hc.length_eq, hc.length_result]
    exact totalPost_le e.components
  | true =>
    rw [apply, if_pos he] at h
    cases h
    exact Nat.le_add_right ..

/-- What a component list does is done by the edit that it describes. -/
theorem maps_ofComponents (hv : L.arithmetic.Fits v.length) (h : Carries cs v w) : (ofComponents cs).Maps v w := by
  rw [h.length_eq] at hv
  have hf : L.arithmetic.Fits (totalPre (ofComponents cs).components) := by rwa [totalPre_ofComponents hv]
  have hn : Carries (ofComponents cs).components v w := by
    rw [ofComponents_of_fits hv]
    exact carries_normalize h
  cases he : (ofComponents cs).isIdentity with
  | false => exact (maps_iff hf he).2 hn
  | true =>
    rw [List.isEmpty_iff.1 he] at hn
    obtain ⟨rfl, rfl⟩ := hn
    exact (maps_of_isIdentity he).2 (.refl [])

theorem Maps.congr {v' w' : List α} (hf : L.arithmetic.Fits (totalPre e.components)) (h : e.Maps v w)
    (hv : Alike v v') (hw : Alike w w') : e.Maps v' w' := by
  cases he : e.isIdentity with
  | false => exact (maps_iff hf he).2 (((maps_iff hf he).1 h).congr hv hw)
  | true => exact (maps_of_isIdentity he).2 ((hv.symm.trans ((maps_of_isIdentity he).1 h)).trans hw)

theorem maps_of_apply (h : e.apply v = .ok w) : e.Maps v w := ⟨w, h, .refl w⟩

/-- Every edit whose length fits applies to some value. -/
theorem exists_maps [Inhabited α] (hf : L.arithmetic.Fits (totalPre e.components)) : ∃ v w, e.Maps v w := by
  cases he : e.isIdentity with
  | false =>
    obtain ⟨v, w, h⟩ := exists_carries e.components
    exact ⟨v, w, (maps_iff hf he).2 h⟩
  | true => exact ⟨[], [], (maps_of_isIdentity he).2 (.refl [])⟩

end Edit

end Coedit
