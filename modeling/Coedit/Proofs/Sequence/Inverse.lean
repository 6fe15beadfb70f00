import Coedit.Proofs.Sequence.Composition
import Coedit.Proofs.Sequence.Normalization

/-!
# Edits undone

Inverting an edit turns each insert into a delete and each delete into an insert, and normalizing puts the insert
of a run back in front of its delete.  Run by run the edit and its inverse then collapse to what was there before.

* `Edit.Maps.invert` — where an edit leads, its inverse leads back;
* `Component.Runs` — normal form told run by run;
* `Edit.compose_invert` — an edit and then its inverse is the edit that keeps everything;
* `Edit.isNoop_compose`, `Edit.isNoop_invert` — what keeps all it covers does so when composed or inverted;
* `Edit.invert_undoes` — all that an edit and its inverse are to each other.
-/

namespace Coedit

variable {α : Type}

namespace Component

/-! ## Components carried out backwards -/

theorem Carries.invert [BEq α] [EquivBEq α] : ∀ {cs : List (Component α)} {v w : List α}, Carries cs v w →
    Carries (cs.map Component.invert) w v
  | [], _, _, ⟨hv, hw⟩ => ⟨hw, hv⟩
  | .retain _ :: _, _, _, ⟨_, _, _, _, rfl, rfl, hn, hu, h⟩ => .retain (hu.length_eq ▸ hn) hu.symm h.invert
  | .insert _ :: _, _, _, ⟨_, _, rfl, hu, h⟩ => .delete hu h.invert
  | .delete _ :: _, _, _, ⟨_, _, rfl, hu, h⟩ => .insert hu h.invert

/-- What components undone take in is what the components yield. -/
theorem totalPre_map_invert (cs : List (Component α)) : totalPre (cs.map Component.invert) = totalPost cs := by
  have hc : (preLength ∘ Component.invert : Component α → Nat) = postLength := funext fun c => by cases c <;> rfl
  rw [totalPre, List.map_map, hc, totalPost]

/-- What components undone yield is what the components take in. -/
theorem totalPost_map_invert (cs : List (Component α)) : totalPost (cs.map Component.invert) = totalPre cs := by
  have hc : (postLength ∘ Component.invert : Component α → Nat) = preLength := funext fun c => by cases c <;> rfl
  rw [totalPost, List.map_map, hc, totalPre]

/-! ## Runs -/

section runs
variable [Element α] {cs rest : List (Component α)} {s t u : List α} {n m : Nat}

/-- The runs of a list in normal form: between two retains it inserts, deletes, or replaces one segment by
another. -/
inductive Runs : List (Component α) → Prop
  | nil : Runs []
  | retain {n : Nat} {rest : List (Component α)} : n ≠ 0 → mayPrecede (.retain n) rest = true → Runs rest →
      Runs (.retain n :: rest)
  | insert {s : List α} {rest : List (Component α)} : s ≠ [] → RetainFirst rest → Runs rest →
      Runs (.insert s :: rest)
  | delete {s : List α} {rest : List (Component α)} : s ≠ [] → RetainFirst rest → Runs rest →
      Runs (.delete s :: rest)
  | replace {s t : List α} {rest : List (Component α)} : s ≠ [] → t ≠ [] → (s == t) = false →
      RetainFirst rest → Runs rest → Runs (.insert s :: .delete t :: rest)

theorem runs_of_isNormal : ∀ {cs : List (Component α)}, IsNormal cs → Runs cs
  | [], _ => .nil
  | .retain _ :: _, h => by
    obtain ⟨hn, hm, hr⟩ := isNormal_cons.1 h
    exact .retain (by simpa [isEmpty] using hn) hm (runs_of_isNormal hr)
  | .delete _ :: _, h => by
    obtain ⟨hs, hm, hr⟩ := isNormal_cons.1 h
    exact .delete (by simpa [isEmpty] using hs) (retainFirst_of_mayPrecede_delete hm) (runs_of_isNormal hr)
  | [.insert _], h => .insert (by simpa [isEmpty] using (isNormal_cons.1 h).1) trivial .nil
  | .insert _ :: .retain _ :: _, h => by
    obtain ⟨hs, _, hr⟩ := isNormal_cons.1 h
    exact .insert (by simpa [isEmpty] using hs) rfl (runs_of_isNormal hr)
  | .insert _ :: .insert _ :: _, h => by
    have hm := (isNormal_cons.1 h).2.1
    cases hm
  | .insert _ :: .delete _ :: _, h => by
    obtain ⟨hs, hst, hr⟩ := isNormal_cons.1 h
    obtain ⟨ht, hm, hr⟩ := isNormal_cons.1 hr
    exact .replace (by simpa [isEmpty] using hs) (by simpa [isEmpty] using ht)
      (by simpa [mayPrecede, mayFollow] using hst) (retainFirst_of_mayPrecede_delete hm) (runs_of_isNormal hr)

theorem Runs.isNormal (h : Runs cs) : IsNormal cs := by
  induction h with
  | nil => rfl
  | retain hn hm _ ih => exact isNormal_cons.2 ⟨by simpa [isEmpty] using hn, hm, ih⟩
  | insert hs hf _ ih => exact isNormal_cons.2 ⟨by simpa [isEmpty] using hs, mayPrecede_of_retainFirst rfl hf, ih⟩
  | delete hs hf _ ih => exact isNormal_cons.2 ⟨by simpa [isEmpty] using hs, mayPrecede_of_retainFirst rfl hf, ih⟩
  | replace hs ht hst hf _ ih =>
    refine isNormal_cons.2 ⟨by simpa [isEmpty] using hs, by simpa [mayPrecede, mayFollow] using hst, ?_⟩
    exact isNormal_cons.2 ⟨by simpa [isEmpty] using ht, mayPrecede_of_retainFirst rfl hf, ih⟩

/-! ### The inverse, run by run -/

/-- The components inverted, in each run the insert in front of the delete. -/
def undo : List (Component α) → List (Component α)
  | .insert s :: .delete t :: rest => .insert t :: .delete s :: undo rest
  | c :: rest => c.invert :: undo rest
  | [] => []

omit [Element α] in
theorem undo_insert (h : RetainFirst rest) : undo (.insert s :: rest) = .delete s :: undo rest := by
  cases rest with
  | nil => rfl
  | cons c rest =>
    cases c with
    | retain n => rfl
    | insert t => cases h
    | delete t => cases h

omit [Element α] in
theorem retainFirst_undo (h : RetainFirst rest) : RetainFirst (undo rest) := by
  cases rest with
  | nil => trivial
  | cons c rest =>
    cases c with
    | retain n => rfl
    | insert s => cases h
    | delete s => cases h

theorem mayPrecede_retain_undo (hr : Runs rest) (h : mayPrecede (retain n) rest = true) :
    mayPrecede (retain n) (undo rest) = true := by
  cases hr with
  | nil => rfl
  | retain => cases h
  | insert _ hf => rw [undo_insert hf]; rfl
  | delete => rfl
  | replace => rfl

theorem Runs.undo [EquivBEq α] (h : Runs cs) : Runs (undo cs) := by
  induction h with
  | nil => exact .nil
  | retain hn hm hr ih => exact .retain hn (mayPrecede_retain_undo hr hm) ih
  | insert hs hf _ ih =>
    rw [undo_insert hf]
    exact .delete hs (retainFirst_undo hf) ih
  | delete hs hf _ ih => exact .insert hs (retainFirst_undo hf) ih
  | @replace s t _ hs ht hst hf _ ih =>
    have hts : (t == s) = false := by
      rw [Bool.eq_false_iff] at hst ⊢
      exact fun h => hst (alike_iff_beq.1 (alike_iff_beq.2 h).symm)
    exact .replace ht hs hts (retainFirst_undo hf) ih

theorem undo_undo (h : Runs cs) : undo (undo cs) = cs := by
  induction h with
  | nil => rfl
  | retain _ _ _ ih => exact congrArg (List.cons _) ih
  | insert _ hf _ ih =>
    rw [undo_insert hf]
    exact congrArg (List.cons _) ih
  | delete _ hf _ ih => exact (undo_insert (retainFirst_undo hf)).trans (congrArg (List.cons _) ih)
  | replace _ _ _ _ _ ih => exact congrArg (List.cons _) (congrArg (List.cons _) ih)

section undone
variable [Lengths]

/-- Within a run the order of inserts and deletes does not matter. -/
theorem normalizeAfter_map_invert (cs : List (Component α)) : ∀ ins del : List α,
    normalizeAfter ins del (cs.map Component.invert) = normalizeAfter ins del (undo cs) := by
  induction cs using undo.induct with
  | case1 s t rest ih =>
    intro ins del
    exact ih (ins ++ t) (del ++ s)
  | case2 c rest hne ih =>
    intro ins del
    rw [undo.eq_2 _ _ hne, List.map_cons]
    cases c with
    | retain n =>
      simp only [Component.invert, normalizeAfter]
      rw [ih ins del, ih [] []]
    | insert s => exact ih ins (del ++ s)
    | delete s => exact ih (ins ++ s) del
  | case3 => exact fun _ _ => rfl

/-- The normal form of an inverted list. -/
theorem normalize_map_invert [EquivBEq α] (h : IsNormal cs) : normalize (cs.map Component.invert) = undo cs :=
  (normalizeAfter_map_invert cs [] []).trans (normalize_of_isNormal (runs_of_isNormal h).undo.isNormal)

end undone

/-! ### Edit and inverse collapse -/

/-- The list that keeps `n` elements, in normal form. -/
def retaining (n : Nat) : List (Component α) := if n = 0 then [] else [.retain n]

section keeping
variable [L : Lengths]

omit [Element α] in
theorem retainThen_retaining (hn : n ≠ 0) (hf : L.arithmetic.Fits (n + m)) :
    retainThen n (retaining m : List (Component α)) = retaining (n + m) := by
  unfold retaining
  by_cases hm : m = 0
  · simp [hm, hn, retainThen]
  · simp [hm, hn, retainThen, Arithmetic.wrap_of_fits hf]

/-- A run that puts back what it takes away keeps it. -/
theorem runThen_self_retaining [EquivBEq α] (hf : L.arithmetic.Fits (u.length + n)) :
    runThen u u (retaining n) = retaining (u.length + n) := by
  unfold runThen
  split
  next hu => simp [List.isEmpty_iff.1 hu, afterDelete]
  next hu =>
    have hu : u.length ≠ 0 := by simpa using hu
    rw [if_pos BEq.rfl, retainThen_retaining hu hf]

omit [Element α] in
theorem all_isRetain_retainThen (h : rest.all isRetain = true) : (retainThen n rest).all isRetain = true := by
  unfold retainThen
  split
  next => exact h
  next => exact h

/-- What only keeps does so in normal form. -/
theorem all_isRetain_normalize : ∀ {cs : List (Component α)}, cs.all isRetain = true →
    (normalize cs).all isRetain = true
  | [], _ => rfl
  | .retain n :: cs, h => by
    unfold normalize normalizeAfter
    split
    next => exact all_isRetain_normalize h
    next => exact all_isRetain_retainThen (all_isRetain_normalize h)

end keeping

omit [Element α] in
theorem all_isRetain_afterRetain (k : Nat) (h : rest.all isRetain = true) :
    (afterRetain n k rest).all isRetain = true := by
  unfold afterRetain
  split
  next => exact h
  next => exact h

section walk
variable {first second kept : List (Component α)}

theorem composeWalk_retain_retain (h : composeWalk first second = .ok kept) :
    composeWalk (.retain n :: first) (.retain n :: second) = .ok (.retain n :: kept) := by
  rw [composeWalk]
  simp only [Nat.min_self, afterRetain_self, h]
  rfl

/-- The whole of an insert is deleted. -/
theorem composeWalk_insert_delete_self [ReflBEq α] (h : composeWalk first second = .ok kept) :
    composeWalk (.insert s :: first) (.delete s :: second) = .ok kept := by
  rw [composeWalk]
  simp only [BEq.rfl, if_true, Nat.min_self, List.drop_length]
  exact h

/-- What was deleted at the end of a run is inserted again. -/
theorem composeWalk_delete_insert (hf : RetainFirst first) (h : composeWalk first second = .ok kept) :
    composeWalk (.delete s :: first) (.insert t :: second) = .ok (.delete s :: .insert t :: kept) := by
  have hd : ∀ u r, first = .delete u :: r → False := by
    rintro u r rfl
    cases hf
  rw [composeWalk, composeWalk.eq_3 _ _ _ hd, h]
  rfl

/-- What replaced a segment is replaced by that segment. -/
theorem composeWalk_replace_replace [ReflBEq α] (h : composeWalk first second = .ok kept) :
    composeWalk (.insert s :: .delete t :: first) (.insert t :: .delete s :: second)
      = .ok (.insert t :: .delete t :: kept) := by
  have hw : composeWalk (.insert s :: .delete t :: first) (.delete s :: second) = .ok (.delete t :: kept) := by
    refine composeWalk_insert_delete_self ?_
    rw [composeWalk, h]
    rfl
  rw [composeWalk.eq_3 _ _ _ (by rintro u r h; cases h), hw]
  rfl

/-- The walk over lists that only keep gives one that only keeps. -/
theorem all_isRetain_composeWalk : ∀ {kept : List (Component α)}, first.all isRetain = true →
    second.all isRetain = true → composeWalk first second = .ok kept → kept.all isRetain = true := by
  induction first, second using composeWalk.induct with
  | case1 =>
    intro kept _ _ h
    rw [composeWalk] at h
    cases h
    rfl
  | case2 => exact fun hfirst => absurd hfirst Bool.false_ne_true
  | case3 => exact fun _ hsecond => absurd hsecond Bool.false_ne_true
  | case4 c tail hc =>
    intro kept _ _ h
    rw [composeWalk.eq_4 _ _ hc] at h
    cases h
  | case5 c tail hc =>
    intro kept _ _ h
    rw [composeWalk.eq_5 _ _ hc] at h
    cases h
  | case6 n first m second k =>
    rename_i ih
    intro kept hfirst hsecond h
    rw [composeWalk] at h
    obtain ⟨rest, hrest, rfl⟩ := map_eq_ok.1 h
    have hall := ih (all_isRetain_afterRetain _ hfirst) (all_isRetain_afterRetain _ hsecond) hrest
    exact hall
  | case7 => exact fun _ hsecond => absurd hsecond Bool.false_ne_true
  | case8 => exact fun hfirst => absurd hfirst Bool.false_ne_true
  | case9 => exact fun hfirst => absurd hfirst Bool.false_ne_true
  | case10 => exact fun hfirst => absurd hfirst Bool.false_ne_true

/-- The walk over a list and its inverse puts back all that it takes away: in normal form what it gives keeps
everything, also after a run that does. -/
theorem composeWalk_undo [EquivBEq α] [L : Lengths] (h : Runs cs) : ∃ kept, composeWalk cs (undo cs) = .ok kept ∧
    ∀ u : List α, L.arithmetic.Fits (u.length + totalPre cs) →
      normalizeAfter u u kept = retaining (u.length + totalPre cs) := by
  induction h with
  | nil =>
    refine ⟨[], by rw [undo, composeWalk], fun u hf => ?_⟩
    exact runThen_self_retaining (n := 0) hf
  | @retain n rest hn _ _ ih =>
    obtain ⟨kept, hw, hk⟩ := ih
    refine ⟨.retain n :: kept, composeWalk_retain_retain hw, fun u hf => ?_⟩
    have hf : L.arithmetic.Fits (u.length + (n + totalPre rest)) := by rwa [totalPre_cons] at hf
    have hk : normalizeAfter [] [] kept = retaining (totalPre rest) := by simpa using hk [] (hf.of_le (by simp; omega))
    rw [normalizeAfter, if_neg hn, hk, retainThen_retaining hn (hf.of_le (Nat.le_add_left ..)),
      runThen_self_retaining hf, totalPre_cons]
    rfl
  | @insert s rest _ hr _ ih =>
    obtain ⟨kept, hw, hk⟩ := ih
    refine ⟨kept, ?_, fun u hf => ?_⟩
    · rw [undo_insert hr]
      exact composeWalk_insert_delete_self hw
    · rw [totalPre_cons, preLength, Nat.zero_add] at hf ⊢
      exact hk u hf
  | @delete s rest _ hr _ ih =>
    obtain ⟨kept, hw, hk⟩ := ih
    refine ⟨.delete s :: .insert s :: kept, composeWalk_delete_insert hr hw, fun u hf => ?_⟩
    rw [totalPre_cons, preLength, ← Nat.add_assoc, ← List.length_append] at hf ⊢
    exact hk (u ++ s) hf
  | @replace s t rest _ _ _ _ _ ih =>
    obtain ⟨kept, hw, hk⟩ := ih
    refine ⟨.insert t :: .delete t :: kept, composeWalk_replace_replace hw, fun u hf => ?_⟩
    rw [totalPre_cons, totalPre_cons, preLength, preLength, Nat.zero_add, ← Nat.add_assoc, ← List.length_append] at hf ⊢
    exact hk (u ++ t) hf

end walk

end runs

end Component

/-! ## Edits -/

namespace Edit

open Component

section maps
variable [Element α] [EquivBEq α] [L : Lengths] {e : Edit α} {v w : List α}

/-- **Where an edit leads, its inverse leads back.** -/
theorem Maps.invert (hf : e.Fits) (h : e.Maps v w) : e.invert.Maps w v := by
  cases he : e.isIdentity with
  | false =>
    have hc := (maps_iff hf.pre he).1 h
    exact maps_ofComponents (hc.length_result ▸ hf.post) hc.invert
  | true =>
    have hi : e.invert.isIdentity = true := by
      rw [Edit.invert, List.isEmpty_iff.1 he]
      rfl
    exact (maps_of_isIdentity hi).2 ((maps_of_isIdentity he).1 h).symm

theorem components_invert (hn : e.IsNormal) : e.invert.components = undo e.components := normalize_map_invert hn

theorem invert_isNormal (hn : e.IsNormal) : e.invert.IsNormal := by
  unfold IsNormal
  rw [components_invert hn]
  exact (runs_of_isNormal hn).undo.isNormal

theorem invert_invert (hn : e.IsNormal) : e.invert.invert = e := by
  refine Edit.ext ?_
  rw [components_invert (invert_isNormal hn), components_invert hn, undo_undo (runs_of_isNormal hn)]

omit [EquivBEq α] in
theorem totalPre_invert (hf : e.Fits) : totalPre e.invert.components = totalPost e.components := by
  have h := totalPre_map_invert e.components
  exact (totalPre_ofComponents (h ▸ hf.post)).trans h

omit [EquivBEq α] in
theorem totalPost_invert (hf : e.Fits) : totalPost e.invert.components = totalPre e.components :=
  (totalPost_ofComponents (totalPre_map_invert e.components ▸ hf.post)).trans (totalPost_map_invert e.components)

theorem Fits.invert (hf : e.Fits) : e.invert.Fits where
  normal := invert_isNormal hf.normal
  pre := totalPre_invert hf ▸ hf.post
  post := totalPost_invert hf ▸ hf.pre

omit [EquivBEq α] in
theorem preLength_invert (hf : e.Fits) : e.invert.preLength = e.postLength :=
  congrArg L.arithmetic.wrap (totalPre_invert hf)

end maps

section noop
variable [Element α] [L : Lengths] {a b c e : Edit α} {n m : Nat}

omit L in
theorem isNormal_retaining (n : Nat) : Component.IsNormal (Component.retaining n : List (Component α)) := by
  unfold Component.retaining
  split
  next => rfl
  next hn => exact (Runs.retain hn rfl .nil).isNormal

/-- The edit that keeps `n` elements, the identity if there are none. -/
def retaining (n : Nat) : Edit α := ⟨Component.retaining n, (isNormal_iff.1 (isNormal_retaining n)).1⟩

omit L in
theorem isNoop_retaining (n : Nat) : (retaining n : Edit α).isNoop = true := by
  unfold isNoop retaining Component.retaining
  split <;> rfl

theorem isNoop_invert (h : e.isNoop = true) : e.invert.isNoop = true := by
  refine all_isRetain_normalize ?_
  have hc : (isRetain ∘ Component.invert : Component α → Bool) = isRetain := funext fun c => by cases c <;> rfl
  rwa [List.all_map, hc]

theorem isNoop_compose (ha : a.isNoop = true) (hb : b.isNoop = true) (h : a.compose b = .ok c) :
    c.isNoop = true := by
  unfold Edit.compose at h
  split at h
  next => rwa [← Except.ok.inj h]
  next =>
    split at h
    next => rwa [← Except.ok.inj h]
    next =>
      obtain ⟨kept, hw, rfl⟩ := map_eq_ok.1 h
      exact all_isRetain_normalize (all_isRetain_composeWalk ha hb hw)

variable [EquivBEq α]

theorem isIdentity_invert (hn : e.IsNormal) : e.invert.isIdentity = e.isIdentity := by
  unfold isIdentity
  rw [components_invert hn]
  generalize e.components = cs
  induction cs using undo.induct with
  | case1 => rfl
  | case2 c rest hne _ => rw [undo.eq_2 _ _ hne]; rfl
  | case3 => rfl

/-- **An edit and then its inverse keep everything.** -/
theorem compose_invert (hf : e.Fits) : e.compose e.invert = .ok (retaining e.preLength) := by
  unfold Edit.compose
  rw [isIdentity_invert hf.normal, hf.preLength]
  cases he : e.isIdentity with
  | true =>
    have hc : e.components = [] := List.isEmpty_iff.1 he
    rw [if_pos rfl]
    refine congrArg Except.ok (Edit.ext ?_)
    rw [components_invert hf.normal, retaining, hc]
    rfl
  | false =>
    obtain ⟨kept, hw, hk⟩ := composeWalk_undo (runs_of_isNormal hf.normal)
    rw [if_neg (by simp), if_neg (by simp), components_invert hf.normal, hw]
    have hk : normalize kept = Component.retaining (totalPre e.components) := by
      simpa only [List.length_nil, Nat.zero_add, Component.normalize] using hk [] (hf.pre.of_le (by simp))
    exact congrArg Except.ok (Edit.ext hk)

end noop

/-! ### The inverse of an edit -/

section undoes
variable [L : Lengths]

/-- What an edit and its inverse are to each other, where `same` says which values count as equal. -/
structure Undoes [Element α] (same : List α → List α → Prop) (e : Edit α) : Prop where
  /-- The edit and then its inverse are the edit that keeps all that the edit takes in. -/
  back : e.compose e.invert = .ok (retaining e.preLength)
  /-- The inverse and then the edit are the edit that keeps all that the edit yields. -/
  forth : e.invert.compose e = .ok (retaining e.postLength)
  /-- Undoing is undone by the edit itself. -/
  twice : e.invert.invert = e
  /-- Where the edit applies, its inverse applies to the result and gives the value back. -/
  restores : ∀ v w, e.apply v = .ok w → ∃ x, e.invert.apply w = .ok x ∧ same x v

theorem undoes_alike [Element α] [EquivBEq α] {e : Edit α} (hf : e.Fits) : Undoes Alike e where
  back := compose_invert hf
  forth := by
    have h := compose_invert hf.invert
    rwa [invert_invert hf.normal, preLength_invert hf] at h
  twice := invert_invert hf.normal
  restores := fun _ _ h => (maps_of_apply h).invert hf

end undoes

section words
attribute [local instance] Lengths.word

/-- A deletion at the end of the longest list. -/
def dropLast : ListEdit := ⟨[.retain (UInt64.size - 2), .delete [⟨.null, trivial⟩]], Eq.refl true⟩

/-- The inverse of the wide edit deletes what is not there. -/
theorem apply_invert_wide : (wide 'a').invert.apply ['a'] = .error (.content (.text ['a']) halfWord (.text [])) := by
  have hc : (wide 'a').invert = ⟨[.retain halfWord, .delete ['a'], .retain halfWord], Eq.refl true⟩ :=
    Edit.ext (components_invert (by decide))
  rw [hc]
  simp [apply, isIdentity, runLengths, Segment.total, Segment.runs, assemble, Arithmetic.wrap_word, Except.map,
    Element.fragment, halfWord, UInt64.size]

end words

end Edit
end Coedit
