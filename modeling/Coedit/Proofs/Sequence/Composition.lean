import Coedit.Proofs.Sequence.Merge

/-!
# Composing is doing one edit after the other

* `Component.composeWalk_carries` — the walk over two lists that can be carried out in turn succeeds, and what
  it gives does both;
* `Component.carries_of_composeWalk` — it does no more, so the walk fails over any others;
* `Edit.Maps.compose` — the same of edits;
* `Edit.compose_follows` — composing succeeds exactly for edits that apply in turn to some value;
* `Edit.calculus` — edits of texts and lists form a calculus, for texts up to identity and for lists up to JSON
  equality.
-/

namespace Coedit

variable {α : Type}

namespace Component

section walk
variable [Element α] [EquivBEq α] {first second : List (Component α)} {s t v w x : List α} {n m : Nat}

/-- Elements that the first list keeps are kept by the second. -/
theorem composeWalk_keep_keep
    (ih : ∀ {v w x}, Carries (afterRetain n (min n m) first) v w →
      Carries (afterRetain m (min n m) second) w x →
      ∃ cs, composeWalk (afterRetain n (min n m) first) (afterRetain m (min n m) second) = .ok cs ∧
        Carries cs v x)
    (ha : Carries (retain n :: first) v w) (hb : Carries (retain m :: second) w x) :
    ∃ cs, composeWalk (retain n :: first) (retain m :: second) = .ok cs ∧ Carries cs v x := by
  obtain ⟨u, u', v, w, rfl, rfl, hu, huu, ha⟩ := (carries_cut_retain (Nat.min_le_left n m)).1 ha
  obtain ⟨t, t', w', x, he, rfl, ht, htt, hb⟩ := (carries_cut_retain (Nat.min_le_right n m)).1 hb
  obtain ⟨rfl, rfl⟩ := List.append_inj he ((huu.length_eq ▸ hu).trans ht.symm)
  obtain ⟨cs, hw, hcs⟩ := ih ha hb
  refine ⟨retain (min n m) :: cs, ?_, .retain hu (huu.trans htt) hcs⟩
  rw [composeWalk, hw]
  rfl

/-- Elements that the first list keeps are deleted by the second. -/
theorem composeWalk_keep_delete
    (ih : ∀ {v w x}, Carries (afterRetain n (min n s.length) first) v w →
      Carries (afterDelete (s.drop (min n s.length)) second) w x →
      ∃ cs, composeWalk (afterRetain n (min n s.length) first) (afterDelete (s.drop (min n s.length)) second)
        = .ok cs ∧ Carries cs v x)
    (ha : Carries (retain n :: first) v w) (hb : Carries (delete s :: second) w x) :
    ∃ cs, composeWalk (retain n :: first) (delete s :: second) = .ok cs ∧ Carries cs v x := by
  obtain ⟨u, u', v, w, rfl, rfl, hu, huu, ha⟩ := (carries_cut_retain (Nat.min_le_left n s.length)).1 ha
  obtain ⟨t, w', he, ht, hb⟩ := (carries_cut_delete (min n s.length)).1 hb
  have hl : t.length = min n s.length := by rw [← ht.length_eq, List.length_take]; omega
  obtain ⟨rfl, rfl⟩ := List.append_inj he ((huu.length_eq ▸ hu).trans hl.symm)
  obtain ⟨cs, hw, hcs⟩ := ih ha hb
  refine ⟨delete (s.take (min n s.length)) :: cs, ?_, .delete (ht.trans huu.symm) hcs⟩
  rw [composeWalk, hw]
  rfl

/-- Elements that the first list inserts are kept by the second. -/
theorem composeWalk_insert_keep
    (ih : ∀ {v w x}, Carries (afterInsert (s.drop (min s.length m)) first) v w →
      Carries (afterRetain m (min s.length m) second) w x →
      ∃ cs, composeWalk (afterInsert (s.drop (min s.length m)) first) (afterRetain m (min s.length m) second)
        = .ok cs ∧ Carries cs v x)
    (ha : Carries (insert s :: first) v w) (hb : Carries (retain m :: second) w x) :
    ∃ cs, composeWalk (insert s :: first) (retain m :: second) = .ok cs ∧ Carries cs v x := by
  obtain ⟨u, w, rfl, hu, ha⟩ := (carries_cut_insert (min s.length m)).1 ha
  obtain ⟨t, t', w', x, he, rfl, ht, htt, hb⟩ := (carries_cut_retain (Nat.min_le_right s.length m)).1 hb
  have hl : u.length = min s.length m := by rw [← hu.length_eq, List.length_take]; omega
  obtain ⟨rfl, rfl⟩ := List.append_inj he (hl.trans ht.symm)
  obtain ⟨cs, hw, hcs⟩ := ih ha hb
  refine ⟨insert (s.take (min s.length m)) :: cs, ?_, .insert (hu.trans htt) hcs⟩
  rw [composeWalk, hw]
  rfl

omit [EquivBEq α] in
/-- Elements that the first list inserts are deleted by the second, so nothing of them stays. -/
theorem composeWalk_insert_delete
    (ih : ∀ {v w x}, Carries (afterInsert (s.drop (min s.length t.length)) first) v w →
      Carries (afterDelete (t.drop (min s.length t.length)) second) w x →
      ∃ cs, composeWalk (afterInsert (s.drop (min s.length t.length)) first)
        (afterDelete (t.drop (min s.length t.length)) second) = .ok cs ∧ Carries cs v x)
    (heq : (s.take (min s.length t.length) == t.take (min s.length t.length)) = true)
    (ha : Carries (insert s :: first) v w) (hb : Carries (delete t :: second) w x) :
    ∃ cs, composeWalk (insert s :: first) (delete t :: second) = .ok cs ∧ Carries cs v x := by
  obtain ⟨u, w, rfl, hu, ha⟩ := (carries_cut_insert (min s.length t.length)).1 ha
  obtain ⟨u', w', he, hu', hb⟩ := (carries_cut_delete (min s.length t.length)).1 hb
  obtain ⟨rfl, rfl⟩ := List.append_inj he
    (hu.length_eq.symm.trans ((alike_iff_beq.2 heq).length_eq.trans hu'.length_eq))
  obtain ⟨cs, hw, hcs⟩ := ih ha hb
  refine ⟨cs, ?_, hcs⟩
  simp only [composeWalk, heq, if_true, hw]

/-- **The walk over two lists that can be carried out in turn succeeds, and what it gives does both.** -/
theorem composeWalk_carries (first second : List (Component α)) : ∀ {v w x : List α}, Solid first →
    Solid second → Carries first v w → Carries second w x →
      ∃ cs, composeWalk first second = .ok cs ∧ Carries cs v x := by
  induction first, second using composeWalk.induct with
  | case1 =>
    rintro v w x - - ⟨rfl, rfl⟩ ⟨-, rfl⟩
    exact ⟨[], by rw [composeWalk], rfl, rfl⟩
  | case2 s first second ih =>
    rintro v w x hsa hsb ⟨u, v, rfl, hu, ha⟩ hb
    obtain ⟨cs, hw, hcs⟩ := ih hsa.tail hsb ha hb
    refine ⟨delete s :: cs, ?_, .delete hu hcs⟩
    rw [composeWalk, hw]
    rfl
  | case3 first s second hd ih =>
    rintro v w x hsa hsb ha ⟨u, x, rfl, hu, hb⟩
    obtain ⟨cs, hw, hcs⟩ := ih hsa hsb.tail ha hb
    refine ⟨insert s :: cs, ?_, .insert hu hcs⟩
    rw [composeWalk.eq_3 _ _ _ hd, hw]
    rfl
  | case4 c first hd =>
    -- the first list yields elements that the second does not cover
    rintro v w x hsa - ha ⟨rfl, -⟩
    have hc := hsa c (List.mem_cons_self ..)
    cases c with
    | retain n =>
      obtain ⟨u, u', v, w, -, he, hn, hu, -⟩ := ha
      rw [(List.append_eq_nil_iff.1 he.symm).1, alike_nil_right] at hu
      subst hu hn
      simp [isEmpty] at hc
    | insert s =>
      obtain ⟨u, w, he, hu, -⟩ := ha
      rw [(List.append_eq_nil_iff.1 he.symm).1, alike_nil_right] at hu
      subst hu
      simp [isEmpty] at hc
    | delete s => exact absurd rfl (hd s)
  | case5 c second hi =>
    rintro v w x - hsb ⟨-, rfl⟩ hb
    exact absurd hb (hsb.not_carries_nil hi)
  | case6 n first m second k =>
    rename_i ih
    intro v w x hsa hsb
    exact composeWalk_keep_keep (ih hsa.tail.afterRetain hsb.tail.afterRetain)
  | case7 n first s second k =>
    rename_i ih
    intro v w x hsa hsb
    exact composeWalk_keep_delete (ih hsa.tail.afterRetain hsb.tail.afterDelete)
  | case8 s first m second k =>
    rename_i ih
    intro v w x hsa hsb
    exact composeWalk_insert_keep (ih hsa.tail.afterInsert hsb.tail.afterRetain)
  | case9 s first t second k heq =>
    rename_i ih
    intro v w x hsa hsb
    exact composeWalk_insert_delete (ih hsa.tail.afterInsert hsb.tail.afterDelete) heq
  | case10 s first t second k =>
    -- what the first list put there is not what the second deletes
    rename_i hne
    rintro v w x - - ha hb
    obtain ⟨u, w, rfl, hu, -⟩ := (carries_cut_insert (min s.length t.length)).1 ha
    obtain ⟨u', w', he, hu', -⟩ := (carries_cut_delete (min s.length t.length)).1 hb
    have hl : u.length = u'.length := by
      rw [← hu.length_eq, ← hu'.length_eq, List.length_take, List.length_take]
      omega
    obtain ⟨rfl, rfl⟩ := List.append_inj he hl
    exact absurd (alike_iff_beq.1 (hu.trans hu'.symm)) hne

/-- What the walk gives does no more than both lists do in turn. -/
theorem carries_of_composeWalk (first second : List (Component α)) : ∀ {cs : List (Component α)} {v x : List α},
    composeWalk first second = .ok cs → Carries cs v x → ∃ w, Carries first v w ∧ Carries second w x := by
  induction first, second using composeWalk.induct with
  | case1 =>
    intro cs v x h hcs
    rw [composeWalk] at h
    obtain rfl := Except.ok.inj h
    exact ⟨[], ⟨hcs.1, rfl⟩, ⟨rfl, hcs.2⟩⟩
  | case2 s first second ih =>
    intro cs v x h hcs
    rw [composeWalk] at h
    obtain ⟨rest, hrest, rfl⟩ := map_eq_ok.1 h
    obtain ⟨u, v, rfl, hu, hcs⟩ := hcs
    obtain ⟨w, ha, hb⟩ := ih hrest hcs
    exact ⟨w, .delete hu ha, hb⟩
  | case3 first s second hd ih =>
    intro cs v x h hcs
    rw [composeWalk.eq_3 _ _ _ hd] at h
    obtain ⟨rest, hrest, rfl⟩ := map_eq_ok.1 h
    obtain ⟨u, x, rfl, hu, hcs⟩ := hcs
    obtain ⟨w, ha, hb⟩ := ih hrest hcs
    exact ⟨w, ha, .insert hu hb⟩
  | case4 c first hd =>
    intro cs v x h
    cases c with
    | retain n => simp [composeWalk] at h
    | insert s => simp [composeWalk] at h
    | delete s => exact absurd rfl (hd s)
  | case5 c second hi =>
    intro cs v x h
    cases c with
    | retain n => simp [composeWalk] at h
    | insert s => exact absurd rfl (hi s)
    | delete s => simp [composeWalk] at h
  | case6 n first m second k =>
    rename_i ih
    intro cs v x h hcs
    rw [composeWalk] at h
    obtain ⟨rest, hrest, rfl⟩ := map_eq_ok.1 h
    obtain ⟨u, u', v, x, rfl, rfl, hk, hu, hcs⟩ := hcs
    obtain ⟨w, ha, hb⟩ := ih hrest hcs
    exact ⟨u ++ w, (carries_cut_retain (Nat.min_le_left ..)).2 (.retain hk (.refl u) ha),
      (carries_cut_retain (Nat.min_le_right ..)).2 (.retain hk hu hb)⟩
  | case7 n first s second k =>
    rename_i ih
    intro cs v x h hcs
    rw [composeWalk] at h
    obtain ⟨rest, hrest, rfl⟩ := map_eq_ok.1 h
    obtain ⟨u, v, rfl, hu, hcs⟩ := hcs
    obtain ⟨w, ha, hb⟩ := ih hrest hcs
    have hk : u.length = min n s.length := by rw [← hu.length_eq, List.length_take]; omega
    exact ⟨u ++ w, (carries_cut_retain (Nat.min_le_left ..)).2 (.retain hk (.refl u) ha),
      (carries_cut_delete _).2 (.delete hu hb)⟩
  | case8 s first m second k =>
    rename_i ih
    intro cs v x h hcs
    rw [composeWalk] at h
    obtain ⟨rest, hrest, rfl⟩ := map_eq_ok.1 h
    obtain ⟨u, x, rfl, hu, hcs⟩ := hcs
    obtain ⟨w, ha, hb⟩ := ih hrest hcs
    have hk : u.length = min s.length m := by rw [← hu.length_eq, List.length_take]; omega
    exact ⟨u ++ w, (carries_cut_insert _).2 (.insert hu ha),
      (carries_cut_retain (Nat.min_le_right ..)).2 (.retain hk (.refl u) hb)⟩
  | case9 s first t second k heq =>
    rename_i ih
    intro cs v x h hcs
    simp only [composeWalk] at h
    rw [if_pos heq] at h
    obtain ⟨w, ha, hb⟩ := ih h hcs
    exact ⟨_, (carries_cut_insert _).2 (.insert (.refl _) ha),
      (carries_cut_delete _).2 (.delete (alike_iff_beq.2 heq).symm hb)⟩
  | case10 s first t second k =>
    rename_i hne
    intro cs v x h
    simp only [composeWalk] at h
    rw [if_neg hne] at h
    cases h

/-- Lists over which the walk succeeds can be carried out in turn over some value. -/
theorem exists_carries_of_composeWalk [Inhabited α] {cs : List (Component α)} (h : composeWalk first second = .ok cs) :
    ∃ v w x, Carries first v w ∧ Carries second w x := by
  obtain ⟨v, x, hcs⟩ := exists_carries cs
  obtain ⟨w, ha, hb⟩ := carries_of_composeWalk first second h hcs
  exact ⟨v, w, x, ha, hb⟩

end walk

end Component

namespace Edit

open Component

section fits
variable [Element α] [L : Lengths] [EquivBEq α] {a b : Edit α} {v w x : List α}

/-- Edits that apply in turn can be composed, and the composition does both. -/
theorem Maps.compose (hfa : a.Fits) (hfb : b.Fits) (ha : a.Maps v w) (hb : b.Maps w x) :
    ∃ e, a.compose b = .ok e ∧ e.Fits ∧ e.Maps v x := by
  unfold Edit.compose
  cases hia : a.isIdentity with
  | true => exact ⟨b, rfl, hfb, hb.congr hfb.pre ((maps_of_isIdentity hia).1 ha).symm (.refl x)⟩
  | false =>
    cases hib : b.isIdentity with
    | true => exact ⟨a, rfl, hfa, ha.congr hfa.pre (.refl v) ((maps_of_isIdentity hib).1 hb)⟩
    | false =>
      have ha := (maps_iff hfa.pre hia).1 ha
      have hb := (maps_iff hfb.pre hib).1 hb
      obtain ⟨cs, hw, hcs⟩ := composeWalk_carries _ _ hfa.normal.solid hfb.normal.solid ha hb
      -- the composition takes in what `a` takes in and yields what `b` yields
      have hpre : totalPre cs = totalPre a.components := hcs.length_eq.symm.trans ha.length_eq
      have hpost : totalPost cs = totalPost b.components := hcs.length_result.symm.trans hb.length_result
      have hv : L.arithmetic.Fits v.length := ha.length_eq.symm ▸ hfa.pre
      refine ⟨ofComponents cs, ?_, fits_ofComponents (hpre ▸ hfa.pre) (hpost ▸ hfb.post), maps_ofComponents hv hcs⟩
      rw [if_neg (by simp), if_neg (by simp), hw]
      rfl

/-- Edits that can be composed apply in turn to some value. -/
theorem exists_maps_of_compose [Inhabited α] {e : Edit α} (hfa : a.Fits) (hfb : b.Fits) (h : a.compose b = .ok e) :
    ∃ v w x, a.Maps v w ∧ b.Maps w x := by
  unfold Edit.compose at h
  cases hia : a.isIdentity with
  | true =>
    obtain ⟨w, x, hb⟩ := exists_maps hfb.pre
    exact ⟨w, w, x, (maps_of_isIdentity hia).2 (.refl w), hb⟩
  | false =>
    cases hib : b.isIdentity with
    | true =>
      obtain ⟨v, w, ha⟩ := exists_maps hfa.pre
      exact ⟨v, w, w, ha, (maps_of_isIdentity hib).2 (.refl w)⟩
    | false =>
      rw [hia, hib, if_neg (by simp), if_neg (by simp)] at h
      obtain ⟨cs, hcs, -⟩ := map_eq_ok.1 h
      obtain ⟨v, w, x, ha, hb⟩ := exists_carries_of_composeWalk hcs
      exact ⟨v, w, x, (maps_iff hfa.pre hia).2 ha, (maps_iff hfb.pre hib).2 hb⟩

/-- What composing two edits promises, where `same` says which values count as equal: it succeeds exactly if
they apply in turn to some value, and on every such value it does what they do in turn. -/
def ComposeFollows (same : List α → List α → Prop) (a b : Edit α) : Prop :=
  ((∃ e, a.compose b = .ok e) ↔ ∃ v w x, a.apply v = .ok w ∧ b.apply w = .ok x) ∧
    ∀ e v w x, a.compose b = .ok e → a.apply v = .ok w → b.apply w = .ok x → ∃ z, e.apply v = .ok z ∧ same z x

theorem composeFollows_alike [Inhabited α] (hfa : a.Fits) (hfb : b.Fits) : ComposeFollows Alike a b := by
  refine ⟨⟨?_, ?_⟩, ?_⟩
  · rintro ⟨e, he⟩
    obtain ⟨v, w, x, ⟨w', hw, hww⟩, hb⟩ := exists_maps_of_compose hfa hfb he
    -- `b` applies to what `a` gives as it does to what is like it
    obtain ⟨x', hx, -⟩ := hb.congr hfb.pre hww.symm (.refl x)
    exact ⟨v, w', x', hw, hx⟩
  · rintro ⟨v, w, x, hw, hx⟩
    obtain ⟨e, he, -⟩ := (maps_of_apply hw).compose hfa hfb (maps_of_apply hx)
    exact ⟨e, he⟩
  · intro e v w x he hw hx
    obtain ⟨e', he', -, hm⟩ := (maps_of_apply hw).compose hfa hfb (maps_of_apply hx)
    obtain rfl := Except.ok.inj (he.symm.trans he')
    exact hm

end fits

section words
attribute [local instance] Lengths.word

theorem compose_wide (a b : Char) :
    (wide a).compose (insertAt 1 1 [b]) = .error (.uncovered (halfWord - 1)) := by
  simp [compose, wide, insertBetween, insertAt, isIdentity, composeWalk, afterRetain, Except.map, ofComponents,
    Component.normalize, normalizeAfter, runThen, retainThen, Component.afterDelete, Component.postLength, halfWord,
    UInt64.size]

end words

/-- The calculus of edits of one kind of sequence. Edits cost what they insert, and a value has room for what fits. -/
def calculus (α : Type) [Element α] [EquivBEq α] [L : Lengths] : Calculus (Edit α) (List α) where
  Fit e := e.Fits
  Same := Alike
  Joins _ _ := True
  cost := insertLength
  Room n v := L.arithmetic.Fits (v.length + n)
  symm := Alike.symm
  trans := Alike.trans
  room_le := fun hr hle => hr.of_le (Nat.add_le_add_left hle _)
  room_same := fun hs hr => hs.length_eq ▸ hr
  room_apply := by
    intro e n x y hf _ hr hy
    have hle := length_le_of_apply hf.pre hy
    exact hr.of_le (by omega)
  apply_same := by
    intro e x x' y hf hxy hx
    obtain ⟨y', hy, hs⟩ := (maps_of_apply hx).congr hf.pre hxy (.refl x')
    exact ⟨y', hy, hs.symm⟩
  square := by
    intro s c b x y hfs hfc _ hr hx hy
    obtain ⟨s', c', ht, ⟨z, hz, hzm⟩, ⟨z', hz', hzm'⟩, hfits⟩ :=
      (maps_of_apply hx).transform hfs hfc (maps_of_apply hy)
    obtain ⟨hfs', hfc'⟩ := hfits hr
    obtain ⟨hks, hkc⟩ := insertLength_of_transform ht
    exact ⟨s', c', ht, ⟨hfs', hks⟩, ⟨hfc', hkc⟩, z, z', hz, hz', hzm.trans hzm'.symm⟩
  join := by
    intro a b x y z _ hfa hfb _ hy hz
    obtain ⟨e, he, hfe, z', hz', hs⟩ := (maps_of_apply hy).compose hfa hfb (maps_of_apply hz)
    exact ⟨e, he, ⟨hfe, insertLength_of_compose he⟩, z', hz', hs⟩
  noop := fun hf hn _ hy => (maps_of_apply hy).alike_of_isNoop hf.pre hn

end Edit
end Coedit
