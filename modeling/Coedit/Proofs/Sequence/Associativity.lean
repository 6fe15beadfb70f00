import Coedit.Proofs.Sequence.Canonical
import Coedit.Proofs.Sequence.Composition

/-!
# Composing three edits

Three edits that apply in turn can be composed in two ways.  Both compositions do what the three do in turn, but they
need not be the same list: where the first two, or the last two, put in again exactly what they take out, normalizing
forgets what it was, and what the third edit does there is then told in other words.  Where neither pair does so, each
composition is exact, and edits that do the same are the same.  All lengths have to fit for that.

* `Component.cancels` — a run of the list inserts exactly what it deletes;
* `Component.carryOut_normalize` — normalizing any other list neither adds nor takes away values that it applies to;
* `Component.normalize_eq_of_carryOut_eq` — lists that do the same have the same normal form;
* `Component.carryOut_composeWalk` — the walk is exact;
* `TextEdit.compose_assoc`, `TextEdit.not_compose_assoc` — the two ways to compose three edits of texts.
-/

namespace Coedit

variable {α : Type}

namespace Component

open Stroke

/-! ## Runs in order -/

section gather
variable {cs rest : List (Component α)} {ins del v : List α}

/-- The components with each run put in order, where the run before them inserts `ins` and deletes `del` so far. -/
def gatherAfter (ins del : List α) : List (Component α) → List (Component α)
  | [] => [insert ins, delete del]
  | retain n :: rest =>
    if n = 0 then gatherAfter ins del rest
    else insert ins :: delete del :: retain n :: gatherAfter [] [] rest
  | insert s :: rest => gatherAfter (ins ++ s) del rest
  | delete s :: rest => gatherAfter ins (del ++ s) rest

/-- Each run is put in order: first what it inserts, then what it deletes. -/
def gather (cs : List (Component α)) : List (Component α) := gatherAfter [] [] cs

theorem ordered_run (ins del : List α) {p : List (Stroke α)} (hp : Ordered p)
    (hhead : ∀ a, ∀ y ∈ p.head?, MayFollow (.drop a) y) :
    Ordered ((insert ins).strokes ++ ((delete del).strokes ++ p)) := by
  refine List.isChain_append.2 ⟨(pairwise_strokes _).isChain, List.isChain_append.2
    ⟨(pairwise_strokes _).isChain, hp, fun x hx y hy => ?_⟩, fun x hx y _ => ?_⟩
  · obtain ⟨a, -, rfl⟩ := List.mem_map.1 (List.mem_of_getLast? hx)
    exact hhead a y hy
  · obtain ⟨a, -, rfl⟩ := List.mem_map.1 (List.mem_of_getLast? hx)
    trivial

theorem ordered_gatherAfter (cs : List (Component α)) : ∀ ins del : List α,
    Ordered ((gatherAfter ins del cs).flatMap strokes) := by
  induction cs with
  | nil => exact fun ins del => ordered_run ins del .nil (by simp)
  | cons c cs ih =>
    intro ins del
    cases c with
    | retain n =>
      unfold gatherAfter
      split
      next => exact ih ins del
      next hn =>
        obtain ⟨n, rfl⟩ := Nat.exists_eq_succ_of_ne_zero hn
        refine ordered_run ins del (List.isChain_append.2 ⟨(pairwise_strokes _).isChain, ih [] [], fun x hx y _ => ?_⟩)
          ?_
        · obtain rfl := List.eq_of_mem_replicate (List.mem_of_getLast? hx)
          trivial
        · rintro a _ ⟨⟩
          trivial
    | insert s => exact ih _ _
    | delete s => exact ih _ _

theorem strokes_retainThen (n : Nat) (rest : List (Component α)) :
    (retainThen n rest).flatMap strokes = (retain n).strokes ++ rest.flatMap strokes := by
  unfold retainThen
  split
  next m rest =>
    simp only [List.flatMap_cons, strokes, Lengths.arithmetic_exact, Arithmetic.wrap_exact]
    rw [← List.append_assoc, List.replicate_append_replicate]
  next => rfl

theorem strokes_afterDelete (del : List α) (rest : List (Component α)) :
    (afterDelete del rest).flatMap strokes = (delete del).strokes ++ rest.flatMap strokes := by
  unfold afterDelete
  split
  next hdel =>
    rw [List.isEmpty_iff.1 hdel]
    rfl
  next => rfl

section effect
variable [BEq α]

theorem carryOut_cons_congr {ds : List (Component α)} (c : Component α) (h : ∀ v, carryOut cs v = carryOut ds v)
    (v : List α) : carryOut (c :: cs) v = carryOut (c :: ds) v := by
  cases c <;> simp only [carryOut, h]

theorem carryOut_insert_append (s t : List α) (v : List α) :
    carryOut (insert (s ++ t) :: cs) v = carryOut (insert s :: insert t :: cs) v := by
  simp [carryOut, Function.comp_def]

theorem carryOut_delete_append (s t : List α) (v : List α) :
    carryOut (delete (s ++ t) :: cs) v = carryOut (delete s :: delete t :: cs) v := by
  rw [← carryOut_drops, List.map_append, List.append_assoc, carryOut_drops]
  exact carryOut_cons_congr _ (carryOut_drops t) v

/-- In which order a run inserts and deletes does not show. -/
theorem carryOut_delete_insert (s t : List α) (v : List α) :
    carryOut (delete s :: insert t :: cs) v = carryOut (insert t :: delete s :: cs) v := by
  simp only [carryOut]
  split <;> rfl

theorem carryOut_gatherAfter (cs : List (Component α)) : ∀ (ins del v : List α),
    carryOut (gatherAfter ins del cs) v = carryOut (insert ins :: delete del :: cs) v := by
  induction cs with
  | nil => exact fun _ _ _ => rfl
  | cons c cs ih =>
    intro ins del
    cases c with
    | retain n =>
      unfold gatherAfter
      split
      next hn =>
        intro v
        rw [ih]
        refine carryOut_cons_congr _ (carryOut_cons_congr _ fun v => ?_) v
        simp [hn, carryOut]
      next =>
        refine carryOut_cons_congr _ (carryOut_cons_congr _ (carryOut_cons_congr _ fun v => ?_))
        rw [ih]
        simp [carryOut]
    | insert s =>
      intro v
      rw [gatherAfter, ih, carryOut_insert_append]
      exact carryOut_cons_congr _ (fun v => (carryOut_delete_insert del s v).symm) v
    | delete s =>
      intro v
      rw [gatherAfter, ih]
      exact carryOut_cons_congr _ (carryOut_delete_append del s) v

theorem carryOut_gather (cs : List (Component α)) (v : List α) : carryOut (gather cs) v = carryOut cs v := by
  rw [gather, carryOut_gatherAfter]
  simp [carryOut]

end effect
end gather

/-! ## Normal form -/

section normal
variable [Element α] {cs ds rest : List (Component α)} {ins del : List α} {n : Nat}

theorem normalizeAfter_gatherAfter (cs : List (Component α)) : ∀ ins del : List α,
    normalizeAfter [] [] (gatherAfter ins del cs) = normalizeAfter ins del cs := by
  induction cs with
  | nil => simp [gatherAfter, normalizeAfter]
  | cons c cs ih =>
    intro ins del
    cases c with
    | retain n =>
      unfold gatherAfter
      split
      next hn => rw [ih, normalizeAfter, if_pos hn]
      next hn => simp [normalizeAfter, hn, ih]
    | insert s => exact ih _ _
    | delete s => exact ih _ _

/-- Putting runs in order does not change the normal form. -/
theorem normalize_gather (cs : List (Component α)) : normalize (gather cs) = normalize cs :=
  normalizeAfter_gatherAfter cs [] []

/-- **The normal form is told by what a list does.** -/
theorem normalize_eq_of_carryOut_eq [LawfulBEq α] [Nontrivial α] (h : ∀ v, carryOut cs v = carryOut ds v) :
    normalize cs = normalize ds := by
  have hsame : Same ((gather cs).flatMap strokes) ((gather ds).flatMap strokes) := fun v =>
    calc carryOut (spelled (gather cs)) v = carryOut cs v := by rw [carryOut_spelled, carryOut_gather]
      _ = carryOut ds v := h v
      _ = carryOut (spelled (gather ds)) v := by rw [carryOut_spelled, carryOut_gather]
  have hstrokes := eq_of_same (ordered_gatherAfter cs [] []) (ordered_gatherAfter ds [] []) hsame
  calc normalize cs = normalize (spelled (gather cs)) := by rw [normalize_spelled, normalize_gather]
    _ = normalize (spelled (gather ds)) := congrArg (fun p => normalize (p.map Stroke.component)) hstrokes
    _ = normalize ds := by rw [normalize_spelled, normalize_gather]

/-! ### Runs that put back what they take out -/

/-- A run that inserts `ins` and deletes `del` puts back what it takes out. -/
def putsBack (ins del : List α) : Bool := !ins.isEmpty && ins == del

/-- A run of the list puts back exactly what it takes out, where the first one inserts `ins` and deletes `del` before
the list begins. -/
def restoresAfter (ins del : List α) : List (Component α) → Bool
  | [] => putsBack ins del
  | retain n :: rest =>
    if n = 0 then restoresAfter ins del rest else putsBack ins del || restoresAfter [] [] rest
  | insert s :: rest => restoresAfter (ins ++ s) del rest
  | delete s :: rest => restoresAfter ins (del ++ s) rest

/-- Between two retains the list inserts exactly what it deletes. -/
def restores (cs : List (Component α)) : Bool := restoresAfter [] [] cs

theorem strokes_runThen (h : putsBack ins del = false) : (runThen ins del rest).flatMap strokes =
    (insert ins).strokes ++ ((delete del).strokes ++ rest.flatMap strokes) := by
  unfold runThen
  split
  next hins =>
    rw [strokes_afterDelete, List.isEmpty_iff.1 hins]
    rfl
  next hins =>
    have hne : (ins == del) = false := by simpa [putsBack, hins] using h
    rw [hne, if_neg Bool.false_ne_true, List.flatMap_cons, strokes_afterDelete]

theorem strokes_normalizeAfter (cs : List (Component α)) : ∀ {ins del : List α}, restoresAfter ins del cs = false →
    (normalizeAfter ins del cs).flatMap strokes = (gatherAfter ins del cs).flatMap strokes := by
  induction cs with
  | nil => exact fun h => strokes_runThen h
  | cons c cs ih =>
    intro ins del h
    cases c with
    | retain n =>
      unfold restoresAfter at h
      unfold normalizeAfter gatherAfter
      split
      next hn => exact ih (by rwa [if_pos hn] at h)
      next hn =>
        rw [if_neg hn, Bool.or_eq_false_iff] at h
        rw [strokes_runThen h.1, strokes_retainThen, ih h.2]
        rfl
    | insert s => exact ih h
    | delete s => exact ih h

/-- If no run puts back what it takes out, the normal form applies to no more values than the list. -/
theorem carryOut_normalize (h : restores cs = false) (v : List α) : carryOut (normalize cs) v = carryOut cs v :=
  calc carryOut (normalize cs) v = carryOut (spelled (normalize cs)) v := (carryOut_spelled _ v).symm
    _ = carryOut (spelled (gather cs)) v :=
      congrArg (fun p => carryOut (p.map Stroke.component) v) (strokes_normalizeAfter cs h)
    _ = carryOut cs v := by rw [carryOut_spelled, carryOut_gather]

end normal

/-! ## The walk -/

section walk
variable [Element α] {first second cs : List (Component α)} {v w x : List α}

/-- A walk over nothing but the first list gives it back. -/
theorem eq_of_composeWalk_nil (first : List (Component α)) :
    ∀ {cs : List (Component α)}, composeWalk first [] = .ok cs → cs = first := by
  induction first with
  | nil =>
    intro cs h
    rw [composeWalk] at h
    exact (Except.ok.inj h).symm
  | cons c first ih =>
    intro cs h
    cases c with
    | delete s =>
      rw [composeWalk] at h
      obtain ⟨rest, hrest, rfl⟩ := map_eq_ok.1 h
      rw [ih hrest]
    | retain n => simp [composeWalk] at h
    | insert s => simp [composeWalk] at h

/-- A walk over nothing but the second list gives it back. -/
theorem eq_of_nil_composeWalk (second : List (Component α)) :
    ∀ {cs : List (Component α)}, composeWalk [] second = .ok cs → cs = second := by
  induction second with
  | nil =>
    intro cs h
    rw [composeWalk] at h
    exact (Except.ok.inj h).symm
  | cons c second ih =>
    intro cs h
    cases c with
    | insert s =>
      rw [composeWalk.eq_3 [] s second (by rintro _ _ ⟨⟩)] at h
      obtain ⟨rest, hrest, rfl⟩ := map_eq_ok.1 h
      rw [ih hrest]
    | retain n => simp [composeWalk] at h
    | delete s => simp [composeWalk] at h

variable [LawfulBEq α]

theorem carries_iff_carryOut_eq : Carries cs v w ↔ carryOut cs v = some w := by
  rw [carries_iff_carryOut]
  simp only [alike_iff_eq, exists_eq_right]

/-- **The walk is exact.** What it gives does what both lists do in turn, to no other values. -/
theorem carryOut_composeWalk (hfirst : Solid first) (hsecond : Solid second) (h : composeWalk first second = .ok cs)
    (v : List α) : carryOut cs v = (carryOut first v).bind (carryOut second) := by
  refine Option.ext fun x => ?_
  simp only [Option.bind_eq_some_iff, ← carries_iff_carryOut_eq]
  refine ⟨carries_of_composeWalk first second h, fun ⟨w, ha, hb⟩ => ?_⟩
  obtain ⟨cs', h', hcs⟩ := composeWalk_carries first second hfirst hsecond ha hb
  obtain rfl := Except.ok.inj (h.symm.trans h')
  exact hcs

end walk

end Component

/-! ## Edits -/

namespace Edit

open Component

variable [Element α] [L : Lengths] {a b c : Edit α} {cs : List (Component α)} {t u v w x : List α}

omit L in
/-- Between two retains, `a` and then `b` insert exactly what they delete. -/
def restores (a b : Edit α) : Bool :=
  match composeWalk a.components b.components with
  | .ok cs => Component.restores cs
  | .error _ => false

/-- Where the walk succeeds, composing is walking. -/
theorem compose_of_composeWalk (hfa : a.Fits) (hfb : b.Fits) (h : composeWalk a.components b.components = .ok cs) :
    a.compose b = .ok (ofComponents cs) := by
  unfold compose
  split
  next ha =>
    rw [List.isEmpty_iff.1 ha] at h
    obtain rfl := eq_of_nil_composeWalk _ h
    rw [ofComponents_components hfb.normal]
  next =>
    split
    next hb =>
      rw [List.isEmpty_iff.1 hb] at h
      obtain rfl := eq_of_composeWalk_nil _ h
      rw [ofComponents_components hfa.normal]
    next =>
      rw [h]
      rfl

theorem compose_of_isIdentity_left (ha : a.isIdentity = true) : a.compose b = .ok b := if_pos ha

theorem compose_of_isIdentity_right (hb : b.isIdentity = true) : a.compose b = .ok a := by
  unfold compose
  rw [if_pos hb]
  split
  next ha => exact congrArg Except.ok (Edit.ext ((List.isEmpty_iff.1 hb).trans (List.isEmpty_iff.1 ha).symm))
  next => rfl

section lawful
variable [LawfulBEq α] {e ab bc l r : Edit α}

/-- Composing edits that can be carried out in turn is walking. -/
theorem walk_of_compose (hfa : a.Fits) (hfb : b.Fits) (h : a.compose b = .ok e) (ha : Carries a.components v w)
    (hb : Carries b.components w x) :
    ∃ cs, composeWalk a.components b.components = .ok cs ∧ e = ofComponents (L := .exact) cs ∧ e.Fits ∧
      Carries e.components v x := by
  obtain ⟨cs, hwalk, hcs⟩ := composeWalk_carries _ _ hfa.normal.solid hfb.normal.solid ha hb
  obtain rfl := Except.ok.inj (h.symm.trans (compose_of_composeWalk hfa hfb hwalk))
  have hpre : L.arithmetic.Fits (totalPre cs) := by
    rw [← hcs.length_eq, ha.length_eq]
    exact hfa.pre
  have hpost : L.arithmetic.Fits (totalPost cs) := by
    rw [← hcs.length_result, hb.length_result]
    exact hfb.post
  have heq : ofComponents cs = ofComponents (L := .exact) cs := ofComponents_of_fits hpre
  exact ⟨cs, hwalk, heq, fits_ofComponents hpre hpost, heq ▸ carries_normalize hcs⟩

omit L in
/-- If no run puts back what it takes out, the composition applies to no more values than both edits in turn. -/
theorem carryOut_of_not_restores (hna : a.IsNormal) (hnb : b.IsNormal)
    (hwalk : composeWalk a.components b.components = .ok cs) (h : a.restores b = false) (v : List α) :
    carryOut (ofComponents (L := .exact) cs).components v = (carryOut a.components v).bind (carryOut b.components) := by
  rw [restores, hwalk] at h
  exact (carryOut_normalize h v).trans (carryOut_composeWalk hna.solid hnb.solid hwalk v)

theorem components_eq_of_carries [Nontrivial α] (hfa : a.Fits) (hfb : b.Fits) (hfc : c.Fits)
    (hab : a.compose b = .ok ab) (hbc : b.compose c = .ok bc) (hl : ab.compose c = .ok l) (hr : a.compose bc = .ok r)
    (ha : Carries a.components t u) (hb : Carries b.components u v) (hc : Carries c.components v w)
    (hfirst : a.restores b = false) (hlast : b.restores c = false) : l.components = r.components := by
  obtain ⟨_, hwalk, hab', hfab, hmab⟩ := walk_of_compose hfa hfb hab ha hb
  obtain ⟨_, hwalk', hbc', hfbc, hmbc⟩ := walk_of_compose hfb hfc hbc hb hc
  obtain ⟨_, hwalkl, rfl, -⟩ := walk_of_compose hfab hfc hl hmab hc
  obtain ⟨_, hwalkr, rfl, -⟩ := walk_of_compose hfa hfbc hr ha hmbc
  refine normalize_eq_of_carryOut_eq fun z => ?_
  rw [carryOut_composeWalk hfab.normal.solid hfc.normal.solid hwalkl,
    carryOut_composeWalk hfa.normal.solid hfbc.normal.solid hwalkr, hab',
    carryOut_of_not_restores hfa.normal hfb.normal hwalk hfirst, Option.bind_assoc, hbc']
  exact congrArg _ (funext fun y => (carryOut_of_not_restores hfb.normal hfc.normal hwalk' hlast y).symm)

theorem apply_of_compose (hfa : a.Fits) (hfb : b.Fits) (h : a.compose b = .ok e) (ha : a.apply v = .ok w)
    (hb : b.apply w = .ok x) : e.apply v = .ok x := by
  obtain ⟨e', he', -, y, hy, hyx⟩ := (maps_of_apply ha).compose hfa hfb (maps_of_apply hb)
  obtain rfl := Except.ok.inj (h.symm.trans he')
  rw [hy, alike_iff_eq.1 hyx]

/-- The two compositions of three edits that apply in turn are the same, if no run puts back what it takes out. -/
theorem components_eq_of_not_restores [Nontrivial α] (hfa : a.Fits) (hfb : b.Fits) (hfc : c.Fits)
    (hab : a.compose b = .ok ab) (hbc : b.compose c = .ok bc) (hl : ab.compose c = .ok l) (hr : a.compose bc = .ok r)
    (ha : a.apply t = .ok u) (hb : b.apply u = .ok v) (hc : c.apply v = .ok w) (hfirst : a.restores b = false)
    (hlast : b.restores c = false) : l.components = r.components := by
  cases hia : a.isIdentity with
  | true =>
    obtain rfl := Except.ok.inj (hab.symm.trans (compose_of_isIdentity_left hia))
    obtain rfl := Except.ok.inj (hr.symm.trans (compose_of_isIdentity_left hia))
    rw [Except.ok.inj (hl.symm.trans hbc)]
  | false =>
    cases hib : b.isIdentity with
    | true =>
      obtain rfl := Except.ok.inj (hab.symm.trans (compose_of_isIdentity_right hib))
      obtain rfl := Except.ok.inj (hbc.symm.trans (compose_of_isIdentity_left hib))
      rw [Except.ok.inj (hl.symm.trans hr)]
    | false =>
      cases hic : c.isIdentity with
      | true =>
        obtain rfl := Except.ok.inj (hbc.symm.trans (compose_of_isIdentity_right hic))
        obtain rfl := Except.ok.inj (hl.symm.trans (compose_of_isIdentity_right hic))
        rw [Except.ok.inj (hab.symm.trans hr)]
      | false =>
        exact components_eq_of_carries hfa hfb hfc hab hbc hl hr ((maps_iff hfa.pre hia).1 (maps_of_apply ha))
          ((maps_iff hfb.pre hib).1 (maps_of_apply hb)) ((maps_iff hfc.pre hic).1 (maps_of_apply hc)) hfirst hlast

end lawful

end Edit

namespace TextEdit

/-- **The two ways to compose three edits.** For edits whose lengths fit and that apply in turn to some text both succeed
and do what the three do in turn. They are the same list exactly if they do the same to every text, and they do so
unless between two retains the first two edits, or the last two, insert exactly what they delete. -/
theorem compose_assoc [Lengths] {a b c : TextEdit} {t u v w : List Char} (hfa : a.Fits) (hfb : b.Fits) (hfc : c.Fits)
    (ha : a.apply t = .ok u) (hb : b.apply u = .ok v) (hc : c.apply v = .ok w) : ∃ ab bc l r : TextEdit,
      a.compose b = .ok ab ∧ ab.compose c = .ok l ∧ b.compose c = .ok bc ∧ a.compose bc = .ok r ∧
        (∀ t u v w, a.apply t = .ok u → b.apply u = .ok v → c.apply v = .ok w → l.apply t = .ok w ∧ r.apply t = .ok w) ∧
        (l.components = r.components ↔ ∀ z, (l.apply z).toOption = (r.apply z).toOption) ∧
        (a.restores b = false → b.restores c = false → l.components = r.components) := by
  have : Nontrivial Char := ⟨'a', 'b', by decide⟩
  obtain ⟨ab, hab, hfab, hmab⟩ := (Edit.maps_of_apply ha).compose hfa hfb (Edit.maps_of_apply hb)
  obtain ⟨bc, hbc, hfbc, hmbc⟩ := (Edit.maps_of_apply hb).compose hfb hfc (Edit.maps_of_apply hc)
  obtain ⟨l, hl, hfl, -⟩ := hmab.compose hfab hfc (Edit.maps_of_apply hc)
  obtain ⟨r, hr, hfr, -⟩ := (Edit.maps_of_apply ha).compose hfa hfbc hmbc
  refine ⟨ab, bc, l, r, hab, hl, hbc, hr, fun t u v w ha hb hc => ⟨?_, ?_⟩, ⟨fun heq z => ?_, fun hsame => ?_⟩,
    Edit.components_eq_of_not_restores hfa hfb hfc hab hbc hl hr ha hb hc⟩
  · exact Edit.apply_of_compose hfab hfc hl (Edit.apply_of_compose hfa hfb hab ha hb) hc
  · exact Edit.apply_of_compose hfa hfbc hr ha (Edit.apply_of_compose hfb hfc hbc hb hc)
  · rw [Edit.ext heq]
  · rw [Edit.eq_of_toOption_apply hfl.normal hfl.pre hfr.normal hfr.pre hsame]

section words
attribute [local instance] Lengths.word

/-- "b" is inserted behind "a", which is then deleted, and "c" is inserted in its place. -/
theorem compose_assoc_replacing : ∃ ab bc l r : TextEdit,
    (Edit.insertAt 1 1 ['b']).compose (.deleteAt 2 0 ['a']) = .ok ab ∧ ab.compose (.insertAt 1 0 ['c']) = .ok l ∧
      (Edit.deleteAt 2 0 ['a']).compose (.insertAt 1 0 ['c']) = .ok bc ∧
      (Edit.insertAt 1 1 ['b']).compose bc = .ok r ∧ l.apply ['a'] = .ok ['c', 'b'] ∧ l.components = r.components := by
  have ha : (Edit.insertAt 1 1 ['b']).apply ['a'] = .ok ['a', 'b'] := rfl
  have hb : (Edit.deleteAt 2 0 ['a']).apply ['a', 'b'] = .ok ['b'] := rfl
  have hc : (Edit.insertAt 1 0 ['c']).apply ['b'] = .ok ['c', 'b'] := rfl
  obtain ⟨ab, bc, l, r, hab, hl, hbc, hr, happly, -, heq⟩ :=
    compose_assoc (by decide) (by decide) (by decide) ha hb hc
  exact ⟨ab, bc, l, r, hab, hl, hbc, hr, (happly _ _ _ _ ha hb hc).1, heq (by decide +kernel) (by decide +kernel)⟩

/-- Deleting the text "a" and inserting it again is composed to keeping it, and then the third edit inserts behind it.
If the insertion is composed with the third edit first, both letters are inserted and the old one is deleted. -/
theorem not_compose_assoc : ¬ ∀ (a b c : TextEdit) (t u v w : List Char), a.apply t = .ok u → b.apply u = .ok v →
    c.apply v = .ok w → ∃ ab bc l r : TextEdit, a.compose b = .ok ab ∧ ab.compose c = .ok l ∧ b.compose c = .ok bc ∧
      a.compose bc = .ok r ∧ l.components = r.components := by
  intro h
  obtain ⟨ab, bc, l, r, hab, hl, hbc, hr, heq⟩ := h (.deleteAt 1 0 ['a']) (.insertAt 0 0 ['a']) (.insertAt 1 1 ['b'])
    ['a'] [] ['a'] ['a', 'b'] rfl rfl rfl
  obtain rfl : l = r := Edit.ext heq
  have hleft :
      ((Edit.deleteAt 1 0 ['a']).compose (.insertAt 0 0 ['a']) >>= (·.compose (.insertAt 1 1 ['b']))).toOption.map
        (·.components.map Component.isRetain) = some [true, false] := by decide +kernel
  have hright :
      ((Edit.insertAt 0 0 ['a']).compose (.insertAt 1 1 ['b']) >>= (Edit.deleteAt 1 0 ['a']).compose).toOption.map
        (·.components.map Component.isRetain) = some [false, false] := by decide +kernel
  simp only [hab, hl, bind, Except.bind] at hleft
  simp only [hbc, hr, bind, Except.bind] at hright
  exact absurd (hleft.symm.trans hright) (by decide)

end words

end TextEdit
end Coedit
