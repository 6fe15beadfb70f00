import Coedit.Proofs.Sequence.Carrying

/-!
# Transforming is merging by position

Two component lists over one value have a merge that is read off position by position: at each position
comes what the server inserts there, then what the client inserts there, then the element of the value
unless one of the two deletes it.  Both ways round the square of `Edit.transform` end in the merge.

* `Component.merge` — the merge;
* `Component.transformWalk_carries` — the walk over both lists succeeds and leads both ways to the merge;
* `Edit.transform_merges` — transforming succeeds exactly for edits that share a value, and merges them.
-/

namespace Coedit

variable {α : Type}

namespace Component

/-! ## The merge -/

def inserted : Component α → List α
  | insert s => s
  | _ => []

def isDelete : Component α → Bool
  | delete _ => true
  | _ => false

/-- What the components, the first of which stands at `start`, insert at position `p`. -/
def insertedAt (p start : Nat) : List (Component α) → List α
  | [] => []
  | c :: cs => (if start = p then c.inserted else []) ++ insertedAt p (start + c.preLength) cs

/-- Whether the components, the first of which stands at `start`, delete the element at position `p`. -/
def deletesAt (p start : Nat) : List (Component α) → Bool
  | [] => false
  | c :: cs =>
    (c.isDelete && decide (start ≤ p) && decide (p < start + c.preLength))
      || deletesAt p (start + c.preLength) cs

/-- What the merge has at position `p` of the value. -/
def mergedAt (server client : List (Component α)) (v : List α) (p : Nat) : List α :=
  insertedAt p 0 server ++ insertedAt p 0 client
    ++ if deletesAt p 0 server || deletesAt p 0 client then [] else v[p]?.toList

/-- The merge of two component lists over the value `v`, from its first position to its end. -/
def merge (server client : List (Component α)) (v : List α) : List α :=
  (List.range (v.length + 1)).flatMap (mergedAt server client v)

variable {cs cs' server server' client client' : List (Component α)} {s a v : List α} {p k n start : Nat}

/-! ### Moving along the value -/

theorem insertedAt_add (k p start : Nat) (cs : List (Component α)) :
    insertedAt (k + p) (k + start) cs = insertedAt p start cs := by
  induction cs generalizing start with
  | nil => rfl
  | cons c cs ih => simp only [insertedAt, Nat.add_left_cancel_iff, Nat.add_assoc, ih]

theorem insertedAt_of_lt (h : p < start) : insertedAt p start cs = [] := by
  induction cs generalizing start with
  | nil => rfl
  | cons c cs ih => rw [insertedAt, if_neg (by omega), ih (by omega), List.append_nil]

theorem deletesAt_add (k p start : Nat) (cs : List (Component α)) :
    deletesAt (k + p) (k + start) cs = deletesAt p start cs := by
  induction cs generalizing start with
  | nil => rfl
  | cons c cs ih =>
    simp only [deletesAt, Nat.add_le_add_iff_left, Nat.add_lt_add_iff_left, Nat.add_assoc, ih]

theorem deletesAt_of_lt (h : p < start) : deletesAt p start cs = false := by
  induction cs generalizing start with
  | nil => rfl
  | cons c cs ih =>
    rw [deletesAt, ih (by omega), decide_eq_false (by omega), Bool.and_false, Bool.false_and, Bool.or_false]

/-- Over the next `k` elements `cs` inserts nothing, and it deletes them all or, if `deleting` is false, none;
what it does from there on `cs'` does from the start. -/
structure Advances (k : Nat) (deleting : Bool) (cs cs' : List (Component α)) : Prop where
  insertedAt_lt : ∀ p < k, insertedAt p 0 cs = []
  deletesAt_lt : ∀ p < k, deletesAt p 0 cs = deleting
  insertedAt_ge : ∀ p, insertedAt (k + p) 0 cs = insertedAt p 0 cs'
  deletesAt_ge : ∀ p, deletesAt (k + p) 0 cs = deletesAt p 0 cs'

theorem advances_retain (hk : k ≤ n) : Advances k false (retain n :: cs) (afterRetain n k cs) where
  insertedAt_lt p hp := by
    rw [insertedAt, insertedAt_of_lt (by simp only [preLength]; omega)]
    simp [inserted]
  deletesAt_lt p hp := by
    rw [deletesAt, deletesAt_of_lt (by simp only [preLength]; omega)]
    rfl
  insertedAt_ge p := by
    unfold afterRetain
    split
    next hlt =>
      have hn : 0 + n = k + (0 + (n - k)) := by omega
      simp only [insertedAt, inserted, preLength, ite_self, List.nil_append, hn, insertedAt_add]
    next =>
      obtain rfl : k = n := by omega
      simpa only [insertedAt, inserted, preLength, ite_self, List.nil_append, Nat.zero_add, Nat.add_zero]
        using insertedAt_add k p 0 cs
  deletesAt_ge p := by
    unfold afterRetain
    split
    next hlt =>
      have hn : 0 + n = k + (0 + (n - k)) := by omega
      simp only [deletesAt, isDelete, preLength, Bool.false_and, Bool.false_or, hn, deletesAt_add]
    next =>
      obtain rfl : k = n := by omega
      simpa only [deletesAt, isDelete, preLength, Bool.false_and, Bool.false_or, Nat.zero_add, Nat.add_zero]
        using deletesAt_add k p 0 cs

theorem advances_delete (hk : k ≤ s.length) :
    Advances k true (delete s :: cs) (afterDelete (s.drop k) cs) where
  insertedAt_lt p hp := by
    rw [insertedAt, insertedAt_of_lt (by simp only [preLength]; omega)]
    simp [inserted]
  deletesAt_lt p hp := by
    have hd : p < 0 + (delete s).preLength := by simp only [preLength]; omega
    rw [deletesAt, decide_eq_true hd, decide_eq_true (Nat.zero_le p)]
    rfl
  insertedAt_ge p := by
    unfold afterDelete
    split
    next hs =>
      obtain rfl : k = s.length := by
        have : s.length ≤ k := by simpa using hs
        omega
      simpa only [insertedAt, inserted, preLength, ite_self, List.nil_append, Nat.zero_add, Nat.add_zero]
        using insertedAt_add s.length p 0 cs
    next =>
      have hn : 0 + s.length = k + (0 + (s.drop k).length) := by rw [List.length_drop]; omega
      simp only [insertedAt, inserted, preLength, ite_self, List.nil_append, hn, insertedAt_add]
  deletesAt_ge p := by
    unfold afterDelete
    split
    next hs =>
      obtain rfl : k = s.length := by
        have : s.length ≤ k := by simpa using hs
        omega
      have hd : ¬ s.length + p < 0 + s.length := by omega
      rw [deletesAt, preLength, decide_eq_false hd, Bool.and_false, Bool.false_or]
      simpa only [Nat.zero_add, Nat.add_zero] using deletesAt_add s.length p 0 cs
    next =>
      have hn : 0 + s.length = k + (0 + (s.drop k).length) := by rw [List.length_drop]; omega
      simp only [deletesAt, isDelete, preLength, hn, deletesAt_add, Nat.zero_le, decide_true,
        Nat.add_lt_add_iff_left]
      rfl

theorem flatMap_range_getElem? (a : List α) : (List.range a.length).flatMap (fun p => a[p]?.toList) = a := by
  induction a with
  | nil => rfl
  | cons x a ih =>
    rw [List.length_cons, List.range_succ_eq_map, List.flatMap_cons, List.flatMap_map]
    simp only [List.getElem?_cons_zero, Nat.succ_eq_add_one, List.getElem?_cons_succ, ih]
    rfl

/-- Elements over which both lists advance stay unless one of the two deletes them. -/
theorem merge_advance {d d' : Bool} (hs : Advances a.length d server server')
    (hc : Advances a.length d' client client') :
    merge server client (a ++ v) = (if d || d' then [] else a) ++ merge server' client' v := by
  have hfirst : (List.range a.length).flatMap (mergedAt server client (a ++ v))
      = if d || d' then [] else a := by
    have heq : ∀ p ∈ List.range a.length,
        mergedAt server client (a ++ v) p = if d || d' then [] else a[p]?.toList := by
      intro p hp
      have hp := List.mem_range.1 hp
      rw [mergedAt, hs.insertedAt_lt p hp, hc.insertedAt_lt p hp, hs.deletesAt_lt p hp,
        hc.deletesAt_lt p hp, List.getElem?_append_left hp]
      rfl
    rw [List.flatMap_congr heq]
    cases d || d' with
    | false => exact flatMap_range_getElem? a
    | true => simp
  have hrest : ∀ p, mergedAt server client (a ++ v) (a.length + p) = mergedAt server' client' v p := by
    intro p
    rw [mergedAt, hs.insertedAt_ge, hc.insertedAt_ge, hs.deletesAt_ge, hc.deletesAt_ge,
      List.getElem?_append_right (by omega), Nat.add_sub_cancel_left]
    rfl
  unfold merge
  rw [List.length_append, Nat.add_assoc, List.range_add, List.flatMap_append, hfirst, List.flatMap_map]
  simp only [hrest]

/-! ### Inserts -/

def Solid (cs : List (Component α)) : Prop := ∀ c ∈ cs, c.isEmpty = false

theorem Solid.tail {c : Component α} (h : Solid (c :: cs)) : Solid cs :=
  fun d hd => h d (List.mem_cons_of_mem _ hd)

theorem Solid.afterRetain (h : Solid cs) : Solid (afterRetain n k cs) := by
  unfold Component.afterRetain
  split
  next hlt =>
    intro c hc
    rcases List.mem_cons.1 hc with rfl | hc
    · simp only [isEmpty, beq_eq_false_iff_ne]
      omega
    · exact h c hc
  next => exact h

theorem Solid.afterDelete (h : Solid cs) : Solid (afterDelete s cs) := by
  unfold Component.afterDelete
  split
  next => exact h
  next hs =>
    intro c hc
    rcases List.mem_cons.1 hc with rfl | hc
    · simpa [isEmpty] using hs
    · exact h c hc

theorem Solid.afterInsert (h : Solid cs) : Solid (afterInsert s cs) := by
  unfold Component.afterInsert
  split
  next => exact h
  next hs =>
    intro c hc
    rcases List.mem_cons.1 hc with rfl | hc
    · simpa [isEmpty] using hs
    · exact h c hc

/-- A list that does not begin with an insert inserts nothing at its start. -/
theorem insertedAt_zero (h : Solid cs) (hi : ∀ s cs', cs ≠ insert s :: cs') : insertedAt 0 0 cs = [] := by
  cases cs with
  | nil => rfl
  | cons c cs =>
    have hc := h c (List.mem_cons_self ..)
    cases c with
    | retain n =>
      have : n ≠ 0 := by simpa [isEmpty] using hc
      rw [insertedAt, insertedAt_of_lt (by simp only [preLength]; omega)]
      rfl
    | insert s => exact absurd rfl (hi s cs)
    | delete s =>
      have : s.length ≠ 0 := by simpa [isEmpty] using hc
      rw [insertedAt, insertedAt_of_lt (by simp only [preLength]; omega)]
      rfl

theorem merge_insert_server : merge (insert s :: server) client v = s ++ merge server client v := by
  have hrest : ∀ p, mergedAt (insert s :: server) client v (p + 1) = mergedAt server client v (p + 1) := by
    intro p
    simp [mergedAt, insertedAt, deletesAt, isDelete, preLength]
  unfold merge
  rw [List.range_succ_eq_map, List.flatMap_cons, List.flatMap_cons, List.flatMap_map, List.flatMap_map]
  simp only [Nat.succ_eq_add_one, hrest]
  simp [mergedAt, insertedAt, deletesAt, isDelete, preLength, inserted]

theorem merge_insert_client (h : insertedAt 0 0 server = []) :
    merge server (insert s :: client) v = s ++ merge server client v := by
  have hrest : ∀ p, mergedAt server (insert s :: client) v (p + 1) = mergedAt server client v (p + 1) := by
    intro p
    simp [mergedAt, insertedAt, deletesAt, isDelete, preLength]
  unfold merge
  rw [List.range_succ_eq_map, List.flatMap_cons, List.flatMap_cons, List.flatMap_map, List.flatMap_map]
  simp only [Nat.succ_eq_add_one, hrest]
  simp [mergedAt, insertedAt, deletesAt, isDelete, preLength, inserted, h]

/-! ## The walk -/

section walk
variable [Element α] [EquivBEq α]

omit [EquivBEq α] in
/-- At the end of a value only inserts can be carried out. -/
theorem Solid.not_carries_nil {c : Component α} {cs : List (Component α)} {w : List α} (h : Solid (c :: cs))
    (hi : ∀ s, c ≠ insert s) : ¬ Carries (c :: cs) [] w := by
  intro hw
  have hl := hw.length_eq
  have hc := h c (List.mem_cons_self ..)
  rw [totalPre_cons, List.length_nil] at hl
  cases c with
  | retain n =>
    have : n ≠ 0 := by simpa [isEmpty] using hc
    simp only [preLength] at hl
    omega
  | insert s => exact absurd rfl (hi s)
  | delete s =>
    have : s.length ≠ 0 := by simpa [isEmpty] using hc
    simp only [preLength] at hl
    omega

/-- What the walk over two lists of one value is to do: it succeeds, and both ways round it leads to the
merge. -/
def Closes (server client : List (Component α)) (v x y : List α) : Prop :=
  ∃ s' c', transformWalk server client = .ok (s', c') ∧ Carries c' x (merge server client v) ∧
    Carries s' y (merge server client v)

variable {m : Nat} {t x y : List α}

/-- Both lists keep the next elements. -/
theorem closes_keep_keep
    (ih : ∀ {v x y}, Carries (afterRetain n (min n m) server) v x →
      Carries (afterRetain m (min n m) client) v y →
      Closes (afterRetain n (min n m) server) (afterRetain m (min n m) client) v x y)
    (hs : Carries (retain n :: server) v x) (hc : Carries (retain m :: client) v y) :
    Closes (retain n :: server) (retain m :: client) v x y := by
  have hn : min n m ≤ n := Nat.min_le_left ..
  have hm : min n m ≤ m := Nat.min_le_right ..
  obtain ⟨u, u', v, x, rfl, rfl, hu, huu, hs⟩ := (carries_cut_retain hn).1 hs
  obtain ⟨t, t', v', y, he, rfl, ht, htt, hc⟩ := (carries_cut_retain hm).1 hc
  obtain ⟨rfl, rfl⟩ := List.append_inj he (hu.trans ht.symm)
  obtain ⟨s', c', hw, hc', hs'⟩ := ih hs hc
  unfold Closes
  rw [merge_advance (advances_retain (hu ▸ hn)) (advances_retain (hu ▸ hm)), hu]
  refine ⟨retain (min n m) :: s', retain (min n m) :: c', ?_, ?_, ?_⟩
  · rw [transformWalk, hw]
    rfl
  · exact .retain (huu.length_eq ▸ hu) huu.symm hc'
  · exact .retain (htt.length_eq ▸ ht) htt.symm hs'

/-- The server deletes elements that the client keeps. -/
theorem closes_delete_keep
    (ih : ∀ {v x y}, Carries (afterDelete (s.drop (min s.length m)) server) v x →
      Carries (afterRetain m (min s.length m) client) v y →
      Closes (afterDelete (s.drop (min s.length m)) server) (afterRetain m (min s.length m) client) v x y)
    (hs : Carries (delete s :: server) v x) (hc : Carries (retain m :: client) v y) :
    Closes (delete s :: server) (retain m :: client) v x y := by
  have hn : min s.length m ≤ s.length := Nat.min_le_left ..
  have hm : min s.length m ≤ m := Nat.min_le_right ..
  obtain ⟨u, v, rfl, hu, hs⟩ := (carries_cut_delete (min s.length m)).1 hs
  obtain ⟨t, t', v', y, he, rfl, ht, htt, hc⟩ := (carries_cut_retain hm).1 hc
  have hl : u.length = min s.length m := by rw [← hu.length_eq, List.length_take]; omega
  obtain ⟨rfl, rfl⟩ := List.append_inj he (hl.trans ht.symm)
  obtain ⟨s', c', hw, hc', hs'⟩ := ih hs hc
  unfold Closes
  rw [merge_advance (advances_delete (hl ▸ hn)) (advances_retain (hl ▸ hm)), hl]
  refine ⟨delete (s.take (min s.length m)) :: s', c', ?_, hc', ?_⟩
  · rw [transformWalk, hw]
    rfl
  · exact .delete (hu.trans htt) hs'

/-- The client deletes elements that the server keeps. -/
theorem closes_keep_delete
    (ih : ∀ {v x y}, Carries (afterRetain n (min n s.length) server) v x →
      Carries (afterDelete (s.drop (min n s.length)) client) v y →
      Closes (afterRetain n (min n s.length) server) (afterDelete (s.drop (min n s.length)) client) v x y)
    (hs : Carries (retain n :: server) v x) (hc : Carries (delete s :: client) v y) :
    Closes (retain n :: server) (delete s :: client) v x y := by
  have hn : min n s.length ≤ n := Nat.min_le_left ..
  have hm : min n s.length ≤ s.length := Nat.min_le_right ..
  obtain ⟨u, u', v, x, rfl, rfl, hu, huu, hs⟩ := (carries_cut_retain hn).1 hs
  obtain ⟨t, v', he, ht, hc⟩ := (carries_cut_delete (min n s.length)).1 hc
  have hl : t.length = min n s.length := by rw [← ht.length_eq, List.length_take]; omega
  obtain ⟨rfl, rfl⟩ := List.append_inj he (hu.trans hl.symm)
  obtain ⟨s', c', hw, hc', hs'⟩ := ih hs hc
  unfold Closes
  rw [merge_advance (advances_retain (hu ▸ hn)) (advances_delete (hu ▸ hm)), hu]
  refine ⟨s', delete (s.take (min n s.length)) :: c', ?_, ?_, hs'⟩
  · rw [transformWalk, hw]
    rfl
  · exact .delete (ht.trans huu) hc'

/-- Both lists delete the next elements, which must be the same for both to have found them. -/
theorem closes_delete_delete
    (ih : ∀ {v x y}, Carries (afterDelete (s.drop (min s.length t.length)) server) v x →
      Carries (afterDelete (t.drop (min s.length t.length)) client) v y →
      Closes (afterDelete (s.drop (min s.length t.length)) server)
        (afterDelete (t.drop (min s.length t.length)) client) v x y)
    (hs : Carries (delete s :: server) v x) (hc : Carries (delete t :: client) v y) :
    Closes (delete s :: server) (delete t :: client) v x y := by
  have hn : min s.length t.length ≤ s.length := Nat.min_le_left ..
  have hm : min s.length t.length ≤ t.length := Nat.min_le_right ..
  obtain ⟨u, v, rfl, hu, hs⟩ := (carries_cut_delete (min s.length t.length)).1 hs
  obtain ⟨u', v', he, hu', hc⟩ := (carries_cut_delete (min s.length t.length)).1 hc
  have hl : u.length = min s.length t.length := by rw [← hu.length_eq, List.length_take]; omega
  have hl' : u'.length = min s.length t.length := by rw [← hu'.length_eq, List.length_take]; omega
  obtain ⟨rfl, rfl⟩ := List.append_inj he (hl.trans hl'.symm)
  obtain ⟨s', c', hw, hc', hs'⟩ := ih hs hc
  have heq : (s.take (min s.length t.length) == t.take (min s.length t.length)) = true :=
    alike_iff_beq.1 (hu.trans hu'.symm)
  unfold Closes
  rw [merge_advance (advances_delete (hl ▸ hn)) (advances_delete (hl ▸ hm)), hl]
  refine ⟨s', c', ?_, hc', hs'⟩
  simp only [transformWalk, heq, if_true, hw]

/-- **The walk over two lists of one value succeeds, and both ways round it leads to the merge.** -/
theorem transformWalk_carries (server client : List (Component α)) : ∀ {v x y : List α}, Solid server →
    Solid client → Carries server v x → Carries client v y → Closes server client v x y := by
  induction server, client using transformWalk.induct with
  | case1 =>
    rintro v x y - - ⟨rfl, rfl⟩ ⟨-, rfl⟩
    exact ⟨[], [], by rw [transformWalk], ⟨rfl, rfl⟩, ⟨rfl, rfl⟩⟩
  | case2 s server client ih =>
    rintro v x y hss hsc ⟨u, x, rfl, hu, hs⟩ hc
    obtain ⟨s', c', hw, hc', hs'⟩ := ih hss.tail hsc hs hc
    unfold Closes
    rw [merge_insert_server]
    refine ⟨insert s :: s', retain s.length :: c', ?_, ?_, .insert (.refl s) hs'⟩
    · rw [transformWalk, hw]
      rfl
    · exact .retain hu.length_eq.symm hu.symm hc'
  | case3 server s client hi ih =>
    rintro v x y hss hsc hs ⟨u, y, rfl, hu, hc⟩
    obtain ⟨s', c', hw, hc', hs'⟩ := ih hss hsc.tail hs hc
    unfold Closes
    rw [merge_insert_client (insertedAt_zero hss hi)]
    refine ⟨retain s.length :: s', insert s :: c', ?_, .insert (.refl s) hc', ?_⟩
    · rw [transformWalk.eq_3 _ _ _ hi, hw]
      rfl
    · exact .retain hu.length_eq.symm hu.symm hs'
  | case4 c server hi =>
    -- the first component of the server still needs elements, but the client has seen the end
    rintro v x y hss - hs ⟨rfl, -⟩
    exact absurd hs (hss.not_carries_nil hi)
  | case5 c client hi =>
    rintro v x y - hsc ⟨rfl, -⟩ hc
    exact absurd hc (hsc.not_carries_nil hi)
  | case6 n server m client k =>
    rename_i ih
    intro v x y hss hsc
    exact closes_keep_keep (ih hss.tail.afterRetain hsc.tail.afterRetain)
  | case7 s server m client k =>
    rename_i ih
    intro v x y hss hsc
    exact closes_delete_keep (ih hss.tail.afterDelete hsc.tail.afterRetain)
  | case8 n server s client k =>
    rename_i ih
    intro v x y hss hsc
    exact closes_keep_delete (ih hss.tail.afterRetain hsc.tail.afterDelete)
  | case9 s server t client k heq =>
    rename_i ih
    intro v x y hss hsc
    exact closes_delete_delete (ih hss.tail.afterDelete hsc.tail.afterDelete)
  | case10 s server t client k =>
    rename_i hne
    -- deletes of different content cannot both find theirs
    rintro v x y - - hs hc
    obtain ⟨u, v, rfl, hu, hs⟩ := (carries_cut_delete (min s.length t.length)).1 hs
    obtain ⟨u', v', he, hu', hc⟩ := (carries_cut_delete (min s.length t.length)).1 hc
    have hl : u.length = u'.length := by
      rw [← hu.length_eq, ← hu'.length_eq, List.length_take, List.length_take]
      omega
    obtain ⟨rfl, rfl⟩ := List.append_inj he hl
    exact absurd (alike_iff_beq.1 (hu.trans hu'.symm)) hne

/-- Lists over which the walk succeeds share a value. -/
theorem exists_carries_of_transformWalk [Inhabited α] (server client : List (Component α)) :
    ∀ {p : List (Component α) × List (Component α)}, transformWalk server client = .ok p →
      ∃ v x y, Carries server v x ∧ Carries client v y := by
  induction server, client using transformWalk.induct with
  | case1 => exact fun _ => ⟨[], [], [], ⟨rfl, rfl⟩, ⟨rfl, rfl⟩⟩
  | case2 s server client ih =>
    intro p h
    rw [transformWalk] at h
    obtain ⟨q, hq, -⟩ := map_eq_ok.1 h
    obtain ⟨v, x, y, hs, hc⟩ := ih hq
    exact ⟨v, s ++ x, y, .insert (.refl s) hs, hc⟩
  | case3 server s client hi ih =>
    intro p h
    rw [transformWalk.eq_3 _ _ _ hi] at h
    obtain ⟨q, hq, -⟩ := map_eq_ok.1 h
    obtain ⟨v, x, y, hs, hc⟩ := ih hq
    exact ⟨v, x, s ++ y, hs, .insert (.refl s) hc⟩
  | case4 c server hi =>
    intro p h
    cases c with
    | retain n => simp [transformWalk] at h
    | insert s => exact absurd rfl (hi s)
    | delete s => simp [transformWalk] at h
  | case5 c client hi =>
    intro p h
    cases c with
    | retain n => simp [transformWalk] at h
    | insert s => exact absurd rfl (hi s)
    | delete s => simp [transformWalk] at h
  | case6 n server m client k =>
    rename_i ih
    intro p h
    rw [transformWalk] at h
    obtain ⟨q, hq, -⟩ := map_eq_ok.1 h
    obtain ⟨v, x, y, hs, hc⟩ := ih hq
    have hk : (List.replicate (min n m) (default : α)).length = min n m := List.length_replicate
    exact ⟨_, _, _, (carries_cut_retain (Nat.min_le_left ..)).2 (.retain hk (.refl _) hs),
      (carries_cut_retain (Nat.min_le_right ..)).2 (.retain hk (.refl _) hc)⟩
  | case7 s server m client k =>
    rename_i ih
    intro p h
    rw [transformWalk] at h
    obtain ⟨q, hq, -⟩ := map_eq_ok.1 h
    obtain ⟨v, x, y, hs, hc⟩ := ih hq
    have hk : (s.take (min s.length m)).length = min s.length m := by rw [List.length_take]; omega
    exact ⟨_, _, _, (carries_cut_delete _).2 (.delete (.refl _) hs),
      (carries_cut_retain (Nat.min_le_right ..)).2 (.retain hk (.refl _) hc)⟩
  | case8 n server s client k =>
    rename_i ih
    intro p h
    rw [transformWalk] at h
    obtain ⟨q, hq, -⟩ := map_eq_ok.1 h
    obtain ⟨v, x, y, hs, hc⟩ := ih hq
    have hk : (s.take (min n s.length)).length = min n s.length := by rw [List.length_take]; omega
    exact ⟨_, _, _, (carries_cut_retain (Nat.min_le_left ..)).2 (.retain hk (.refl _) hs),
      (carries_cut_delete _).2 (.delete (.refl _) hc)⟩
  | case9 s server t client k heq =>
    rename_i ih
    intro p h
    simp only [transformWalk] at h
    rw [if_pos heq] at h
    obtain ⟨v, x, y, hs, hc⟩ := ih h
    exact ⟨_, _, _, (carries_cut_delete _).2 (.delete (.refl _) hs),
      (carries_cut_delete _).2 (.delete (alike_iff_beq.2 heq).symm hc)⟩
  | case10 s server t client k =>
    rename_i hne
    intro p h
    simp only [transformWalk] at h
    rw [if_neg hne] at h
    cases h

end walk

/-! ## One side idle -/

theorem advances_nil (k : Nat) : Advances k false ([] : List (Component α)) [] :=
  ⟨fun _ _ => rfl, fun _ _ => rfl, fun _ => rfl, fun _ => rfl⟩

theorem merge_nil_nil : merge [] [] v = v := by
  have h := merge_advance (v := []) (advances_nil v.length) (advances_nil v.length)
  rw [List.append_nil] at h
  exact h.trans (List.append_nil v)

theorem merge_nil_right : merge cs [] v = merge [] cs v := by
  unfold merge
  refine List.flatMap_congr fun p _ => ?_
  simp [mergedAt, insertedAt, deletesAt]

theorem afterRetain_self (n : Nat) (cs : List (Component α)) : afterRetain n n cs = cs :=
  if_neg (Nat.lt_irrefl n)

theorem afterDelete_nil (cs : List (Component α)) : afterDelete [] cs = cs := rfl

/-- Merged with nothing a list does what it does alone. -/
theorem merge_nil_left [Element α] [EquivBEq α] : ∀ {cs : List (Component α)} {v w : List α},
    Carries cs v w → Alike (merge [] cs v) w
  | [], _, _, ⟨rfl, rfl⟩ => .refl []
  | .retain n :: cs, _, _, ⟨u, u', v, w, rfl, rfl, hn, hu, h⟩ => by
    subst hn
    rw [merge_advance (advances_nil u.length) (advances_retain (Nat.le_refl _)), afterRetain_self]
    exact hu.append (merge_nil_left h)
  | .insert s :: cs, _, _, ⟨u, w, rfl, hu, h⟩ => by
    rw [merge_insert_client rfl]
    exact hu.append (merge_nil_left h)
  | .delete s :: cs, _, _, ⟨u, v, rfl, hu, h⟩ => by
    rw [merge_advance (advances_nil u.length) (advances_delete (Nat.le_of_eq hu.length_eq.symm)), ← hu.length_eq,
      List.drop_length, afterDelete_nil]
    exact merge_nil_left h

end Component

/-! ## Edits -/

namespace Edit

open Component

variable [Element α]

/-- The merge of two edits over the value `v`. -/
def merge (server client : Edit α) (v : List α) : List α :=
  Component.merge server.components client.components v

theorem IsNormal.solid {e : Edit α} (h : e.IsNormal) : Solid e.components := by
  obtain ⟨cs, _⟩ := e
  change Component.IsNormal cs at h
  change Solid cs
  induction cs with
  | nil => exact fun c hc => nomatch hc
  | cons c cs ih =>
    obtain ⟨hc, -, h⟩ := isNormal_cons.1 h
    intro d hd
    rcases List.mem_cons.1 hd with rfl | hd
    · exact hc
    · exact ih (isArranged_cons.1 ‹_›).2.2 h d hd

section fits
variable [L : Lengths] [EquivBEq α] {s c : Edit α} {v x y : List α}

/-- Edits of one value can be transformed, and both ways round they give their merge. Where that fits, so do the
transformed edits. -/
theorem Maps.transform (hfs : s.Fits) (hfc : c.Fits) (hs : s.Maps v x) (hc : c.Maps v y) :
    ∃ s' c', s.transform c = .ok (s', c') ∧ c'.Maps x (merge s c v) ∧ s'.Maps y (merge s c v) ∧
      (L.arithmetic.Fits (v.length + (s.insertLength + c.insertLength)) → s'.Fits ∧ c'.Fits) := by
  unfold Edit.transform
  cases his : s.isIdentity with
  | true =>
    have hx := (maps_of_isIdentity his).1 hs
    have hs0 : s.components = [] := List.isEmpty_iff.1 his
    have hm : Alike y (merge s c v) := by
      unfold merge
      rw [hs0]
      cases hic : c.isIdentity with
      | true =>
        rw [List.isEmpty_iff.1 hic, merge_nil_nil]
        exact ((maps_of_isIdentity hic).1 hc).symm
      | false => exact (merge_nil_left ((maps_iff hfc.pre hic).1 hc)).symm
    exact ⟨s, c, rfl, hc.congr hfc.pre hx hm, (maps_of_isIdentity his).2 hm, fun _ => ⟨hfs, hfc⟩⟩
  | false =>
    cases hic : c.isIdentity with
    | true =>
      have hy := (maps_of_isIdentity hic).1 hc
      have hm : Alike x (merge s c v) := by
        unfold merge
        rw [List.isEmpty_iff.1 hic, merge_nil_right]
        exact (merge_nil_left ((maps_iff hfs.pre his).1 hs)).symm
      exact ⟨s, c, rfl, (maps_of_isIdentity hic).2 hm, hs.congr hfs.pre hy hm, fun _ => ⟨hfs, hfc⟩⟩
    | false =>
      have hs := (maps_iff hfs.pre his).1 hs
      have hc := (maps_iff hfc.pre hic).1 hc
      obtain ⟨s', c', hw, hc', hs'⟩ := transformWalk_carries _ _ hfs.normal.solid hfc.normal.solid hs hc
      have hl : ¬ (s.preLength != c.preLength) = true := by
        have : s.preLength = c.preLength := congrArg L.arithmetic.wrap (hs.length_eq.symm.trans hc.length_eq)
        simp [this]
      have hx : L.arithmetic.Fits x.length := hs.length_result.symm ▸ hfs.post
      have hy : L.arithmetic.Fits y.length := hc.length_result.symm ▸ hfc.post
      refine ⟨ofComponents s', ofComponents c', ?_, maps_ofComponents hx hc', maps_ofComponents hy hs', fun hr => ?_⟩
      · rw [if_neg (by simp), if_neg hl, hw]
        rfl
      · have hxv : x.length ≤ v.length + s.insertLength := by
          rw [hs.length_eq, hs.length_result]
          exact totalPost_le s.components
        have hmx : (merge s c v).length ≤ x.length + c.insertLength := by
          have hk : totalInsert c' = c.insertLength := (totalInsert_of_transformWalk _ _ hw).2
          rw [merge, hc'.length_eq, hc'.length_result, ← hk]
          exact totalPost_le c'
        have hm : L.arithmetic.Fits (merge s c v).length := hr.of_le (by omega)
        exact ⟨fits_ofComponents (hs'.length_eq ▸ hy) (hs'.length_result ▸ hm),
          fits_ofComponents (hc'.length_eq ▸ hx) (hc'.length_result ▸ hm)⟩

/-- Edits that can be transformed share a value. -/
theorem exists_maps_of_transform [Inhabited α] {p : Edit α × Edit α} (hfs : s.Fits) (hfc : c.Fits)
    (h : s.transform c = .ok p) : ∃ v x y, s.Maps v x ∧ c.Maps v y := by
  unfold Edit.transform at h
  cases his : s.isIdentity with
  | true =>
    obtain ⟨v, y, hc⟩ := exists_maps hfc.pre
    exact ⟨v, v, y, (maps_of_isIdentity his).2 (.refl v), hc⟩
  | false =>
    cases hic : c.isIdentity with
    | true =>
      obtain ⟨v, x, hs⟩ := exists_maps hfs.pre
      exact ⟨v, x, v, hs, (maps_of_isIdentity hic).2 (.refl v)⟩
    | false =>
      rw [his, hic, if_neg (by simp)] at h
      split at h
      next => cases h
      next =>
        obtain ⟨q, hq, -⟩ := map_eq_ok.1 h
        obtain ⟨v, x, y, hs, hc⟩ := exists_carries_of_transformWalk _ _ hq
        exact ⟨v, x, y, (maps_iff hfs.pre his).2 hs, (maps_iff hfc.pre hic).2 hc⟩

/-- What transforming two edits promises, where `same` says which values count as equal: it succeeds exactly
if some value admits both, and from every such value both ways round lead to the merge. -/
def TransformMerges (same : List α → List α → Prop) (s c : Edit α) : Prop :=
  ((∃ p, s.transform c = .ok p) ↔ ∃ v x y, s.apply v = .ok x ∧ c.apply v = .ok y) ∧
    ∀ s' c' v x y, s.transform c = .ok (s', c') → s.apply v = .ok x → c.apply v = .ok y →
      (∃ z, c'.apply x = .ok z ∧ same z (merge s c v)) ∧ ∃ z, s'.apply y = .ok z ∧ same z (merge s c v)

theorem transformMerges_alike [Inhabited α] (hfs : s.Fits) (hfc : c.Fits) : TransformMerges Alike s c := by
  refine ⟨⟨?_, ?_⟩, ?_⟩
  · rintro ⟨p, hp⟩
    obtain ⟨v, x, y, ⟨x', hx, -⟩, y', hy, -⟩ := exists_maps_of_transform hfs hfc hp
    exact ⟨v, x', y', hx, hy⟩
  · rintro ⟨v, x, y, hx, hy⟩
    obtain ⟨s', c', ht, -⟩ := (maps_of_apply hx).transform hfs hfc (maps_of_apply hy)
    exact ⟨(s', c'), ht⟩
  · intro s' c' v x y ht hx hy
    obtain ⟨s₂, c₂, ht₂, hc, hs, -⟩ := (maps_of_apply hx).transform hfs hfc (maps_of_apply hy)
    obtain ⟨rfl, rfl⟩ := Prod.mk.inj (Except.ok.inj (ht.symm.trans ht₂))
    exact ⟨hc, hs⟩

end fits

section words
attribute [local instance] Lengths.word

theorem transform_wide (a b : Char) : (wide a).transform (wide b) =
    .ok (insertBetween halfWord a (halfWord + 1), insertBetween (halfWord + 1) b halfWord) := by
  have hl : (wide a).preLength = (wide b).preLength := rfl
  unfold Edit.transform
  rw [if_neg (by simp [wide, insertBetween, isIdentity]), if_neg (by simp [hl])]
  simp [wide, insertBetween, transformWalk, onto, afterRetain, Except.map, ofComponents, Component.normalize,
    normalizeAfter, runThen, retainThen, Component.afterDelete, Arithmetic.wrap_word, halfWord, UInt64.size]

/-- At one position the server's insert goes first, and a client's delete does not keep it out. -/
example : merge (insertAt 2 1 ['s'] : TextEdit) (ofComponents [.retain 1, .insert ['c'], .delete ['b']])
    ['a', 'b'] = ['a', 's', 'c'] := by
  decide

end words

end Edit
end Coedit
