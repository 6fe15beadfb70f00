import Coedit.Sequence.Edit

/-!
# Edits whose lengths fit

Lengths are added up where retains merge and where an edit is compared with its target.  As long as no sum wraps around
an edit is what it is in exact arithmetic, and normal form is reached.

* `Component.Counts.count_normalize` — the normal form takes in and yields as many elements as the list;
* `Component.normalize_of_fits`, `Component.normalize_isNormal` — normalizing lists whose lengths fit;
* `Edit.Fits` — the edits of interest;
* `Edit.ofComponents_of_fits`, `Edit.fits_ofComponents` — what components describe is as in exact arithmetic;
* `Edit.wide` — an edit whose lengths do not fit, and which applies in words where it should not.
-/

namespace Coedit

variable {α : Type}

namespace Component

/-! ## Lengths -/

@[simp] theorem totalPre_cons (c : Component α) (cs : List (Component α)) :
    totalPre (c :: cs) = c.preLength + totalPre cs := by
  simp [totalPre]

@[simp] theorem totalPost_cons (c : Component α) (cs : List (Component α)) :
    totalPost (c :: cs) = c.postLength + totalPost cs := by
  simp [totalPost]

/-- A count of elements that adds up over segments and counts once what is replaced by as much. -/
structure Counts (f : Component α → Nat) : Prop where
  retain : ∀ n, f (.retain n) = n
  insert_append : ∀ s t, f (.insert (s ++ t)) = f (.insert s) + f (.insert t)
  delete_append : ∀ s t, f (.delete (s ++ t)) = f (.delete s) + f (.delete t)
  replace : ∀ s t, s.length = t.length → f (.insert s) + f (.delete t) = s.length

theorem counts_preLength : Counts (preLength : Component α → Nat) where
  retain _ := rfl
  insert_append _ _ := rfl
  delete_append _ _ := List.length_append
  replace _ _ h := (Nat.zero_add _).trans h.symm

theorem counts_postLength : Counts (postLength : Component α → Nat) where
  retain _ := rfl
  insert_append _ _ := List.length_append
  delete_append _ _ := rfl
  replace _ _ _ := Nat.add_zero _

/-- What is counted in a list. -/
def count (f : Component α → Nat) (cs : List (Component α)) : Nat := Segment.total (cs.map f)

section counts
variable {f : Component α → Nat} {ins del : List α} {rest : List (Component α)} {n : Nat}

@[simp] theorem count_cons (c : Component α) (cs : List (Component α)) : count f (c :: cs) = f c + count f cs := rfl

namespace Counts

theorem insert_nil (hf : Counts f) : f (.insert []) = 0 := by
  have h := hf.replace [] [] rfl
  rw [List.length_nil] at h
  omega

theorem delete_nil (hf : Counts f) : f (.delete []) = 0 := by
  have h := hf.replace [] [] rfl
  rw [List.length_nil] at h
  omega

theorem count_retainThen (hf : Counts f) : count f (retainThen n rest) = n + count f rest := by
  unfold retainThen
  split
  next m rest => simp only [count_cons, hf.retain, Nat.add_assoc, Lengths.arithmetic_exact, Arithmetic.wrap_exact]
  next => rw [count_cons, hf.retain]

theorem count_afterDelete (hf : Counts f) : count f (afterDelete del rest) = f (.delete del) + count f rest := by
  unfold afterDelete
  split
  next h => rw [List.isEmpty_iff.1 h, hf.delete_nil, Nat.zero_add]
  next => rw [count_cons]

variable [Element α]

theorem count_runThen (hf : Counts f) :
    count f (runThen ins del rest) = f (.insert ins) + (f (.delete del) + count f rest) := by
  unfold runThen
  split
  next h => rw [List.isEmpty_iff.1 h, hf.insert_nil, Nat.zero_add, hf.count_afterDelete]
  next =>
    split
    next h => rw [hf.count_retainThen, ← hf.replace ins del (List.length_eq_of_beq h), Nat.add_assoc]
    next => rw [count_cons, hf.count_afterDelete]

theorem count_normalizeAfter (hf : Counts f) (cs : List (Component α)) : ∀ ins del : List α,
    count f (normalizeAfter ins del cs) = f (.insert ins) + (f (.delete del) + count f cs) := by
  induction cs with
  | nil => exact fun _ _ => hf.count_runThen
  | cons c cs ih =>
    intro ins del
    cases c with
    | retain n =>
      unfold normalizeAfter
      split
      next hn => rw [ih, count_cons, hf.retain, hn, Nat.zero_add]
      next => simp only [hf.count_runThen, hf.count_retainThen, ih, hf.insert_nil, hf.delete_nil, Nat.zero_add,
          count_cons, hf.retain]
    | insert s =>
      rw [normalizeAfter, ih, hf.insert_append, count_cons]
      omega
    | delete s =>
      rw [normalizeAfter, ih, hf.delete_append, count_cons]
      omega

/-- **A normal form counts as much as the list.** -/
theorem count_normalize (hf : Counts f) (cs : List (Component α)) : count f (normalize cs) = count f cs := by
  rw [normalize, hf.count_normalizeAfter, hf.insert_nil, hf.delete_nil, Nat.zero_add, Nat.zero_add]

end Counts

end counts

/-! ## Normal form -/

section normal
variable {ins del : List α} {rest : List (Component α)} {n : Nat}

theorem retain_zero_notMem_retainThen (hn : n ≠ 0) (h : retain 0 ∉ rest) : retain 0 ∉ retainThen n rest := by
  unfold retainThen
  split
  next m rest =>
    rw [List.mem_cons, not_or] at h ⊢
    refine ⟨fun heq => hn ?_, h.2⟩
    have hsum : 0 = n + m := Component.retain.inj heq
    omega
  next =>
    rw [List.mem_cons, not_or]
    exact ⟨fun heq => hn (Component.retain.inj heq).symm, h⟩

theorem retain_zero_notMem_afterDelete (h : retain 0 ∉ rest) : retain 0 ∉ afterDelete del rest := by
  unfold afterDelete
  split
  next => exact h
  next => simpa using h

/-- A retain that may come first does not merge. -/
theorem retainThen_of_mayPrecede [Element α] [L : Lengths] (h : mayPrecede (retain n) rest = true) :
    retainThen n rest = retain n :: rest := by
  unfold retainThen
  split
  next => cases h
  next => rfl

variable [Element α]

theorem retain_zero_notMem_runThen (h : retain 0 ∉ rest) : retain 0 ∉ runThen ins del rest := by
  unfold runThen
  split
  next => exact retain_zero_notMem_afterDelete h
  next hi =>
    split
    next => exact retain_zero_notMem_retainThen (by simpa using hi) h
    next => simpa using retain_zero_notMem_afterDelete h

theorem retain_zero_notMem_normalizeAfter (cs : List (Component α)) :
    ∀ ins del : List α, retain 0 ∉ normalizeAfter ins del cs := by
  induction cs with
  | nil => exact fun _ _ => retain_zero_notMem_runThen List.not_mem_nil
  | cons c cs ih =>
    intro ins del
    cases c with
    | retain n =>
      unfold normalizeAfter
      split
      next => exact ih ins del
      next hn => exact retain_zero_notMem_runThen (retain_zero_notMem_retainThen hn (ih [] []))
    | insert s => exact ih (ins ++ s) del
    | delete s => exact ih ins (del ++ s)

/-! ### Where lengths fit -/

variable [L : Lengths]

omit [Element α] in
theorem retainThen_of_fits (h : L.arithmetic.Fits (n + totalPre rest)) :
    retainThen n rest = retainThen (L := .exact) n rest := by
  unfold retainThen
  split
  next m rest =>
    rw [totalPre_cons, preLength] at h
    rw [Arithmetic.wrap_of_fits (h.of_le (by omega))]
    rfl
  next => rfl

theorem runThen_of_fits (h : L.arithmetic.Fits (del.length + totalPre rest)) :
    runThen ins del rest = runThen (L := .exact) ins del rest := by
  unfold runThen
  split
  next => rfl
  next =>
    split
    next heq => rw [retainThen_of_fits (by rwa [List.length_eq_of_beq heq])]
    next => rfl

theorem normalizeAfter_of_fits (cs : List (Component α)) : ∀ {ins del : List α},
    L.arithmetic.Fits (del.length + totalPre cs) →
      normalizeAfter ins del cs = normalizeAfter (L := .exact) ins del cs := by
  induction cs with
  | nil => exact runThen_of_fits
  | cons c cs ih =>
    intro ins del h
    rw [totalPre_cons] at h
    cases c with
    | retain n =>
      have h : L.arithmetic.Fits (del.length + (n + totalPre cs)) := h
      have hcount : totalPre (normalizeAfter (L := .exact) [] [] cs) = totalPre cs :=
        counts_preLength.count_normalize cs
      have hkept : totalPre (retainThen (L := .exact) n (normalizeAfter (L := .exact) [] [] cs)) = n + totalPre cs :=
        counts_preLength.count_retainThen.trans (congrArg (n + ·) hcount)
      unfold normalizeAfter
      rw [ih (h.of_le (by omega)), ih (h.of_le (by simp; omega)), retainThen_of_fits (h.of_le (by omega)),
        runThen_of_fits (by rwa [hkept])]
    | insert s => exact ih (h.of_le (Nat.add_le_add_left (Nat.le_add_left ..) _))
    | delete s =>
      refine ih (h.of_le ?_)
      rw [List.length_append, preLength]
      omega

/-- **Normalizing a list whose length fits merges as in exact arithmetic.** -/
theorem normalize_of_fits {cs : List (Component α)} (h : L.arithmetic.Fits (totalPre cs)) :
    normalize cs = normalize (L := .exact) cs :=
  normalizeAfter_of_fits cs (by simpa using h)

/-- Normalizing gives a normal form. -/
theorem normalize_isNormal {cs : List (Component α)} (h : L.arithmetic.Fits (totalPre cs)) :
    IsNormal (normalize cs) := by
  refine isNormal_iff.2 ⟨normalize_isArranged cs, ?_⟩
  rw [normalize_of_fits h]
  exact retain_zero_notMem_normalizeAfter cs [] []

end normal

end Component

/-! ## Edits -/

namespace Edit

open Component

section fits
variable [Element α] [L : Lengths] {a b e s c : Edit α} {cs : List (Component α)}

/-- The edit is in normal form, and its lengths fit. -/
structure Fits (e : Edit α) : Prop where
  normal : e.IsNormal
  pre : L.arithmetic.Fits (totalPre e.components)
  post : L.arithmetic.Fits (totalPost e.components)

theorem fits_iff : e.Fits ↔ e.IsNormal ∧ L.arithmetic.Fits (totalPre e.components) ∧
    L.arithmetic.Fits (totalPost e.components) := ⟨fun ⟨h, h', h''⟩ => ⟨h, h', h''⟩, fun ⟨h, h', h''⟩ => ⟨h, h', h''⟩⟩

instance (e : Edit α) : Decidable e.Fits := decidable_of_iff' _ fits_iff

theorem Fits.preLength (h : e.Fits) : e.preLength = totalPre e.components := Arithmetic.wrap_of_fits h.pre

theorem Fits.postLength (h : e.Fits) : e.postLength = totalPost e.components := Arithmetic.wrap_of_fits h.post

theorem ofComponents_of_fits (h : L.arithmetic.Fits (totalPre cs)) :
    ofComponents cs = ofComponents (L := .exact) cs := Edit.ext (normalize_of_fits h)

theorem totalPre_ofComponents (h : L.arithmetic.Fits (totalPre cs)) :
    totalPre (ofComponents cs).components = totalPre cs := by
  rw [ofComponents_of_fits h]
  exact counts_preLength.count_normalize cs

theorem totalPost_ofComponents (h : L.arithmetic.Fits (totalPre cs)) :
    totalPost (ofComponents cs).components = totalPost cs := by
  rw [ofComponents_of_fits h]
  exact counts_postLength.count_normalize cs

theorem fits_ofComponents (hpre : L.arithmetic.Fits (totalPre cs)) (hpost : L.arithmetic.Fits (totalPost cs)) :
    (ofComponents cs).Fits where
  normal := normalize_isNormal hpre
  pre := by rwa [totalPre_ofComponents hpre]
  post := by rwa [totalPost_ofComponents hpre]

/-! ### Beyond what fits -/

def insertBetween (n : Nat) (a : Char) (m : Nat) : TextEdit := ⟨[.retain n, .insert [a], .retain m], Eq.refl true⟩

theorem apply_insertBetween {n m : Nat} {a : Char} {v : List Char} (h : L.arithmetic.wrap (n + m) = v.length) :
    (insertBetween n a m).apply v = .ok (v.take n ++ a :: (v.drop n).take m) := by
  simp [apply, insertBetween, isIdentity, runLengths, Segment.total, Segment.runs, assemble, h, Except.map]

/-- An insertion between two halves of a word. -/
def wide (a : Char) : TextEdit := insertBetween halfWord a halfWord

end fits

section words
attribute [local instance] Lengths.word

/-- The lengths of the wide edit add up to nothing in words. -/
theorem apply_wide (a : Char) : (wide a).apply [] = .ok [a] := apply_insertBetween rfl

end words

end Edit
end Coedit
