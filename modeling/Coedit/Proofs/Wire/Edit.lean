import Coedit.Proofs.Sequence.Fitting
import Coedit.Wire.Edit

/-!
# Written edits read back

What is written of a component reads back as that component, as long as the length it retains is a 64-bit
number.  Normalizing what was read does not change an edit that is in normal form, in whatever arithmetic.

* `Component.normalize_of_isNormal` — a list in normal form is its own normal form;
* `LawfulSegmentForm` — what the form of segments promises;
* `Component.ofJson?_toJson`, `Edit.ofJson?_toJson` — components and edits read back.
-/

namespace Coedit

/-! ## Parts of a tree -/

namespace Json

variable {α : Type} {j : Json} {l : List α}

theorem canonicalItems_iff {l : List Json} : CanonicalItems l ↔ ∀ a ∈ l, Canonical a := by
  induction l with
  | nil => simp [CanonicalItems]
  | cons a l ih => simp [CanonicalItems, ih]

theorem canonical_arr_map {toJson : α → Json} (h : ∀ a, (toJson a).Canonical) : Canonical (.arr (l.map toJson)) := by
  refine canonicalItems_iff.2 fun j hj => ?_
  obtain ⟨a, _, rfl⟩ := List.mem_map.1 hj
  exact h a

/-- A canonical tree denotes the value with this very tree. -/
theorem value?_of_canonical (h : j.Canonical) : j.value? = some ⟨j, h⟩ := Value.value?_json ⟨j, h⟩

/-- Items that were written read back if each of them does. -/
theorem list?_of_mapM {toJson? : α → Option Json} {item? : Json → Option α} :
    ∀ {l : List α} {js : List Json}, (∀ a ∈ l, ∀ j, toJson? a = some j → item? j = some a) →
      l.mapM toJson? = some js → (Json.arr js).list? item? = some l
  | [], js, _, hl => by
    cases hl
    rfl
  | a :: l, js, h, hl => by
    simp only [List.mapM_cons, Option.bind_eq_bind, Option.bind_eq_some_iff, Option.pure_def] at hl
    obtain ⟨j, hj, js, hjs, hl⟩ := hl
    cases hl
    have ha := h a (List.mem_cons_self ..) j hj
    have hl : js.mapM item? = some l := list?_of_mapM (fun b hb => h b (List.mem_cons_of_mem _ hb)) hjs
    simp [list?, ha, hl]

theorem list?_arr_map {toJson : α → Json} {item? : Json → Option α} (h : ∀ a ∈ l, item? (toJson a) = some a) :
    (Json.arr (l.map toJson)).list? item? = some l := by
  have hl : l.mapM (fun a => some (toJson a)) = some (l.map toJson) := List.mapM_pure
  refine list?_of_mapM (fun a ha j hj => ?_) hl
  rw [← Option.some.inj hj]
  exact h a ha

theorem natBelow?_int {limit n : Nat} (h : n < limit) : (Json.int n).natBelow? limit = some n :=
  if_pos ⟨Int.natCast_nonneg n, Int.ofNat_lt.2 h⟩

theorem word?_int {n : Nat} (h : n < UInt64.size) : (Json.int n).word? = some n := natBelow?_int h

@[simp] theorem int64?_int (n : Int64) : (Json.int n.toInt).int64? = some n := by
  have hmin : Int64.minValue.toInt ≤ n.toInt := n.minValue_le_toInt
  have hmax : n.toInt ≤ Int64.maxValue.toInt := n.toInt_le
  simp only [int64?, hmin, hmax, and_self, if_true, Int64.ofInt_toInt]

end Json

/-! ## Normal forms stay as they are -/

namespace Component

variable {α : Type} [Element α] [L : Lengths]

omit L in
theorem retainFirst_of_mayPrecede_delete {s : List α} : ∀ {rest : List (Component α)},
    mayPrecede (delete s) rest = true → RetainFirst rest
  | [], _ => trivial
  | retain _ :: _, _ => rfl

mutual

/-- A run before a retain, or before the end, is put in front as it is. -/
theorem normalizeAfter_of_isNormal (ins del : List α) : ∀ {cs : List (Component α)},
    RetainFirst cs → IsNormal cs → normalizeAfter ins del cs = runThen ins del cs
  | [], _, _ => rfl
  | retain n :: rest, _, h => by
    obtain ⟨hn, hm, hr⟩ := isNormal_cons.1 h
    have hn : n ≠ 0 := by simpa [isEmpty] using hn
    have hr : normalizeAfter [] [] rest = rest := normalize_of_isNormal hr
    rw [normalizeAfter, if_neg hn, hr, retainThen_of_mayPrecede hm]

/-- A list in normal form is its own normal form. -/
theorem normalize_of_isNormal : ∀ {cs : List (Component α)}, IsNormal cs → normalize cs = cs
  | [], _ => rfl
  | retain n :: rest, h => normalizeAfter_of_isNormal [] [] rfl h
  | [insert s], h => by
    obtain ⟨hs, _, _⟩ := isNormal_cons.1 h
    cases s with
    | nil => cases hs
    | cons a s => rfl
  | insert s :: retain n :: rest, h => by
    obtain ⟨hs, _, hr⟩ := isNormal_cons.1 h
    have hr : normalizeAfter s [] (retain n :: rest) = runThen s [] (retain n :: rest) :=
      normalizeAfter_of_isNormal s [] rfl hr
    cases s with
    | nil => cases hs
    | cons a s => exact hr
  | insert _ :: insert _ :: _, h => nomatch (isNormal_cons.1 h).2.1
  | insert s :: delete t :: rest, h => by
    obtain ⟨hs, hst, hr⟩ := isNormal_cons.1 h
    obtain ⟨ht, hm, hr⟩ := isNormal_cons.1 hr
    have hs : s.isEmpty = false := hs
    have ht : t.isEmpty = false := ht
    have hst : (s == t) = false := by simpa [mayPrecede, mayFollow] using hst
    have hr : normalizeAfter s t rest = runThen s t rest :=
      normalizeAfter_of_isNormal s t (retainFirst_of_mayPrecede_delete hm) hr
    calc normalize (insert s :: delete t :: rest) = normalizeAfter ([] ++ s) ([] ++ t) rest := rfl
      _ = runThen s t rest := hr
      _ = insert s :: delete t :: rest := by simp [runThen, afterDelete, hs, ht, hst]
  | delete t :: rest, h => by
    obtain ⟨ht, hm, hr⟩ := isNormal_cons.1 h
    have ht : t.isEmpty = false := ht
    have hr : normalizeAfter [] t rest = runThen [] t rest :=
      normalizeAfter_of_isNormal [] t (retainFirst_of_mayPrecede_delete hm) hr
    calc normalize (delete t :: rest) = normalizeAfter [] ([] ++ t) rest := rfl
      _ = runThen [] t rest := hr
      _ = delete t :: rest := by simp [runThen, afterDelete, ht]

end

end Component

/-- The edit of the components of one that is in normal form. -/
theorem Edit.ofComponents_components {α : Type} [Element α] [L : Lengths] {e : Edit α} (h : e.IsNormal) :
    ofComponents e.components = e := Edit.ext (Component.normalize_of_isNormal h)

/-! ## Segments, components and edits -/

/-- Written segments are canonical and read back. -/
class LawfulSegmentForm (α : Type) [SegmentForm α] : Prop where
  canonical_toJson : ∀ s : List α, (SegmentForm.toJson s).Canonical
  ofJson?_toJson : ∀ s : List α, SegmentForm.ofJson? (SegmentForm.toJson s) = some s

instance : LawfulSegmentForm Char where
  canonical_toJson _ := trivial
  ofJson?_toJson _ := congrArg some (String.toList_ofList ..)

instance : LawfulSegmentForm Value where
  canonical_toJson _ := Json.canonical_arr_map Value.canonical
  ofJson?_toJson _ := Json.list?_arr_map fun v _ => v.value?_json

namespace Component

variable {α : Type} [SegmentForm α] [LawfulSegmentForm α] {c : Component α}

/-- The length that a retain keeps is a 64-bit number. -/
def InRange : Component α → Prop
  | .retain n => n < UInt64.size
  | _ => True

theorem canonical_toJson (c : Component α) : c.toJson.Canonical := by
  cases c with
  | retain n => trivial
  | insert s => exact ⟨List.pairwise_singleton .., LawfulSegmentForm.canonical_toJson s, trivial⟩
  | delete s => exact ⟨List.pairwise_singleton .., LawfulSegmentForm.canonical_toJson s, trivial⟩

/-- Written components read back. -/
theorem ofJson?_toJson (h : c.InRange) : ofJson? c.toJson = some c := by
  have hc : c.toJson.canonical? = some c.toJson := Json.canonical?_of_canonical c.canonical_toJson
  unfold ofJson?
  rw [if_neg (by simp [hc])]
  cases c with
  | retain n =>
    have hn : (Json.int n).word? = some n := Json.word?_int h
    simp only [toJson, hn, Option.map_some]
  | insert s =>
    have hi : segment? "i" [("i", SegmentForm.toJson s)] = some s := LawfulSegmentForm.ofJson?_toJson s
    simp only [toJson, hi]
  | delete s =>
    have hi : segment? "i" [("d", SegmentForm.toJson s)] = (none : Option (List α)) := rfl
    have hd : segment? "d" [("d", SegmentForm.toJson s)] = some s := LawfulSegmentForm.ofJson?_toJson s
    simp only [toJson, hi, hd, Option.map_some]

end Component

namespace Edit

variable {α : Type} [Element α] [SegmentForm α] [LawfulSegmentForm α] {e : Edit α}

/-- All lengths that the edit retains are positive 64-bit numbers. -/
def InRange (e : Edit α) : Prop := e.IsNormal ∧ ∀ c ∈ e.components, c.InRange

theorem canonical_toJson (e : Edit α) : e.toJson.Canonical := Json.canonical_arr_map Component.canonical_toJson

/-- Written edits read back. -/
theorem ofJson?_toJson [L : Lengths] (h : e.InRange) : ofJson? e.toJson = some e := by
  have hl : e.toJson.list? Component.ofJson? = some e.components :=
    Json.list?_arr_map fun c hc => Component.ofJson?_toJson (h.2 c hc)
  rw [ofJson?, hl, Option.map_some, ofComponents_components h.1]

end Edit
end Coedit
