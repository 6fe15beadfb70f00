import Coedit.Sequence.Segment
import Coedit.Text.Bytes

/-!
# Cutting a text in one pass

A text may be cut into consecutive parts in two ways: each part is cut from what the last one left, or each is counted
from the front.  Both turn positions into offsets of bytes, the first within a tail that shrinks and the second within the
whole text.  No cut falls inside of a character, and the parts are the same, also where the text is too short for the
lengths asked for, as long as no position wraps around to a place within the text.

* `Segment.runs_eq_subranges_iff`, `Segment.flatten_runs_append_drop` — both ways over a list of elements;
* `Text.byteOffset_eq` — what stands before an offset;
* `Text.runs?_eq`, `Text.subrange?_eq` — what is cut by bytes is what is cut by characters;
* `Text.runs_agree_iff` — where the two ways agree.
-/

namespace Coedit

/-! ## Parts of a list -/

namespace Segment

variable {α : Type} [L : Lengths]

/-- Every part asked for at a position that wraps around is empty, or the position is behind the end again. -/
def StaysBehind (size start : Nat) (lengths : List Nat) : Prop :=
  ∀ before n after, lengths = before ++ n :: after →
    L.arithmetic.Fits (start + total before) ∨ n = 0 ∨ size ≤ L.arithmetic.wrap (start + total before)

theorem staysBehind_of_fits {size start : Nat} {lengths : List Nat} (h : L.arithmetic.Fits (start + total lengths)) :
    StaysBehind size start lengths := by
  rintro before n after rfl
  refine .inl (h.of_le ?_)
  rw [total_append]
  omega

theorem staysBehind_cons {size start n : Nat} {lengths : List Nat} : StaysBehind size start (n :: lengths) ↔
    (L.arithmetic.Fits start ∨ n = 0 ∨ size ≤ L.arithmetic.wrap start) ∧ StaysBehind size (start + n) lengths := by
  constructor
  · intro h
    refine ⟨h [] n lengths rfl, ?_⟩
    rintro before m after rfl
    have hm := h (n :: before) m after rfl
    rwa [total_cons, ← Nat.add_assoc] at hm
  · rintro ⟨hn, h⟩ before m after heq
    cases before with
    | nil =>
      obtain ⟨rfl, -⟩ := List.cons.inj heq
      exact hn
    | cons k before =>
      obtain ⟨rfl, hrest⟩ := List.cons.inj heq
      rw [total_cons, ← Nat.add_assoc]
      exact h before m after hrest

/-- A part is the same at the position that the real one wraps around to, just if nothing is found there either. -/
theorem subrange_wrap_iff {s : List α} (hs : L.arithmetic.Fits s.length) (start n : Nat) :
    subrange s start n = subrange s (L.arithmetic.wrap start) n ↔
      L.arithmetic.Fits start ∨ n = 0 ∨ s.length ≤ L.arithmetic.wrap start := by
  by_cases hstart : L.arithmetic.Fits start
  · simp [Arithmetic.wrap_of_fits hstart, hstart]
  · have hnone : s.drop start = [] := by
      refine List.drop_eq_nil_of_le (Nat.le_of_not_le fun hle => hstart (hs.of_le hle))
    rw [subrange, hnone, List.take_nil, eq_comm, subrange, List.take_eq_nil_iff, List.drop_eq_nil_iff]
    simp [hstart]

/-- What the parts so far have left starts at the position that the next part is counted to, unless it wraps around. -/
theorem runs_eq_subranges_iff {s : List α} (hs : L.arithmetic.Fits s.length) : ∀ (lengths : List Nat) (start : Nat),
    runs (s.drop start) lengths = subranges s (L.arithmetic.wrap start) lengths ↔ StaysBehind s.length start lengths
  | [], start => by
    refine iff_of_true rfl fun before n after h => ?_
    cases before <;> cases h
  | n :: lengths, start => by
    rw [runs, subranges, L.arithmetic.wrap_wrap_add, List.cons.injEq, List.drop_drop, staysBehind_cons,
      runs_eq_subranges_iff hs lengths (start + n), ← subrange_wrap_iff hs start n]
    rfl

omit L in
/-- In a list that is long enough every part has the length asked for. -/
theorem map_length_runs : ∀ {lengths : List Nat} {s : List α}, total lengths ≤ s.length →
    (runs s lengths).map List.length = lengths
  | [], _, _ => rfl
  | n :: lengths, s, h => by
    rw [total_cons] at h
    have hrest : total lengths ≤ (s.drop n).length := by
      rw [List.length_drop]
      omega
    rw [runs, List.map_cons, map_length_runs hrest, List.length_take_of_le (by omega)]

omit L in
/-- The parts and what they leave make up the list. -/
theorem flatten_runs_append_drop : ∀ (lengths : List Nat) (s : List α),
    (runs s lengths).flatten ++ s.drop (total lengths) = s
  | [], _ => rfl
  | n :: lengths, s => by
    rw [runs, List.flatten_cons, total_cons, List.append_assoc, ← List.drop_drop,
      flatten_runs_append_drop lengths (s.drop n), List.take_append_drop]

end Segment

/-! ## Offsets -/

namespace Text

theorem utf8ByteSize_ofList_cons (c : Char) (cs : List Char) :
    (String.ofList (c :: cs)).utf8ByteSize = c.utf8Size + (String.ofList cs).utf8ByteSize := by
  rw [String.ofList_cons, String.utf8ByteSize_append, String.utf8ByteSize_singleton]

theorem getD_charOffsets : ∀ (cs : List Char) (start n : Nat),
    (charOffsets start cs).getD n (start + (String.ofList cs).utf8ByteSize) =
      start + (String.ofList (cs.take n)).utf8ByteSize
  | [], _, _ => by rw [List.take_nil]; rfl
  | _ :: _, _, 0 => rfl
  | c :: cs, start, n + 1 => by
    rw [charOffsets, List.getD_cons_succ, List.take_succ_cons, utf8ByteSize_ofList_cons, utf8ByteSize_ofList_cons,
      ← Nat.add_assoc, ← Nat.add_assoc, getD_charOffsets cs (start + c.utf8Size) n]

/-- Before an offset stand the characters that were counted, or all that there are. -/
theorem byteOffset_eq (s : String) (n : Nat) : byteOffset s n = (String.ofList (s.toList.take n)).utf8ByteSize := by
  have h := getD_charOffsets s.toList 0 n
  rwa [String.ofList_toList, Nat.zero_add, Nat.zero_add] at h

/-! ## Cuts between characters -/

section cuts

variable {s t u v : String}

theorem exists_pos? (h : s = t ++ u) : ∃ p : s.Pos, s.pos? ⟨t.utf8ByteSize⟩ = some p ∧ p.Splits t u := by
  subst h
  refine ⟨_, ?_, String.Pos.splits_append_rawEndPos⟩
  have hvalid : String.Pos.Raw.IsValid (t ++ u) ⟨t.utf8ByteSize⟩ := String.Pos.Raw.isValid_rawEndPos.append_right u
  rw [String.pos?, String.Slice.pos?, dif_pos (String.Pos.Raw.isValidForSlice_eq_true_iff.2 hvalid.toSlice)]
  rfl

theorem splitAt?_of_append (h : s = t ++ u) : splitAt? s t.utf8ByteSize = some (t, u) := by
  obtain ⟨p, hp, hsplits⟩ := exists_pos? h
  rw [splitAt?, hp, Option.map_some, hsplits.copy_sliceTo_eq, hsplits.copy_sliceFrom_eq]

theorem between?_of_append (h : s = t ++ u ++ v) :
    between? s t.utf8ByteSize (t.utf8ByteSize + u.utf8ByteSize) = some u := by
  obtain ⟨p, hp, hsplits⟩ := exists_pos? (h.trans (String.append_assoc ..))
  obtain ⟨q, hq, hsplits'⟩ := exists_pos? h
  rw [String.utf8ByteSize_append] at hq
  obtain ⟨hle, hcopy⟩ := String.copy_slice_eq_iff_splits.2 ⟨t, v, hsplits, hsplits'⟩
  simp [between?, hp, hq, String.slice?, hle, hcopy]

end cuts

/-- A cut at the offset of a position falls between two characters, the ones before the position and the others. -/
theorem splitAt?_byteOffset (s : String) (n : Nat) :
    splitAt? s (byteOffset s n) = some (.ofList (s.toList.take n), .ofList (s.toList.drop n)) := by
  rw [byteOffset_eq]
  refine splitAt?_of_append ?_
  rw [← String.ofList_append, List.take_append_drop, String.ofList_toList]

/-- **Counting the end from the offset of the start gives the characters from one position to the other.** -/
theorem subrange?_eq (s : String) (start length : Nat) :
    subrange? s start length = some (.ofList (Segment.subrange s.toList start length)) := by
  let before := String.ofList (s.toList.take start)
  let part := String.ofList (Segment.subrange s.toList start length)
  let after := String.ofList ((s.toList.drop start).drop length)
  have hsplit := splitAt?_byteOffset s start
  have hstop : byteOffset (String.ofList (s.toList.drop start)) length = part.utf8ByteSize := by
    rw [byteOffset_eq, String.toList_ofList]
    rfl
  have hparts : s = before ++ part ++ after := by
    rw [← String.ofList_append, ← String.ofList_append, Segment.subrange, List.append_assoc, List.take_append_drop,
      List.take_append_drop, String.ofList_toList]
  have hcut := between?_of_append hparts
  rw [← hstop, ← byteOffset_eq] at hcut
  simp [subrange?, hsplit, hcut, part]

theorem subranges?_eq [L : Lengths] (s : String) : ∀ (lengths : List Nat) (start : Nat),
    subranges? s start lengths = some ((Segment.subranges s.toList start lengths).map String.ofList)
  | [], _ => rfl
  | n :: lengths, start => by
    rw [subranges?, subrange?_eq, subranges?_eq s lengths (L.arithmetic.wrap (start + n))]
    rfl

theorem runs?_eq : ∀ (lengths : List Nat) (s : String),
    runs? s lengths = some ((Segment.runs s.toList lengths).map String.ofList)
  | [], _ => rfl
  | n :: lengths, s => by
    have ih := runs?_eq lengths (.ofList (s.toList.drop n))
    rw [String.toList_ofList] at ih
    simp [runs?, splitAt?_byteOffset, ih, Segment.runs]

example : runs? "añb€cd" [2, 0, 9] = some ["añ", "", "b€cd"] := by decide +kernel

/-! ## The two ways agree -/

/-- The text falls into parts of the given lengths. -/
structure Falls (s : String) (lengths : List Nat) (parts : List String) : Prop where
  /-- Each part is cut from what the last one left. -/
  onePass : runs? s lengths = some parts
  /-- Edits cut their target into these parts. -/
  segments : parts.map String.toList = Segment.runs s.toList lengths
  /-- Only a text that is too short is cut into shorter parts. -/
  asked : Segment.total lengths ≤ s.length → parts.map String.length = lengths
  /-- The parts and the rest of the text make it up, and no rest is left of a text that is too short. -/
  whole : ∃ rest, subrange? s (Segment.total lengths) (s.length - Segment.total lengths) = some rest ∧
    String.join parts ++ rest = s

theorem falls_runs (s : String) (lengths : List Nat) :
    Falls s lengths ((Segment.runs s.toList lengths).map String.ofList) := by
  refine ⟨runs?_eq lengths s, by simp, fun hlong => ?_, ?_⟩
  · have hlong : Segment.total lengths ≤ s.toList.length := by rwa [String.length_toList]
    have hlength : String.length ∘ String.ofList = List.length := funext fun _ => String.length_ofList
    rw [List.map_map, hlength, Segment.map_length_runs hlong]
  · refine ⟨_, subrange?_eq .., ?_⟩
    have hlength : (s.toList.drop (Segment.total lengths)).length = s.length - Segment.total lengths := by
      rw [List.length_drop, String.length_toList]
    rw [Segment.subrange, List.take_of_length_le (Nat.le_of_eq hlength), ← String.toList_inj]
    simpa [List.flatMap_map] using Segment.flatten_runs_append_drop lengths s.toList

/-- **Cutting in one pass and counting from the front agree** where no position wraps around into the text, and nowhere
else. Neither way cuts a character, whatever the lengths. -/
theorem runs_agree_iff [L : Lengths] (s : String) (hs : L.arithmetic.Fits s.length) (lengths : List Nat) :
    ∃ parts fronts, Falls s lengths parts ∧ subranges? s 0 lengths = some fronts ∧
      (parts = fronts ↔ Segment.StaysBehind s.length 0 lengths) := by
  refine ⟨_, _, falls_runs s lengths, subranges?_eq s lengths 0, ?_⟩
  have hzero : L.arithmetic.wrap 0 = 0 := Arithmetic.wrap_of_fits (hs.of_le (Nat.zero_le _))
  have hsplit := Segment.runs_eq_subranges_iff (s := s.toList) (by rwa [String.length_toList]) lengths 0
  rw [hzero, List.drop_zero, String.length_toList] at hsplit
  rw [List.map_inj_right fun _ _ h => String.ofList_injective h, hsplit]

section words
attribute [local instance] Lengths.word

/-- The last part is shorter than asked for, and the positions fit. -/
theorem runs_agree_iff_clipped : Lengths.word.arithmetic.Fits "añb€cd".length ∧
    Segment.StaysBehind "añb€cd".length 0 [2, 0, 9] ∧
    ∃ parts fronts, Falls "añb€cd" [2, 0, 9] parts ∧ subranges? "añb€cd" 0 [2, 0, 9] = some fronts ∧
      (parts = fronts ↔ Segment.StaysBehind "añb€cd".length 0 [2, 0, 9]) :=
  ⟨by decide +kernel, Segment.staysBehind_of_fits (by decide), runs_agree_iff _ (by decide +kernel) _⟩

/-- Counted from the front, the last part starts at the beginning again. -/
theorem not_runs_agree_wrapped : runs? "abc" [halfWord, halfWord, 1] = some ["abc", "", ""] ∧
    subranges? "abc" 0 [halfWord, halfWord, 1] = some ["abc", "", "a"] :=
  ⟨by decide +kernel, by decide +kernel⟩

end words

end Text
end Coedit
