/-!
# Tables: finite maps kept in ascending key order

A `Table κ ν` is a list of key–value pairs whose keys strictly ascend, so two tables with the same
look-ups are equal (`Table.ext_get?`) and listing one always gives the same order.  It carries the
objects of a document, the keys of a map object and the operations waiting for their revision.
-/

namespace Coedit

open Std (TransOrd LawfulEqOrd)

variable {κ ν : Type} [Ord κ]

/-- The keys of `l` strictly ascend. -/
def Ascending (l : List (κ × ν)) : Prop := l.Pairwise fun a b => compare a.1 b.1 = .lt

/-- A finite map from `κ` to `ν`, listed by ascending key. -/
@[ext] structure Table (κ ν : Type) [Ord κ] where
  entries : List (κ × ν)
  ascending : Ascending entries

namespace Table

/-- Puts `k ↦ v` in its place, over an earlier entry for `k`. -/
def insertEntry (k : κ) (v : ν) : List (κ × ν) → List (κ × ν)
  | [] => [(k, v)]
  | e :: rest =>
    match compare k e.1 with
    | .lt => (k, v) :: e :: rest
    | .eq => (k, v) :: rest
    | .gt => e :: insertEntry k v rest

/-- The value listed for `k`. -/
def findEntry (k : κ) : List (κ × ν) → Option ν
  | [] => none
  | e :: rest => if compare k e.1 = .eq then some e.2 else findEntry k rest

theorem mem_insertEntry {k : κ} {v : ν} {e : κ × ν} :
    ∀ {l : List (κ × ν)}, e ∈ insertEntry k v l → e = (k, v) ∨ e ∈ l
  | [], h => by simpa [insertEntry] using h
  | e' :: rest, h => by
    unfold insertEntry at h
    split at h
    · simpa using h
    · rcases List.mem_cons.1 h with h | h
      · exact .inl h
      · exact .inr (List.mem_cons_of_mem _ h)
    · rcases List.mem_cons.1 h with h | h
      · exact .inr (h ▸ List.mem_cons_self ..)
      · exact (mem_insertEntry h).imp id (List.mem_cons_of_mem _)

section lawful
variable [TransOrd κ] [LawfulEqOrd κ]

theorem Ascending.insertEntry (k : κ) (v : ν) :
    ∀ {l : List (κ × ν)}, Ascending l → Ascending (insertEntry k v l)
  | [], _ => by simp [Table.insertEntry, Coedit.Ascending]
  | e :: rest, h => by
    have ⟨he, hrest⟩ := List.pairwise_cons.1 h
    unfold Table.insertEntry
    split
    next hlt =>
      refine List.pairwise_cons.2 ⟨fun x hx => ?_, h⟩
      rcases List.mem_cons.1 hx with rfl | hx
      · exact hlt
      · exact Std.TransCmp.lt_trans hlt (he x hx)
    next heq =>
      have hk : k = e.1 := Std.LawfulEqCmp.eq_of_compare heq
      exact List.pairwise_cons.2 ⟨fun x hx => by rw [hk]; exact he x hx, hrest⟩
    next hgt =>
      refine List.pairwise_cons.2 ⟨fun x hx => ?_, Ascending.insertEntry k v hrest⟩
      rcases mem_insertEntry hx with rfl | hx
      · exact Std.OrientedCmp.gt_iff_lt.1 hgt
      · exact he x hx

end lawful

def empty : Table κ ν := ⟨[], List.Pairwise.nil⟩

instance : Inhabited (Table κ ν) := ⟨empty⟩
instance : EmptyCollection (Table κ ν) := ⟨empty⟩

instance [BEq κ] [BEq ν] : BEq (Table κ ν) := ⟨fun t u => t.entries == u.entries⟩

def get? (t : Table κ ν) (k : κ) : Option ν := findEntry k t.entries

def contains (t : Table κ ν) (k : κ) : Bool := (t.get? k).isSome

def size (t : Table κ ν) : Nat := t.entries.length

def isEmpty (t : Table κ ν) : Bool := t.entries.isEmpty

def filter (p : κ → ν → Bool) (t : Table κ ν) : Table κ ν where
  entries := t.entries.filter fun e => p e.1 e.2
  ascending := t.ascending.filter _

def erase (t : Table κ ν) (k : κ) : Table κ ν := t.filter fun k' _ => compare k k' != .eq

/-- The entry with the least key. -/
def first? (t : Table κ ν) : Option (κ × ν) := t.entries.head?

/-! ## Look-ups -/

@[simp] theorem get?_empty (k : κ) : (empty : Table κ ν).get? k = none := rfl

theorem findEntry_eq_none_of_lt {k : κ} :
    ∀ {l : List (κ × ν)}, (∀ e ∈ l, compare k e.1 = .lt) → findEntry k l = none
  | [], _ => rfl
  | e :: rest, h => by
    have he := h e (List.mem_cons_self ..)
    simp [findEntry, he, findEntry_eq_none_of_lt fun x hx => h x (List.mem_cons_of_mem _ hx)]

section
variable [LawfulEqOrd κ]

theorem findEntry_insertEntry (k k' : κ) (v : ν) : ∀ l : List (κ × ν),
    findEntry k' (insertEntry k v l) = if compare k' k = .eq then some v else findEntry k' l
  | [] => rfl
  | e :: rest => by
    unfold insertEntry
    split
    next => rfl
    next heq =>
      have hk : k = e.1 := Std.LawfulEqCmp.eq_of_compare heq
      simp only [findEntry, ← hk]
      split <;> rfl
    next hgt =>
      simp only [findEntry, findEntry_insertEntry k k' v rest]
      by_cases hk : compare k' k = .eq
      · have : k' = k := Std.LawfulEqCmp.eq_of_compare hk
        subst this
        simp [hgt]
      · simp [hk]

theorem findEntry_filter_ne (k k' : κ) : ∀ l : List (κ × ν),
    findEntry k' (l.filter fun e => compare k e.1 != .eq)
      = if compare k' k = .eq then none else findEntry k' l
  | [] => by simp [findEntry]
  | e :: rest => by
    have ih := findEntry_filter_ne k k' rest
    by_cases he : compare k e.1 = .eq
    · have hk : k = e.1 := Std.LawfulEqCmp.eq_of_compare he
      rw [List.filter_cons_of_neg (by simp [he]), ih]
      by_cases h : compare k' k = .eq <;> simp [h, findEntry, ← hk]
    · rw [List.filter_cons_of_pos (by simpa using he)]
      by_cases h : compare k' k = .eq
      · have hk : k' = k := Std.LawfulEqCmp.eq_of_compare h
        subst hk
        simpa [findEntry, he, h] using ih
      · simpa [findEntry, h] using congrArg (fun o => if compare k' e.1 = .eq then some e.2 else o) ih

theorem get?_erase (t : Table κ ν) (k k' : κ) :
    (t.erase k).get? k' = if compare k' k = .eq then none else t.get? k' :=
  findEntry_filter_ne k k' t.entries

theorem findEntry_filter {p : κ → ν → Bool} {k : κ} : ∀ {l : List (κ × ν)}, Ascending l →
    findEntry k (l.filter fun e => p e.1 e.2) = (findEntry k l).filter (p k)
  | [], _ => rfl
  | e :: rest, h => by
    have ⟨he, hrest⟩ := List.pairwise_cons.1 h
    have ih := findEntry_filter (p := p) (k := k) hrest
    by_cases hk : compare k e.1 = .eq
    · have hke : k = e.1 := Std.LawfulEqCmp.eq_of_compare hk
      have hnone : findEntry k rest = none := findEntry_eq_none_of_lt (by rw [hke]; exact he)
      by_cases hp : p e.1 e.2 = true
      · simp [hp, findEntry, hke, Option.filter]
      · rw [List.filter_cons_of_neg (by simpa using hp), ih, hnone]
        simp [findEntry, hke, Std.ReflCmp.compare_self, Option.filter, hp]
    · by_cases hp : p e.1 e.2 = true
      · simp [hp, findEntry, hk, ih]
      · rw [List.filter_cons_of_neg (by simpa using hp), ih]
        simp [findEntry, hk]

theorem get?_filter (t : Table κ ν) (p : κ → ν → Bool) (k : κ) :
    (t.filter p).get? k = (t.get? k).filter (p k) :=
  findEntry_filter t.ascending

end

/-! ## Listing -/

section
variable [TransOrd κ]

theorem insertEntry_of_lt {k : κ} {v : ν} :
    ∀ {l : List (κ × ν)}, (∀ e ∈ l, compare e.1 k = .lt) → insertEntry k v l = l ++ [(k, v)]
  | [], _ => rfl
  | e :: rest, h => by
    have he : compare k e.1 = .gt := Std.OrientedCmp.gt_iff_lt.2 (h e (List.mem_cons_self ..))
    simp [insertEntry, he, insertEntry_of_lt fun x hx => h x (List.mem_cons_of_mem _ hx)]

/-- Inserting ascending entries behind all others appends them. -/
theorem foldl_insertEntry {l : List (κ × ν)} (hl : Ascending l) :
    ∀ {acc : List (κ × ν)}, (∀ a ∈ acc, ∀ e ∈ l, compare a.1 e.1 = .lt) →
      l.foldl (fun acc e => insertEntry e.1 e.2 acc) acc = acc ++ l := by
  induction l with
  | nil => simp
  | cons e l ih =>
    intro acc h
    have ⟨he, hl'⟩ := List.pairwise_cons.1 hl
    rw [List.foldl_cons, insertEntry_of_lt fun a ha => h a ha e (List.mem_cons_self ..), ih hl']
    · simp
    · intro a ha x hx
      rcases List.mem_append.1 ha with ha | ha
      · exact h a ha x (List.mem_cons_of_mem _ hx)
      · rw [List.mem_singleton.1 ha]
        exact he x hx

end

/-! ## Inserting -/

variable [TransOrd κ] [LawfulEqOrd κ]

def insert (t : Table κ ν) (k : κ) (v : ν) : Table κ ν where
  entries := insertEntry k v t.entries
  ascending := Ascending.insertEntry k v t.ascending

/-- Collects entries; of several for one key the last one stays. -/
def ofList (l : List (κ × ν)) : Table κ ν := l.foldl (fun t e => t.insert e.1 e.2) empty

theorem entries_foldl_insert (l : List (κ × ν)) : ∀ t : Table κ ν,
    (l.foldl (fun t e => t.insert e.1 e.2) t).entries
      = l.foldl (fun acc e => insertEntry e.1 e.2 acc) t.entries := by
  induction l with
  | nil => exact fun _ => rfl
  | cons e l ih => exact fun t => ih (t.insert e.1 e.2)

/-- The entries of a table give the table back. -/
theorem ofList_entries (t : Table κ ν) : ofList t.entries = t := by
  refine Table.ext ?_
  rw [ofList, entries_foldl_insert, foldl_insertEntry t.ascending (by simp [empty])]
  rfl

theorem get?_insert (t : Table κ ν) (k k' : κ) (v : ν) :
    (t.insert k v).get? k' = if compare k' k = .eq then some v else t.get? k' :=
  findEntry_insertEntry k k' v t.entries

theorem eq_of_findEntry : ∀ {l m : List (κ × ν)}, Ascending l → Ascending m →
    (∀ k, findEntry k l = findEntry k m) → l = m
  | [], [], _, _, _ => rfl
  | [], e :: m, _, _, h => by simpa [findEntry, Std.ReflCmp.compare_self] using h e.1
  | e :: l, [], _, _, h => by simpa [findEntry, Std.ReflCmp.compare_self] using h e.1
  | e :: l, f :: m, hl, hm, h => by
    have ⟨hel, hl'⟩ := List.pairwise_cons.1 hl
    have ⟨hfm, hm'⟩ := List.pairwise_cons.1 hm
    have hef : e.1 = f.1 := by
      match hc : compare e.1 f.1 with
      | .eq => exact Std.LawfulEqCmp.eq_of_compare hc
      | .lt =>
        have := h e.1
        rw [findEntry_eq_none_of_lt (l := f :: m)] at this
        · simp [findEntry, Std.ReflCmp.compare_self] at this
        · intro x hx
          rcases List.mem_cons.1 hx with rfl | hx
          · exact hc
          · exact Std.TransCmp.lt_trans hc (hfm x hx)
      | .gt =>
        have hc := Std.OrientedCmp.gt_iff_lt.1 hc
        have := h f.1
        rw [findEntry_eq_none_of_lt (l := e :: l)] at this
        · simp [findEntry, Std.ReflCmp.compare_self] at this
        · intro x hx
          rcases List.mem_cons.1 hx with rfl | hx
          · exact hc
          · exact Std.TransCmp.lt_trans hc (hel x hx)
    have hv : e.2 = f.2 := by
      simpa [findEntry, hef, Std.ReflCmp.compare_self] using h e.1
    have hrest : l = m := by
      refine eq_of_findEntry hl' hm' fun k => ?_
      by_cases hk : compare k e.1 = .eq
      · have : k = e.1 := Std.LawfulEqCmp.eq_of_compare hk
        rw [this, findEntry_eq_none_of_lt hel, hef, findEntry_eq_none_of_lt hfm]
      · have hk' : compare k f.1 ≠ .eq := hef ▸ hk
        simpa [findEntry, hk, hk'] using h k
    rw [Prod.ext hef hv, hrest]

/-- Tables with the same look-ups are equal. -/
theorem ext_get? {t u : Table κ ν} (h : ∀ k, t.get? k = u.get? k) : t = u := by
  have := eq_of_findEntry t.ascending u.ascending h
  cases t; cases u; simpa using this

end Table
end Coedit
