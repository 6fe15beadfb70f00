import Coedit.Proofs.Sequence.Composition

/-!
# Compaction to one operation

Operations that may always be composed halve in number with each level of compaction, so at most one is left.  On
edits of texts and lists it has the effect of the whole list, and so has the operation that the list folds into from
the left.

* `mergeNeighbours_half`, `compact_single` — what compaction leaves of operations of one kind;
* `Calculus.chain_composeAll` — folding a chain of operations keeps its effect;
* `Edit.compact_preserves` — compacted edits, and folded ones, do what the list does.
-/

namespace Coedit

variable {ω τ : Type} [Operation ω τ]

/-! ## Operations of one kind -/

section kind
variable {P : ω → Prop} (hjoin : ∀ a b : ω, P a → P b → Operation.canCompose a b = true)
  (hkeep : ∀ a b c : ω, P a → P b → Operation.compose a b = .ok c → P c)
include hjoin hkeep

/-- A level composes all operations of a kind in pairs. -/
theorem mergeNeighbours_half (ops : List ω) : ∀ {merged : List ω}, (∀ op ∈ ops, P op) →
    mergeNeighbours ops = .ok merged → (∀ op ∈ merged, P op) ∧ merged.length = (ops.length + 1) / 2 := by
  induction ops using mergeNeighbours.induct with
  | case1 a b rest hab c hc ih =>
    intro merged hP h
    simp only [mergeNeighbours, hab, if_true, hc] at h
    obtain ⟨rest', hrest, rfl⟩ := map_eq_ok.1 h
    obtain ⟨hrest', hlen⟩ := ih (fun op hop => hP op (by simp [hop])) hrest
    refine ⟨fun op hop => ?_, ?_⟩
    · rcases List.mem_cons.1 hop with rfl | hop
      · exact hkeep a b op (hP a (by simp)) (hP b (by simp)) hc
      · exact hrest' op hop
    · simp only [List.length_cons]
      omega
  | case2 a b rest hab e he =>
    intro merged _ h
    simp only [mergeNeighbours, hab, if_true, he] at h
    cases h
  | case3 a b rest hab ih =>
    intro merged hP _
    exact absurd (hjoin a b (hP a (by simp)) (hP b (by simp))) hab
  | case4 ops hops =>
    intro merged hP h
    unfold mergeNeighbours at h
    split at h
    next a b rest => exact absurd rfl (hops a b rest)
    next =>
      obtain rfl := Except.ok.inj h
      refine ⟨hP, ?_⟩
      cases ops with
      | nil => simp
      | cons a ops =>
        cases ops with
        | nil => simp
        | cons b rest => exact absurd rfl (hops a b rest)

theorem mergeLevels_single (ops : List ω) : ∀ {merged : List ω}, (∀ op ∈ ops, P op) →
    mergeLevels ops = .ok merged → (∀ op ∈ merged, P op) ∧ merged.length ≤ 1 := by
  induction ops using mergeLevels.induct with
  | case1 ops e he =>
    intro merged _ h
    unfold mergeLevels at h
    simp only [he] at h
    cases h
  | case2 ops once hm hlt ih =>
    intro merged hP h
    unfold mergeLevels at h
    simp only [hm, hlt, if_true] at h
    exact ih (mergeNeighbours_half hjoin hkeep ops hP hm).1 h
  | case3 ops once hm hlt =>
    intro merged hP h
    unfold mergeLevels at h
    simp only [hm, hlt, if_false] at h
    obtain rfl := Except.ok.inj h
    obtain ⟨hP', hlen⟩ := mergeNeighbours_half hjoin hkeep ops hP hm
    exact ⟨hP', by omega⟩

/-- Operations of a kind are compacted into at most one. -/
theorem compact_single {ops merged : List ω} (hP : ∀ op ∈ ops, P op) (h : compact ops = .ok merged) :
    (∀ op ∈ merged, P op) ∧ merged.length ≤ 1 := by
  obtain ⟨levels, hl, rfl⟩ := map_eq_ok.1 h
  obtain ⟨hP', hlen⟩ := mergeLevels_single hjoin hkeep ops hP hl
  exact ⟨fun op hop => hP' op (List.mem_of_mem_filter hop), Nat.le_trans (List.length_filter_le ..) hlen⟩

end kind

/-- Compaction leaves nothing that changes nothing. -/
theorem isNoop_of_mem_compact {ops merged : List ω} {op : ω} (h : compact ops = .ok merged) (hop : op ∈ merged) :
    Operation.isNoop op = false := by
  obtain ⟨levels, _, rfl⟩ := map_eq_ok.1 h
  simpa using (List.mem_filter.1 hop).2

/-- Two operations that compose are compacted into the composition, unless it changes nothing. -/
theorem compact_pair {a b c : ω} (hab : Operation.canCompose a b = true)
    (hc : Operation.compose a b = .ok c) : compact [a, b] = .ok (if Operation.isNoop c then [] else [c]) := by
  have hone : mergeLevels [c] = .ok [c] := by
    unfold mergeLevels
    simp [mergeNeighbours]
  have htwo : mergeLevels [a, b] = .ok [c] := by
    unfold mergeLevels
    simp [mergeNeighbours, hab, hc, Except.map, hone]
  unfold compact
  rw [htwo]
  cases hn : Operation.isNoop c <;> simp [Except.map, hn]

/-! ## Folding -/

/-- Operations that can be composed wherever they apply in turn fold into one. -/
theorem Calculus.chain_composeAll {K : Calculus ω τ} (hj : ∀ a b : ω, K.Joins a b) : ∀ {rest : List ω} {op : ω}
    {x y : τ}, K.Chain (op :: rest) x y → ∃ c, Operation.composeAll op rest = .ok c ∧ K.Maps c x y
  | [], op, _, _, h => ⟨op, rfl, chain_singleton.1 h⟩
  | next :: rest, op, x, y, ⟨_, hop, _, hnext, h⟩ => by
    obtain ⟨c, hc, hm, -⟩ := hop.compose (hj op next) hnext
    have h : K.Chain (c :: rest) x y := ⟨_, hm, h⟩
    obtain ⟨folded, hf, hm⟩ := chain_composeAll hj h
    refine ⟨folded, ?_, hm⟩
    unfold Operation.composeAll at hf ⊢
    rw [List.foldlM_cons, bind_eq_ok]
    exact ⟨c, hc, hf⟩

/-! ## Edits -/

namespace Edit

section fits
variable {α : Type} [Element α] [L : Lengths]

/-- What compaction promises of edits, where `same` says which values count as equal. -/
structure Compacts (same : List α → List α → Prop) (edits : List (Edit α)) : Prop where
  /-- At most one edit is left, which changes something, and does what the edits do in turn. -/
  compacted : ∃ left : Option (Edit α), compact edits = .ok left.toList ∧ (∀ e ∈ left, e.isNoop = false) ∧
    ∀ v w, Operation.applyAll edits v = .ok w → ∃ x, Operation.applyAll left.toList v = .ok x ∧ same x w
  /-- The edits fold into one from the left, which does the same. -/
  folded : ∀ first rest, edits = first :: rest → ∃ e, Operation.composeAll first rest = .ok e ∧
    ∀ v w, Operation.applyAll edits v = .ok w → ∃ x, e.apply v = .ok x ∧ same x w

variable {edits : List (Edit α)} {v w : List α}

/-- Every edit may be composed with every other. -/
theorem compact_atMostOne {merged : List (Edit α)} (h : compact edits = .ok merged) :
    ∃ left : Option (Edit α), merged = left.toList := by
  have hlen := (compact_single (P := fun _ : Edit α => True) (fun _ _ _ _ => rfl) (fun _ _ _ _ _ _ => trivial)
    (fun _ _ => trivial) h).2
  match merged, hlen with
  | [], _ => exact ⟨none, rfl⟩
  | [e], _ => exact ⟨some e, rfl⟩

theorem compacts_alike [EquivBEq α] (hf : ∀ e ∈ edits, e.Fits) (h : Operation.applyAll edits v = .ok w) :
    Compacts Alike edits := by
  have chain : ∀ {v w : List α}, Operation.applyAll edits v = .ok w → (calculus α).Chain edits v w :=
    fun {v w} h => Calculus.chain_of_applyAll hf (.refl v) h
  constructor
  · obtain ⟨merged, hm, -⟩ := Calculus.chain_compact (fun _ _ _ => trivial) (chain h)
    obtain ⟨left, rfl⟩ := compact_atMostOne hm
    refine ⟨left, hm, fun e he => isNoop_of_mem_compact hm (Option.mem_toList.2 he), fun v w h => ?_⟩
    obtain ⟨merged, hm', hc, -⟩ := Calculus.chain_compact (fun _ _ _ => trivial) (chain h)
    obtain rfl := Except.ok.inj (hm.symm.trans hm')
    exact hc.applyAll
  · rintro first rest rfl
    obtain ⟨e, he, -⟩ := Calculus.chain_composeAll (fun _ _ => trivial) (chain h)
    refine ⟨e, he, fun v w h => ?_⟩
    obtain ⟨e', he', _, _, hx⟩ := Calculus.chain_composeAll (fun _ _ => trivial) (chain h)
    obtain rfl := Except.ok.inj (he.symm.trans he')
    exact hx

end fits

section words
attribute [local instance] Lengths.word

/-- Types two letters, takes the first of them back and types another one. -/
def retyped : List TextEdit := [insertAt 0 0 ['a'], insertAt 1 1 ['b'], deleteAt 2 0 ['a'], insertAt 1 0 ['c'],
  insertAt 2 2 ['d']]

end words

end Edit
end Coedit
