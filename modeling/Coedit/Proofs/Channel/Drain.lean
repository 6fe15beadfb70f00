import Coedit.Proofs.Channel.Deltas

/-!
# Deltas out of order

Messages may come in any order and more than once.  What a channel was told it knows from then on: either it has
accounted for the revision, or the delta waits among the buffered ones for its turn.

* `Channel.drain_catchesUp` — the buffered deltas up to the first gap are taken in;
* `Channel.delta_catchesUp` — a message makes its revisions known.
-/

namespace Coedit

namespace Table

open Std (TransOrd LawfulEqOrd)

variable {κ ν : Type} [Ord κ] {t : Table κ ν} {k k' : κ} {v : ν} {rest : List (κ × ν)}

section
variable [LawfulEqOrd κ]

theorem contains_erase (t : Table κ ν) (k k' : κ) :
    (t.erase k).contains k' = (compare k' k != .eq && t.contains k') := by
  rw [contains, get?_erase, contains]
  by_cases h : compare k' k = .eq <;> simp [h]

theorem get?_first (h : t.entries = (k, v) :: rest) : t.get? k = some v := by
  rw [get?, h, findEntry, if_pos Std.ReflCmp.compare_self]

theorem get?_erase_of_ne (t : Table κ ν) (h : k' ≠ k) : (t.erase k).get? k' = t.get? k' := by
  rw [get?_erase, if_neg]
  exact fun hcmp => h (Std.LawfulEqCmp.eq_of_compare hcmp)

theorem entries_erase_first (h : t.entries = (k, v) :: rest) : (t.erase k).entries = rest := by
  have hasc := t.ascending
  rw [h] at hasc
  have hne : ∀ e ∈ rest, (compare k e.1 != .eq) = true := by
    intro e he
    rw [(List.pairwise_cons.1 hasc).1 e he]
    rfl
  show t.entries.filter (fun e => compare k e.1 != .eq) = rest
  rw [h, List.filter_cons_of_neg (by simp [Std.ReflCmp.compare_self]), List.filter_eq_self.2 hne]

end

theorem isLE_of_contains [TransOrd κ] (h : t.entries = (k, v) :: rest) (hk : t.contains k' = true) :
    (compare k k').isLE = true := by
  by_contra hle
  have hlt : compare k' k = .lt := by
    rw [show compare k' k = (compare k k').swap from Std.OrientedCmp.eq_swap]
    cases hc : compare k k' <;> simp_all
  have hasc := t.ascending
  have hnone : t.get? k' = none := by
    rw [get?, h]
    refine findEntry_eq_none_of_lt fun e he => ?_
    rw [h] at hasc
    rcases List.mem_cons.1 he with rfl | he
    · exact hlt
    · exact Std.TransCmp.lt_trans hlt ((List.pairwise_cons.1 hasc).1 e he)
  rw [contains, hnone] at hk
  cases hk

end Table

namespace Channel

variable {σ : Schema} {w : Setting} {c c' : Channel} {revision : Nat} {op : Composite} {D : Document}

/-- The revision is accounted for, or its delta is at hand. -/
def Knows (c : Channel) (revision : Nat) : Prop := revision ≤ c.floor ∨ c.buffered.contains revision = true

/-- No delta at hand could be taken in. -/
def Drained (c : Channel) : Prop := ∀ revision, c.buffered.contains revision = true → c.floor + 1 < revision

/-- After a call the channel follows the server, knows all it knew, and waits for a delta that is not at hand. -/
structure CatchesUp [Lengths] (σ : Schema) (w : Setting) (c c' : Channel) : Prop where
  follows : c'.Follows σ w
  drained : c'.Drained
  knows : ∀ revision, c.Knows revision → c'.Knows revision

section drain
variable [L : Lengths]

/-- The head of the history is known if every revision up to it is. -/
theorem head_of_knows (h : c.Follows σ w) (hd : c.Drained)
    (hk : ∀ revision, 0 < revision → revision ≤ w.history.length → c.Knows revision) :
    c.queue.revision = w.history.length := by
  have hhead := h.head
  have hfloor : ¬ c.floor < w.history.length := by
    intro hlt
    rcases hk (c.floor + 1) (Nat.succ_pos _) hlt with hle | hat
    · exact Nat.not_succ_le_self _ hle
    · exact Nat.lt_irrefl _ (hd _ hat)
  simp only [floor_eq] at hfloor
  omega

/-- A delta is no longer kept. -/
theorem erase_follows (h : c.Follows σ w) (revision : Nat) :
    Follows σ w { c with buffered := c.buffered.erase revision } :=
  { h with
    buffered := fun r op hr => by
      have hr : (c.buffered.erase revision).get? r = some op := hr
      rw [Table.get?_erase] at hr
      split at hr
      next => cases hr
      next => exact h.buffered r op hr
    flight := h.flight }

theorem drainEntries_catchesUp (hH : (Composite.calculus σ).Chain w.history .empty D)
    (hw : L.arithmetic.Fits w.total) (entries : List (Nat × Composite)) : ∀ {c : Channel}, c.Follows σ w → c.buffered.entries = entries →
      CatchesUp σ w c (drainEntries entries c) := by
  induction entries with
  | nil =>
    intro c h hc
    refine ⟨h, fun r hr => ?_, fun _ hr => hr⟩
    have hr : c.buffered.contains r = true := hr
    rw [Table.contains, Table.get?, hc] at hr
    cases hr
  | cons e rest ih =>
    intro c h hc
    obtain ⟨revision, op⟩ := e
    have hconn := h.flight.isConnected
    unfold drainEntries
    by_cases hgap : c.floor + 1 < revision
    · rw [if_pos (by simp [hgap])]
      refine ⟨h, fun r hr => ?_, fun _ hr => hr⟩
      have hle := Nat.isLE_compare.1 (Table.isLE_of_contains hc hr)
      omega
    · rw [if_neg (by simp [hgap, hconn])]
      have htaken := erase_follows h revision
      have hrest := Table.entries_erase_first hc
      have known : ∀ r, c.Knows r → r ≠ revision → Knows { c with buffered := c.buffered.erase revision } r := by
        rintro r (hr | hr) hne
        · exact .inl hr
        · refine .inr ?_
          rw [Table.contains_erase, hr]
          simp [hne]
      dsimp only
      split
      next hle =>
        -- accounted for already
        obtain ⟨hf, hd, hk⟩ := ih htaken hrest
        refine ⟨hf, hd, fun r hr => hk r ?_⟩
        by_cases hne : r = revision
        · exact .inl (hne ▸ hle)
        · exact known r hr hne
      next hle =>
        have hnext : revision = c.floor + 1 := by omega
        obtain ⟨hf, hfloor, hbuf⟩ :=
          applyDelta_takesIn htaken hH hw (h.buffered revision op (Table.get?_first hc)) hnext
        obtain ⟨hf', hd, hk⟩ := ih hf (by rw [hbuf]; exact hrest)
        refine ⟨hf', hd, fun r hr => hk r ?_⟩
        by_cases hne : r = revision
        · exact .inl (by omega)
        · rcases known r hr hne with hr | hr
          · have hr : r ≤ c.floor := hr
            exact .inl (by omega)
          · exact .inr (by rw [hbuf]; exact hr)

/-- The buffered deltas up to the first gap are taken in. -/
theorem drain_catchesUp (h : c.Follows σ w) (hH : (Composite.calculus σ).Chain w.history .empty D)
    (hw : L.arithmetic.Fits w.total) : CatchesUp σ w c c.drain :=
  drainEntries_catchesUp hH hw c.buffered.entries h rfl

end drain

/-! ## Messages -/

/-- The channel with one more delta at hand. -/
def keep (c : Channel) (e : Nat × Composite) : Channel :=
  { c with
    knownHead := max c.knownHead e.1
    buffered := if c.buffered.contains e.1 then c.buffered else c.buffered.insert e.1 e.2 }

theorem buffer_eq (c : Channel) (m : DeltaMessage) : c.buffer m = m.revisions.foldl keep c := rfl

theorem keep_get? (c : Channel) (e : Nat × Composite) (r : Nat) :
    (c.keep e).buffered.get? r = (c.buffered.get? r).or (if r = e.1 then some e.2 else none) := by
  show (if c.buffered.contains e.1 then c.buffered else c.buffered.insert e.1 e.2).get? r = _
  by_cases hr : r = e.1
  · subst hr
    split
    next hat =>
      obtain ⟨op, hop⟩ := Option.isSome_iff_exists.1 hat
      rw [hop, Option.some_or]
    next hnot =>
      rw [Table.contains, Option.not_isSome_iff_eq_none] at hnot
      rw [hnot, Table.get?_insert, if_pos Std.ReflCmp.compare_self, Option.none_or, if_pos rfl]
  · rw [if_neg hr, Option.or_none]
    split
    next => rfl
    next =>
      rw [Table.get?_insert, if_neg]
      exact fun hcmp => hr (Std.LawfulEqCmp.eq_of_compare hcmp)

theorem keep_contains (c : Channel) (e : Nat × Composite) (r : Nat) :
    (c.keep e).buffered.contains r = (r == e.1 || c.buffered.contains r) := by
  rw [Table.contains, keep_get?, Option.isSome_or, Bool.or_comm]
  congr 1
  by_cases hr : r = e.1 <;> simp [hr]

/-- What holds of all deltas at hand holds still when one more of the kind is at hand. -/
theorem keep_recorded {P : Nat → Composite → Prop} {e : Nat × Composite} (he : P e.1 e.2)
    (h : ∀ r op, c.buffered.get? r = some op → P r op) : ∀ r op, (c.keep e).buffered.get? r = some op → P r op := by
  intro r op hr
  rw [keep_get?, Option.or_eq_some_iff] at hr
  rcases hr with hr | ⟨-, hr⟩
  · exact h r op hr
  · split at hr
    next hre =>
      rw [hre, ← Option.some.inj hr]
      exact he
    next => cases hr

section message
variable [L : Lengths]

theorem keep_follows {e : Nat × Composite} (h : c.Follows σ w) (he : Records w.history e.1 e.2) :
    (c.keep e).Follows σ w :=
  { h with
    buffered := keep_recorded he h.buffered
    flight := h.flight }

theorem keepAll_knows (entries : List (Nat × Composite)) : ∀ {c : Channel}, c.Follows σ w →
    (∀ e ∈ entries, Records w.history e.1 e.2) →
      (entries.foldl keep c).Follows σ w ∧ (∀ r, c.Knows r → (entries.foldl keep c).Knows r) ∧
        ∀ e ∈ entries, (entries.foldl keep c).Knows e.1 := by
  induction entries with
  | nil => exact fun h _ => ⟨h, fun _ hr => hr, fun _ he => absurd he List.not_mem_nil⟩
  | cons e rest ih =>
    intro c h hrec
    obtain ⟨hf, hk, hrest⟩ := ih (keep_follows h (hrec e (List.mem_cons_self ..)))
      fun e' he' => hrec e' (List.mem_cons_of_mem _ he')
    have kept : ∀ r, c.Knows r ∨ r = e.1 → (c.keep e).Knows r := by
      rintro r ((hr | hr) | rfl)
      · exact .inl hr
      · exact .inr (by rw [keep_contains, hr, Bool.or_true])
      · exact .inr (by rw [keep_contains, BEq.rfl, Bool.true_or])
    refine ⟨hf, fun r hr => hk r (kept r (.inl hr)), fun e' he' => ?_⟩
    rcases List.mem_cons.1 he' with rfl | he'
    · exact hk _ (kept _ (.inr rfl))
    · exact hrest e' he'

theorem checkSynced_eq (h : c.Follows σ w) : c.checkSynced = c := by
  unfold checkSynced
  rcases h.flight.phase_eq with hp | hp <;> rw [hp] <;> rfl

/-- A message makes its revisions known. -/
theorem delta_catchesUp {m : DeltaMessage} (h : c.Follows σ w)
    (hH : (Composite.calculus σ).Chain w.history .empty D) (hw : L.arithmetic.Fits w.total)
    (hm : ∀ e ∈ m.revisions, Records w.history e.1 e.2) :
    CatchesUp σ w c (c.delta m) ∧ ∀ e ∈ m.revisions, (c.delta m).Knows e.1 := by
  obtain ⟨hf, hk, hrev⟩ := keepAll_knows m.revisions h hm
  rw [← buffer_eq] at hf hk hrev
  obtain ⟨hf', hd, hk'⟩ := drain_catchesUp hf hH hw
  have hdelta : c.delta m = (c.buffer m).drain := by
    rw [delta, if_pos h.flight.isConnected, checkSynced_eq hf']
  rw [hdelta]
  exact ⟨⟨hf', hd, fun r hr => hk' r (hk r hr)⟩, fun e he => hk' _ (hrev e he)⟩

end message

end Channel
end Coedit
