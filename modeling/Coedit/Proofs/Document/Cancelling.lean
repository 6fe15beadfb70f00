import Coedit.Proofs.Document.Undo
import Coedit.Proofs.Document.Unflagged
import Coedit.Proofs.Queue.Compaction

/-!
# An edit folded together with its inverse

Composing a composite with its inverse merges each inverted component into the latest component on the same part
of an object.  The first inverse to arrive there meets its own partner; those that follow find what was made of the
two, and not their partners, which stay as they were.

* `Composite.merge_append_cons` — a component is merged into the latest one that it does not pass;
* `Composite.Undone` — what is left once all inverses are merged: only the latest component of each part is new;
* `Composite.compose_invert_isNoop_iff` — as long as lengths fit, what is left changes nothing exactly if no component
  that changes something was followed by another on its part.
-/

namespace Coedit

/-! ## Operations folded together with their inverses -/

theorem MapUpdate.compose_eq_ok {a b u : MapUpdate} :
    a.compose b = .ok u ↔ a.key = b.key ∧ (a.new == b.old) = true ∧ u = ⟨a.key, a.old, b.new⟩ := by
  unfold compose
  by_cases hk : a.key = b.key
  · by_cases ho : (a.new == b.old) = true
    · simp [hk, ho, eq_comm]
    · simp [hk, ho]
  · simp [hk]

theorem Shift.eq_of_compose {a b s : Shift} (h : a.compose b = .ok s) :
    a.new = b.old ∧ s = ⟨a.object, a.old, b.new, b.canBeDeleted⟩ := by
  unfold compose at h
  split at h
  next => cases h
  next =>
    split at h
    next => cases h
    next hi => exact ⟨by simpa using hi, (Except.ok.inj h).symm⟩

namespace ObjectOp

variable [L : Lengths] {a b c op : ObjectOp}

theorem isNoop_invert (h : op.isNoop = true) : op.invert.isNoop = true := by
  cases op with
  | text e => exact Edit.isNoop_invert h
  | list e => exact Edit.isNoop_invert h
  | map u => exact BEq.symm (α := Value) h
  | reference s => exact BEq.symm (α := Int64) h

/-- What changes nothing changes nothing when composed. -/
theorem isNoop_compose (ha : a.isNoop = true) (hb : b.isNoop = true) (h : a.compose b = .ok c) :
    c.isNoop = true := by
  cases a <;> cases b <;> try cases h
  case text a b =>
    obtain ⟨e, he, rfl⟩ := map_eq_ok.1 h
    exact Edit.isNoop_compose ha hb he
  case list a b =>
    obtain ⟨e, he, rfl⟩ := map_eq_ok.1 h
    exact Edit.isNoop_compose ha hb he
  case map a b =>
    obtain ⟨u, hu, rfl⟩ := map_eq_ok.1 h
    obtain ⟨-, ho, rfl⟩ := MapUpdate.compose_eq_ok.1 hu
    exact BEq.trans (α := Value) ha (BEq.trans ho hb)
  case reference a b =>
    obtain ⟨s, hs, rfl⟩ := map_eq_ok.1 h
    obtain ⟨hi, rfl⟩ := Shift.eq_of_compose hs
    exact Shift.isNoop_iff.2 ((Shift.isNoop_iff.1 ha).trans (hi.trans (Shift.isNoop_iff.1 hb)))

/-- An operation and then its inverse change nothing. -/
theorem isNoop_compose_invert (hf : a.Fits) (h : a.compose a.invert = .ok c) : c.isNoop = true := by
  cases a with
  | text e =>
    obtain ⟨e', he, rfl⟩ := map_eq_ok.1 h
    rw [Edit.compose_invert hf] at he
    rw [← Except.ok.inj he]
    exact Edit.isNoop_retaining _
  | list e =>
    obtain ⟨e', he, rfl⟩ := map_eq_ok.1 h
    rw [Edit.compose_invert hf] at he
    rw [← Except.ok.inj he]
    exact Edit.isNoop_retaining _
  | map u =>
    obtain ⟨u', hu, rfl⟩ := map_eq_ok.1 h
    obtain ⟨-, -, rfl⟩ := MapUpdate.compose_eq_ok.1 hu
    exact BEq.rfl (a := u.old)
  | reference s =>
    obtain ⟨s', hs, rfl⟩ := map_eq_ok.1 h
    obtain ⟨-, rfl⟩ := Shift.eq_of_compose hs
    exact Shift.isNoop_iff.2 rfl

/-- The key that an update of a map is about. -/
def key? : ObjectOp → Option String
  | .map u => some u.key
  | _ => none

theorem kind_invert (op : ObjectOp) : op.invert.kind = op.kind := by
  cases op <;> rfl

omit L in
theorem isIndependent_eq_false_iff (hk : a.kind = b.kind) : a.isIndependent b = false ↔ a.key? = b.key? := by
  cases a <;> cases b <;> simp [kind, isIndependent, key?] at hk ⊢

theorem kind_key?_compose (h : a.compose b = .ok c) : c.kind = a.kind ∧ c.key? = a.key? := by
  cases a <;> cases b <;> try cases h
  case text a b =>
    obtain ⟨_, _, rfl⟩ := map_eq_ok.1 h
    exact ⟨rfl, rfl⟩
  case list a b =>
    obtain ⟨_, _, rfl⟩ := map_eq_ok.1 h
    exact ⟨rfl, rfl⟩
  case map a b =>
    obtain ⟨u, hu, rfl⟩ := map_eq_ok.1 h
    obtain ⟨-, -, rfl⟩ := MapUpdate.compose_eq_ok.1 hu
    exact ⟨rfl, rfl⟩
  case reference a b =>
    obtain ⟨_, _, rfl⟩ := map_eq_ok.1 h
    exact ⟨rfl, rfl⟩

end ObjectOp

/-! ## Parts of objects -/

/-- What a component is about: an object taken for one of some kind, and of a map one key. -/
structure Part where
  target : ObjectId
  kind : Kind
  key? : Option String

def TargetedOp.part (c : TargetedOp) : Part := ⟨c.target, c.op.kind, c.op.key?⟩

namespace TargetedOp

variable [L : Lengths] {a b c : TargetedOp} {op : ObjectOp} {κ : ObjectId → Kind}

@[simp] theorem part_invert (c : TargetedOp) : (Operation.invert c).part = c.part := by
  obtain ⟨target, op⟩ := c
  cases op <;> rfl

theorem part_compose (h : a.op.compose b.op = .ok op) : part { a with op } = a.part := by
  obtain ⟨hk, hkey⟩ := ObjectOp.kind_key?_compose h
  unfold part
  rw [hk, hkey]

/-- Components take their objects for one of the given kinds. -/
def OfKind (κ : ObjectId → Kind) (cs : List TargetedOp) : Prop := ∀ c ∈ cs, c.op.kind = κ c.target

omit L in
theorem OfKind.of_map_part {cs left : List TargetedOp} (h : OfKind κ cs) (hp : left.map part = cs.map part) :
    OfKind κ left := by
  intro c hc
  obtain ⟨a, ha, hac⟩ := List.mem_map.1 (hp ▸ List.mem_map_of_mem hc)
  have hk : a.op.kind = c.op.kind := congrArg Part.kind hac
  have ht : a.target = c.target := congrArg Part.target hac
  rw [← hk, ← ht]
  exact h a ha

theorem OfKind.invert {cs : List TargetedOp} (h : OfKind κ cs) : OfKind κ (cs.reverse.map Operation.invert) := by
  intro c hc
  obtain ⟨a, ha, rfl⟩ := List.mem_map.1 hc
  exact (ObjectOp.kind_invert a.op).trans (h a (List.mem_reverse.1 ha))

omit L in
/-- Components pass each other unless they are about one part. -/
theorem passes_eq_false_iff (ha : a.op.kind = κ a.target) (hb : b.op.kind = κ b.target) :
    Composite.passes a b = false ↔ a.part = b.part := by
  have hk : a.target = b.target → a.op.kind = b.op.kind := fun ht => by rw [ha, hb, ht]
  simp only [Composite.passes, Bool.or_eq_false_iff, bne_eq_false_iff_eq, part, Part.mk.injEq]
  constructor
  · rintro ⟨ht, hi⟩
    exact ⟨ht, hk ht, (ObjectOp.isIndependent_eq_false_iff (hk ht)).1 hi⟩
  · rintro ⟨ht, -, hkey⟩
    exact ⟨ht, (ObjectOp.isIndependent_eq_false_iff (hk ht)).2 hkey⟩

end TargetedOp

namespace Composite

open TargetedOp (part OfKind)

section fits
variable [L : Lengths] {cs before after merged left : List TargetedOp} {c e incoming : TargetedOp} {κ : ObjectId → Kind}

/-! ## Merging from the front -/

theorem mergeReversed_pass (h : ∀ a ∈ after, passes a incoming = true) (rest : List TargetedOp) :
    mergeReversed incoming (after ++ rest) = (mergeReversed incoming rest).map (·.map (after ++ ·)) := by
  induction after with
  | nil =>
    rw [List.nil_append]
    cases mergeReversed incoming rest with
    | error e => rfl
    | ok r => cases r <;> rfl
  | cons a after ih =>
    rw [List.cons_append, mergeReversed, if_pos (h a (List.mem_cons_self ..)),
      ih fun b hb => h b (List.mem_cons_of_mem _ hb)]
    cases mergeReversed incoming rest with
    | error e => rfl
    | ok r => cases r <;> rfl

/-- A component is merged into the latest one that it does not pass. -/
theorem merge_append_cons (he : passes e incoming = false) (ha : ∀ a ∈ after, passes a incoming = true) :
    merge (before ++ e :: after) incoming
      = (e.op.compose incoming.op).map fun op => before ++ { e with op } :: after := by
  have hr : mergeReversed incoming (before ++ e :: after).reverse
      = (e.op.compose incoming.op).map fun op => some (after.reverse ++ { e with op } :: before.reverse) := by
    rw [List.reverse_append, List.reverse_cons, List.append_assoc, List.singleton_append,
      mergeReversed_pass fun a h => ha a (List.mem_reverse.1 h), mergeReversed, if_neg (by simp [he])]
    cases e.op.compose incoming.op <;> rfl
  unfold merge
  rw [hr]
  cases e.op.compose incoming.op with
  | error e => rfl
  | ok op => simp [Except.map]

omit L in
/-- The latest component on a part. -/
theorem exists_latest (h : incoming.part ∈ cs.map part) : ∃ before e after, cs = before ++ e :: after ∧
    e.part = incoming.part ∧ incoming.part ∉ after.map part := by
  induction cs with
  | nil => cases h
  | cons c cs ih =>
    by_cases hcs : incoming.part ∈ cs.map part
    · obtain ⟨before, e, after, rfl, he, ha⟩ := ih hcs
      exact ⟨c :: before, e, after, rfl, he, ha⟩
    · refine ⟨[], c, cs, rfl, ?_, hcs⟩
      rw [List.map_cons, List.mem_cons] at h
      exact (h.resolve_right hcs).symm

/-- A component is merged into the latest one on its part. -/
theorem merge_latest (hcs : OfKind κ (before ++ e :: after)) (hi : incoming.op.kind = κ incoming.target)
    (he : e.part = incoming.part) (ha : incoming.part ∉ after.map part) :
    merge (before ++ e :: after) incoming
      = (e.op.compose incoming.op).map fun op => before ++ { e with op } :: after := by
  have hmem : ∀ a ∈ e :: after, a ∈ before ++ e :: after := fun a h => List.mem_append_right _ h
  refine merge_append_cons ?_ fun a h => ?_
  · exact (TargetedOp.passes_eq_false_iff (hcs e (hmem e (List.mem_cons_self ..))) hi).2 he
  · rw [← Bool.not_eq_false, TargetedOp.passes_eq_false_iff (hcs a (hmem a (List.mem_cons_of_mem _ h))) hi]
    exact fun hp => ha (hp ▸ List.mem_map_of_mem h)

/-- Merging changes no component's part. -/
theorem map_part_merge (hcs : OfKind κ cs) (hi : incoming.op.kind = κ incoming.target)
    (hmem : incoming.part ∈ cs.map part) (h : merge cs incoming = .ok merged) :
    merged.map part = cs.map part := by
  obtain ⟨before, e, after, rfl, he, ha⟩ := exists_latest hmem
  rw [merge_latest hcs hi he ha] at h
  obtain ⟨op, hop, rfl⟩ := map_eq_ok.1 h
  simp only [List.map_append, List.map_cons, TargetedOp.part_compose hop]

/-- What is merged into later components leaves the first one as it is. -/
theorem foldlM_merge_cons (incoming : List TargetedOp) : ∀ {cs : List TargetedOp}, OfKind κ (c :: cs) →
    OfKind κ incoming → (∀ i ∈ incoming, i.part ∈ cs.map part) →
      incoming.foldlM merge (c :: cs) = (incoming.foldlM merge cs).map (c :: ·) := by
  induction incoming with
  | nil => exact fun _ _ _ => rfl
  | cons i incoming ih =>
    intro cs hcs hi hmem
    have hi₀ := hi i (List.mem_cons_self ..)
    have hcs' : OfKind κ cs := fun a ha => hcs a (List.mem_cons_of_mem _ ha)
    have hmem₀ := hmem i (List.mem_cons_self ..)
    have hone : merge (c :: cs) i = (merge cs i).map (c :: ·) := by
      obtain ⟨before, e, after, rfl, he, ha⟩ := exists_latest hmem₀
      rw [merge_latest hcs' hi₀ he ha, ← List.cons_append, merge_latest hcs hi₀ he ha]
      cases e.op.compose i.op <;> rfl
    rw [List.foldlM_cons, List.foldlM_cons, hone]
    cases hm : merge cs i with
    | error e => rfl
    | ok merged =>
      have hp := map_part_merge hcs' hi₀ hmem₀ hm
      have hpc : (c :: merged).map part = (c :: cs).map part := by rw [List.map_cons, List.map_cons, hp]
      refine ih (hcs.of_map_part hpc) (fun a ha => hi a (List.mem_cons_of_mem _ ha)) fun a ha => ?_
      rw [hp]
      exact hmem a (List.mem_cons_of_mem _ ha)

/-! ## What the inverses leave -/

/-- What is left of components once their inverses are merged into them: of each part the latest component is
another, and those before it are as they were. -/
inductive Undone : List TargetedOp → List TargetedOp → Prop
  | nil : Undone [] []
  | covered {c : TargetedOp} {rest left : List TargetedOp} : c.part ∈ rest.map part → Undone rest left →
      Undone (c :: rest) (c :: left)
  | latest {c u : TargetedOp} {rest left : List TargetedOp} : c.part ∉ rest.map part → u.part = c.part →
      Undone rest left → Undone (c :: rest) (u :: left)

omit L in
theorem Undone.map_part (h : Undone cs left) : left.map part = cs.map part := by
  induction h with
  | nil => rfl
  | covered _ _ ih => rw [List.map_cons, List.map_cons, ih]
  | latest _ hu _ ih => rw [List.map_cons, List.map_cons, ih, hu]

omit L in
/-- The latest component of a part may be exchanged once more. -/
theorem Undone.exchange (h : Undone cs left) : ∀ {before after : List TargetedOp} {e u : TargetedOp},
    left = before ++ e :: after → u.part = e.part → e.part ∉ after.map part → Undone cs (before ++ u :: after) := by
  induction h with
  | nil =>
    intro before after e u hl
    exact absurd hl.symm (List.append_ne_nil_of_right_ne_nil _ nofun)
  | @covered c rest left hc h ih =>
    intro before after e u hl hu ha
    cases before with
    | nil =>
      -- the first component is not the latest of its part
      obtain ⟨rfl, rfl⟩ := List.cons.inj hl
      exact absurd (h.map_part ▸ hc) ha
    | cons b before =>
      obtain ⟨rfl, rfl⟩ := List.cons.inj hl
      exact .covered hc (ih rfl hu ha)
  | @latest c v rest left hc hv h ih =>
    intro before after e u hl hu ha
    cases before with
    | nil =>
      obtain ⟨rfl, rfl⟩ := List.cons.inj hl
      exact .latest hc (hu.trans hv) h
    | cons b before =>
      obtain ⟨rfl, rfl⟩ := List.cons.inj hl
      exact .latest hc hv (ih rfl hu ha)

/-- No component that changes something is followed by another on its part. -/
def Unstacked (cs : List TargetedOp) : Prop := cs.Pairwise fun a b => passes a b = true ∨ a.op.isNoop = true

omit L in
theorem Undone.unstacked (h : Undone cs left) (hcs : OfKind κ cs) (hn : ∀ c ∈ left, c.op.isNoop = true) :
    Unstacked cs := by
  induction h with
  | nil => exact .nil
  | @covered c rest left _ _ ih =>
    obtain ⟨hc, hn⟩ := List.forall_mem_cons.1 hn
    exact .cons (fun _ _ => .inr hc) (ih (List.forall_mem_cons.1 hcs).2 hn)
  | @latest c u rest left hc _ _ ih =>
    obtain ⟨-, hn⟩ := List.forall_mem_cons.1 hn
    obtain ⟨hk, hcs⟩ := List.forall_mem_cons.1 hcs
    refine .cons (fun b hb => .inl ?_) (ih hcs hn)
    rw [← Bool.not_eq_false, TargetedOp.passes_eq_false_iff hk (hcs b hb)]
    exact fun hp => hc (hp ▸ List.mem_map_of_mem hb)

omit L in
theorem Unstacked.isNoop (h : Unstacked (c :: cs)) (hcs : OfKind κ (c :: cs)) (hmem : c.part ∈ cs.map part) :
    c.op.isNoop = true := by
  obtain ⟨b, hb, hp⟩ := List.mem_map.1 hmem
  have hpass : passes c b = false := (TargetedOp.passes_eq_false_iff (hcs c (List.mem_cons_self ..))
    (hcs b (List.mem_cons_of_mem _ hb))).2 hp.symm
  exact ((List.pairwise_cons.1 h).1 b hb).resolve_left (by simp [hpass])

/-- The inverse of the first component arrives last, and finds the latest component on its part. -/
theorem Undone.merge_invert (h : Undone cs left) (hcs : OfKind κ (c :: cs)) (hf : c.op.Fits)
    (hn : Unstacked cs → ∀ t ∈ left, t.op.isNoop = true) (hm : merge (c :: left) (Operation.invert c) = .ok merged) :
    Undone (c :: cs) merged ∧ (Unstacked (c :: cs) → ∀ t ∈ merged, t.op.isNoop = true) := by
  have hleft : OfKind κ (c :: left) := hcs.of_map_part (by rw [List.map_cons, List.map_cons, h.map_part])
  have hi : (Operation.invert c).op.kind = κ c.target := (ObjectOp.kind_invert c.op).trans (hcs c (List.mem_cons_self ..))
  have hp := TargetedOp.part_invert c
  by_cases hmem : c.part ∈ cs.map part
  · -- a later component is merged with the inverse
    have hlater : (Operation.invert c).part ∈ left.map part := by rwa [hp, h.map_part]
    obtain ⟨before, e, after, rfl, he, ha⟩ := exists_latest hlater
    rw [← List.cons_append, merge_latest hleft hi he ha] at hm
    obtain ⟨op, hop, rfl⟩ := map_eq_ok.1 hm
    refine ⟨.covered hmem (h.exchange rfl (TargetedOp.part_compose hop) (he ▸ ha)), fun hs => ?_⟩
    have hc := hs.isNoop hcs hmem
    obtain ⟨hbefore, he₀, hafter⟩ : (∀ t ∈ before, t.op.isNoop = true) ∧ e.op.isNoop = true ∧
        ∀ t ∈ after, t.op.isNoop = true := by
      simpa only [List.forall_mem_append, List.forall_mem_cons] using hn (List.pairwise_cons.1 hs).2
    have hop₀ := ObjectOp.isNoop_compose he₀ (ObjectOp.isNoop_invert hc) hop
    simpa only [List.forall_mem_append, List.forall_mem_cons] using ⟨⟨hc, hbefore⟩, hop₀, hafter⟩
  · -- the component meets its own inverse
    have hm : merge ([] ++ c :: left) (Operation.invert c) = .ok merged := hm
    rw [merge_latest hleft hi hp.symm (by rwa [hp, h.map_part]), map_eq_ok] at hm
    obtain ⟨op, hop, rfl⟩ := hm
    refine ⟨.latest hmem (TargetedOp.part_compose hop) h, fun hs => ?_⟩
    exact List.forall_mem_cons.2 ⟨ObjectOp.isNoop_compose_invert hf hop, hn (List.pairwise_cons.1 hs).2⟩

/-- What merging all inverses leaves. -/
theorem undone_of_foldlM_merge : ∀ {cs left : List TargetedOp}, OfKind κ cs → (∀ t ∈ cs, t.op.Fits) →
    (cs.reverse.map Operation.invert).foldlM merge cs = .ok left →
      Undone cs left ∧ (Unstacked cs → ∀ t ∈ left, t.op.isNoop = true)
  | [], _, _, _, h => by
    cases h
    exact ⟨.nil, fun _ => nofun⟩
  | c :: rest, left, hcs, hf, h => by
    have hfrest : ∀ t ∈ rest, t.op.Fits := (List.forall_mem_cons.1 hf).2
    have hrest : OfKind κ rest := (List.forall_mem_cons.1 hcs).2
    have hinv : OfKind κ (rest.reverse.map Operation.invert) := hrest.invert
    have hmem : ∀ i ∈ rest.reverse.map Operation.invert, i.part ∈ rest.map part := by
      intro i hi
      obtain ⟨a, ha, rfl⟩ := List.mem_map.1 hi
      rw [TargetedOp.part_invert]
      exact List.mem_map_of_mem (List.mem_reverse.1 ha)
    rw [List.reverse_cons, List.map_append, List.foldlM_append, bind_eq_ok] at h
    obtain ⟨_, hfold, h⟩ := h
    rw [foldlM_merge_cons _ hcs hinv hmem, map_eq_ok] at hfold
    obtain ⟨left', hfold, rfl⟩ := hfold
    obtain ⟨hu, hn⟩ := undone_of_foldlM_merge hrest hfrest hfold
    rw [List.map_singleton, List.foldlM_cons, bind_eq_ok] at h
    obtain ⟨_, hm, h⟩ := h
    cases h
    exact hu.merge_invert hcs (hf c (List.mem_cons_self ..)) hn hm

/-! ## Composites -/

variable {c r : Composite} {d x : Document}

/-- A composite that applies can be composed with its inverse, whatever flags its shifts carry. -/
theorem exists_compose_invert (hl : c.Fits) (h : c.apply d = .ok x) : ∃ r, c.compose c.invert = .ok r := by
  obtain ⟨σ, hc⟩ := chain_unflagged hl h
  have hi : (TargetedOp.calculus σ).Chain c.invert.unflagged.components x.unflagged d.unflagged := by
    rw [invert_unflagged]
    exact chain_invert hc
  exact exists_compose_of_chain rfl hc hi

theorem exists_ofKind (hl : c.Fits) (h : c.apply d = .ok x) : ∃ κ, OfKind κ c.components := by
  obtain ⟨σ, hc⟩ := chain_unflagged hl h
  refine ⟨fun target => (σ target).empty.kind, fun t ht => ?_⟩
  have hf : t.unflagged.Fits σ := hc.fit _ (List.mem_map_of_mem ht)
  have hk : t.op.kind = t.unflagged.op.shape.empty.kind := by
    obtain ⟨target, op⟩ := t
    cases op <;> rfl
  rw [hk, hf.shape]
  rfl

theorem compose_eq_ok {a b r : Composite} : a.compose b = .ok r ↔
    a.origin = b.origin ∧ ∃ cs, b.components.foldlM merge a.components = .ok cs ∧
      r = { b with components := dropNoops cs } := by
  unfold compose
  by_cases ho : a.origin = b.origin
  · rw [if_neg (by simp [ho]), map_eq_ok]
    simp only [ho, true_and, eq_comm]
  · rw [if_pos (by simp [ho])]
    exact ⟨nofun, fun h => absurd h.1 ho⟩

omit L in
theorem all_isNoop_dropNoops (cs : List TargetedOp) :
    (dropNoops cs).all (fun t => t.op.isNoop) = cs.all fun t => t.op.isNoop := by
  induction cs with
  | nil => rfl
  | cons t cs ih =>
    unfold dropNoops at ih ⊢
    cases ht : t.op.isNoop with
    | true => rw [List.filter_cons_of_neg (by simp [ht]), ih, List.all_cons, ht, Bool.true_and]
    | false => rw [List.filter_cons_of_pos (by simp [ht]), List.all_cons, List.all_cons, ht, Bool.false_and, Bool.false_and]

/-- **What is left of an edit folded together with its inverse.** A composite whose lengths fit and that applies to some
document can be composed with its inverse. The two cancel out, and compacted leave nothing to be sent, exactly if no component that
changes something is followed by another on its part. -/
theorem compose_invert_isNoop_iff (hl : c.Fits) (h : c.apply d = .ok x) : ∃ r, c.compose c.invert = .ok r ∧
    (r.isNoop = true ↔ Unstacked c.components) ∧ (compact [c, c.invert] = .ok [] ↔ Unstacked c.components) := by
  obtain ⟨r, hr⟩ := exists_compose_invert hl h
  obtain ⟨κ, hκ⟩ := exists_ofKind hl h
  obtain ⟨-, left, hfold, hrl⟩ := compose_eq_ok.1 hr
  obtain ⟨hu, hn⟩ := undone_of_foldlM_merge hκ hl hfold
  have hiff : r.isNoop = true ↔ Unstacked c.components := by
    have hall : r.isNoop = left.all fun t => t.op.isNoop := by
      rw [hrl]
      exact all_isNoop_dropNoops left
    rw [hall, List.all_eq_true]
    exact ⟨hu.unstacked hκ, hn⟩
  have hcompact : compact [c, c.invert] = .ok (if r.isNoop then [] else [r]) :=
    compact_pair (BEq.rfl (a := c.origin)) hr
  refine ⟨r, hr, hiff, ?_⟩
  rw [hcompact, ← hiff]
  cases r.isNoop <;> simp

end fits

section words
attribute [local instance] Lengths.word

/-- Types two letters into a new text, one by one. -/
def doubled : Composite :=
  .ofComponents [⟨⟨"t"⟩, .text (.insertAt 0 0 ['a'])⟩, ⟨⟨"t"⟩, .text (.insertAt 1 1 ['b'])⟩]

/-- The inverse of the first letter meets what was left of the second, so the first letter stays. -/
theorem not_isNoop_compose_invert : ¬ ∀ (c : Composite) (d x : Document), c.apply d = .ok x →
    ∃ r, c.compose c.invert = .ok r ∧ r.isNoop = true := by
  intro h
  obtain ⟨r, hr, hn⟩ := h doubled .empty _ rfl
  have hleft : (doubled.compose doubled.invert).toOption.any isNoop = false := by decide +kernel
  rw [hr] at hleft
  have hleft : r.isNoop = false := hleft
  rw [hn] at hleft
  cases hleft

/-- Types a word into a new text, clears a key that is not there, sets it and another one, and points a reference
into the text. -/
def entry : Composite :=
  .ofComponents [⟨⟨"m"⟩, .map ⟨"k", .null, .null⟩⟩, ⟨⟨"t"⟩, .text (.insertAt 0 0 ['a', 'b'])⟩,
    ⟨⟨"m"⟩, .map (.set "k" ⟨.bool true, trivial⟩)⟩, ⟨⟨"m"⟩, .map (.set "l" ⟨.bool true, trivial⟩)⟩,
    ⟨⟨"r"⟩, .reference ⟨⟨"t"⟩, -1, 1, true⟩⟩]

theorem compose_invert_isNoop_iff_entry : ∃ x, entry.Fits ∧ entry.apply .empty = .ok x ∧ Unstacked entry.components ∧
    ∃ r, entry.compose entry.invert = .ok r ∧ (r.isNoop = true ↔ Unstacked entry.components) ∧
      (compact [entry, entry.invert] = .ok [] ↔ Unstacked entry.components) := by
  have hu : Unstacked entry.components := by
    unfold Unstacked entry ofComponents
    decide +kernel
  have hl : entry.Fits := by decide
  exact ⟨_, hl, rfl, hu, compose_invert_isNoop_iff (d := .empty) hl rfl⟩

end words

end Composite
end Coedit
