import Coedit.Proofs.Queue.Batch
import Mathlib.Data.List.SplitBy

/-!
# Compaction run by run

A list of operations falls into runs, of one origin each.  The levels of compaction never reach across the border
of two runs, so each run is compacted on its own, to one operation or, where the run cancels out, to none.  Only
then are the operations that change nothing left out, and what stood on either side of a run that cancelled out
become neighbours, which are not looked at again.

* `settled_mergeLevels` — the levels leave no neighbours that may be composed;
* `compact_eq_self_iff` — what compaction leaves stays as it is exactly if no neighbours in it may be composed;
* `Composite.compact_runs` — a list of composites is compacted run by run;
* `Composite.compact_complete_iff` — when a list of composites is compacted completely.
-/

namespace Coedit

variable {ω τ : Type} [Operation ω τ] {ops merged l m : List ω}

/-! ## When a list stays as it is -/

/-- No neighbours may be composed. -/
def Settled (ops : List ω) : Prop := ops.IsChain fun a b => Operation.canCompose a b = false

/-- What a level does at the front of the list. -/
theorem mergeNeighbours_cons_cons_eq_ok {a b : ω} {rest : List ω} : mergeNeighbours (a :: b :: rest) = .ok merged ↔
    (Operation.canCompose a b = true ∧ ∃ c rest', Operation.compose a b = .ok c ∧ mergeNeighbours rest = .ok rest' ∧
      merged = c :: rest') ∨
    (Operation.canCompose a b = false ∧ ∃ rest', mergeNeighbours (b :: rest) = .ok rest' ∧ merged = a :: rest') := by
  cases hab : Operation.canCompose a b with
  | true =>
    cases hc : Operation.compose a b with
    | error e => simp [mergeNeighbours, hab, hc]
    | ok c => simp [mergeNeighbours, hab, hc, map_eq_ok, eq_comm (a := merged)]
  | false => simp [mergeNeighbours, hab, map_eq_ok, eq_comm (a := merged)]

theorem mergeNeighbours_of_settled : ∀ {ops : List ω}, Settled ops → mergeNeighbours ops = .ok ops
  | [], _ => rfl
  | [_], _ => rfl
  | _ :: _ :: _, h => by
    obtain ⟨hab, hrest⟩ := List.isChain_cons_cons.1 h
    exact mergeNeighbours_cons_cons_eq_ok.2 (.inr ⟨hab, _, mergeNeighbours_of_settled hrest, rfl⟩)

/-- A level makes the list no longer, and shorter unless no neighbours may be composed. -/
theorem settled_of_mergeNeighbours : ∀ {ops merged : List ω}, mergeNeighbours ops = .ok merged →
    merged.length ≤ ops.length ∧ (ops.length ≤ merged.length → Settled ops)
  | [], _, _ => ⟨by simp_all [mergeNeighbours], fun _ => .nil⟩
  | [_], _, h => by
    cases h
    exact ⟨Nat.le_refl _, fun _ => .singleton _⟩
  | a :: b :: rest, merged, h => by
    rcases mergeNeighbours_cons_cons_eq_ok.1 h with ⟨-, c, rest', -, hrest, rfl⟩ | ⟨hab, rest', hrest, rfl⟩
    · have hle := (settled_of_mergeNeighbours hrest).1
      simp only [List.length_cons]
      exact ⟨by omega, fun he => by omega⟩
    · obtain ⟨hle, hs⟩ := settled_of_mergeNeighbours hrest
      simp only [List.length_cons] at hle hs ⊢
      exact ⟨by omega, fun he => List.isChain_cons_cons.2 ⟨hab, hs (by omega)⟩⟩

/-- A level that makes the list no shorter leaves it as it is. -/
theorem mergeNeighbours_eq_self (h : mergeNeighbours ops = .ok merged) (hl : ops.length ≤ merged.length) :
    merged = ops := by
  have hs := (settled_of_mergeNeighbours h).2 hl
  exact Except.ok.inj (h.symm.trans (mergeNeighbours_of_settled hs))

theorem mergeLevels_of_settled (h : Settled ops) : mergeLevels ops = .ok ops := by
  unfold mergeLevels
  simp [mergeNeighbours_of_settled h]

/-- Merging one level at first changes nothing about merging all. -/
theorem mergeLevels_of_mergeNeighbours (h : mergeNeighbours ops = .ok merged) : mergeLevels ops = mergeLevels merged := by
  by_cases hl : merged.length < ops.length
  · conv => lhs; unfold mergeLevels
    simp only [h, hl, if_true]
  · rw [mergeNeighbours_eq_self h (by omega)]

/-- The levels leave no neighbours that may be composed, and make the list shorter unless there were none. -/
theorem settled_mergeLevels (ops : List ω) : ∀ {merged : List ω}, mergeLevels ops = .ok merged →
    Settled merged ∧ merged.length ≤ ops.length ∧ (ops.length ≤ merged.length → merged = ops) := by
  induction ops using mergeLevels.induct with
  | case1 ops e he =>
    intro merged h
    unfold mergeLevels at h
    simp only [he] at h
    cases h
  | case2 ops once hm hlt ih =>
    intro merged h
    rw [mergeLevels_of_mergeNeighbours hm] at h
    obtain ⟨hs, hle, -⟩ := ih h
    exact ⟨hs, by omega, fun hl => by omega⟩
  | case3 ops once hm hlt =>
    intro merged h
    have hs := (settled_of_mergeNeighbours hm).2 (by omega)
    obtain rfl := Except.ok.inj ((mergeLevels_of_settled hs).symm.trans h)
    exact ⟨hs, Nat.le_refl _, fun _ => rfl⟩

/-- Of neighbours that may not be composed compaction drops those that change nothing. -/
theorem compact_of_settled (h : Settled ops) : compact ops = .ok (ops.filter fun op => !Operation.isNoop op) := by
  rw [compact, mergeLevels_of_settled h]
  rfl

/-- What compaction leaves stays as it is exactly if no neighbours in it may be composed. -/
theorem compact_eq_self_iff (h : compact ops = .ok merged) : compact merged = .ok merged ↔ Settled merged := by
  constructor
  · intro hc
    obtain ⟨levels, hl, hf⟩ := map_eq_ok.1 hc
    obtain ⟨hs, -, heq⟩ := settled_mergeLevels merged hl
    have hle : merged.length ≤ levels.length := by
      rw [← hf]
      exact List.length_filter_le ..
    rwa [heq hle] at hs
  · intro hs
    rw [compact_of_settled hs, List.filter_eq_self.2]
    intro op hop
    rw [isNoop_of_mem_compact h hop]
    rfl

/-! ## Runs -/

/-- Where the last operation of one list may not be composed with the first of the next, a level stays within each. -/
theorem mergeNeighbours_append : ∀ {l merged : List ω},
    (∀ a ∈ l.getLast?, ∀ b ∈ m.head?, Operation.canCompose a b = false) → mergeNeighbours (l ++ m) = .ok merged →
      ∃ l' m', mergeNeighbours l = .ok l' ∧ mergeNeighbours m = .ok m' ∧ merged = l' ++ m'
  | [], merged, _, h => ⟨[], merged, rfl, h, rfl⟩
  | [a], merged, hb, h => by
    cases m with
    | nil => exact ⟨merged, [], h, rfl, (List.append_nil _).symm⟩
    | cons b m =>
      rcases mergeNeighbours_cons_cons_eq_ok.1 h with ⟨hab, -⟩ | ⟨-, m', hm, rfl⟩
      · rw [hb a rfl b rfl] at hab
        cases hab
      · exact ⟨[a], m', rfl, hm, rfl⟩
  | a :: b :: l, merged, hb, h => by
    rcases mergeNeighbours_cons_cons_eq_ok.1 h with ⟨hab, c, rest, hc, hrest, rfl⟩ | ⟨hab, rest, hrest, rfl⟩
    · have hl : ∀ x ∈ l.getLast?, ∀ y ∈ m.head?, Operation.canCompose x y = false := fun x hx =>
        hb x (by rw [List.getLast?_cons_cons]; exact List.mem_getLast?_cons hx)
      obtain ⟨l', m', hl, hm, rfl⟩ := mergeNeighbours_append hl hrest
      exact ⟨c :: l', m', mergeNeighbours_cons_cons_eq_ok.2 (.inl ⟨hab, c, l', hc, hl, rfl⟩), hm, rfl⟩
    · have hl : ∀ x ∈ (b :: l).getLast?, ∀ y ∈ m.head?, Operation.canCompose x y = false := fun x hx =>
        hb x (by rwa [List.getLast?_cons_cons])
      obtain ⟨l', m', hl, hm, rfl⟩ := mergeNeighbours_append (l := b :: l) hl hrest
      exact ⟨a :: l', m', mergeNeighbours_cons_cons_eq_ok.2 (.inr ⟨hab, l', hl, rfl⟩), hm, rfl⟩

/-! ### Operations of several classes -/

section classes
variable {κ : Type} {f : ω → κ} {ks : List κ} {rs : List (List ω)}

/-- The lists hold operations of one class each, at least one, and the classes are `ks`. -/
def Classed (f : ω → κ) (ks : List κ) (rs : List (List ω)) : Prop :=
  List.Forall₂ (fun k r => r ≠ [] ∧ ∀ op ∈ r, f op = k) ks rs

variable (hf : ∀ a b, Operation.canCompose a b = true ↔ f a = f b)
  (hc : ∀ {a b c}, Operation.compose a b = .ok c → f c = f b)
include hf hc

/-- A level merges each run on its own. -/
theorem mergeNeighbours_flatten (hk : Classed f ks rs) : ∀ {merged : List ω}, ks.IsChain (· ≠ ·) →
    mergeNeighbours rs.flatten = .ok merged →
      ∃ ns, List.Forall₂ (fun r n => mergeNeighbours r = .ok n) rs ns ∧ Classed f ks ns ∧ merged = ns.flatten := by
  induction hk with
  | nil =>
    intro merged _ h
    cases h
    exact ⟨[], .nil, .nil, rfl⟩
  | @cons k r ks rs hr hk ih =>
    intro merged hks h
    have hborder : ∀ a ∈ r.getLast?, ∀ b ∈ rs.flatten.head?, Operation.canCompose a b = false := by
      intro a ha b hb
      have hfa : f a = k := hr.2 a (List.mem_of_getLast? ha)
      cases hk with
      | nil => cases hb
      | @cons k' s ks rs hs _ =>
        have hfb : f b = k' := hs.2 b (List.mem_of_head? (by
          rwa [List.flatten_cons, List.head?_append_of_ne_nil _ hs.1] at hb))
        rw [← Bool.not_eq_true, hf, hfa, hfb]
        exact (List.isChain_cons_cons.1 hks).1
    obtain ⟨n, m', hn, hm, rfl⟩ := mergeNeighbours_append hborder h
    obtain ⟨ns, hns, hkn, rfl⟩ := ih hks.tail hm
    obtain ⟨hclass, hlen⟩ := mergeNeighbours_half (P := fun op => f op = k) (fun a b ha hb => (hf a b).2 (ha.trans hb.symm))
      (fun a b c _ hb h => (hc h).trans hb) r hr.2 hn
    have hr₀ : 0 < r.length := List.length_pos_iff.2 hr.1
    exact ⟨n :: ns, .cons hn hns, .cons ⟨List.length_pos_iff.1 (by omega), hclass⟩ hkn, rfl⟩

/-- The levels merge each run on its own. -/
theorem mergeLevels_flatten (hks : ks.IsChain (· ≠ ·)) (ops : List ω) : ∀ {rs : List (List ω)} {merged : List ω},
    rs.flatten = ops → Classed f ks rs → mergeLevels ops = .ok merged →
      ∃ ms : List (List ω), rs.map mergeLevels = ms.map .ok ∧ merged = ms.flatten := by
  induction ops using mergeLevels.induct with
  | case1 ops e he =>
    intro rs merged _ _ h
    unfold mergeLevels at h
    simp only [he] at h
    cases h
  | case2 ops once hm hlt ih =>
    rintro rs merged rfl hk h
    obtain ⟨ns, hns, hkn, rfl⟩ := mergeNeighbours_flatten hf hc hk hks hm
    rw [mergeLevels_of_mergeNeighbours hm] at h
    obtain ⟨ms, hms, rfl⟩ := ih rfl hkn h
    refine ⟨ms, ?_, rfl⟩
    rw [← hms]
    exact (map_eq_of_forall₂ (hns.imp fun _ _ hn => (mergeLevels_of_mergeNeighbours hn).symm)).symm
  | case3 ops once hm hlt =>
    rintro rs merged rfl hk h
    have hs := (settled_of_mergeNeighbours hm).2 (by omega)
    obtain rfl := Except.ok.inj ((mergeLevels_of_settled hs).symm.trans h)
    refine ⟨rs, List.map_congr_left fun r hr => mergeLevels_of_settled ?_, rfl⟩
    obtain ⟨before, after, rfl⟩ := List.append_of_mem hr
    exact hs.infix ⟨before.flatten, after.flatten, by simp⟩

/-- Each run is compacted on its own. -/
theorem compact_flatten (hks : ks.IsChain (· ≠ ·)) (hk : Classed f ks rs) (h : compact rs.flatten = .ok merged) :
    ∃ parts : List (List ω), rs.map compact = parts.map .ok ∧ merged = parts.flatten := by
  obtain ⟨levels, hl, rfl⟩ := map_eq_ok.1 h
  obtain ⟨ms, hms, rfl⟩ := mergeLevels_flatten hf hc hks _ rfl hk hl
  refine ⟨ms.map (·.filter fun op => !Operation.isNoop op), ?_, List.filter_flatten ..⟩
  have hcompact : rs.map compact
      = (rs.map mergeLevels).map (Except.map fun ops => ops.filter fun op => !Operation.isNoop op) :=
    (List.map_map ..).symm
  rw [hcompact, hms, List.map_map, List.map_map]
  rfl

omit hc in
theorem classed_of_isChain : ∀ {rs : List (List ω)}, [] ∉ rs → (∀ r ∈ rs, r.IsChain fun a b => Operation.canCompose a b) →
    rs.IsChain (fun r s => ∃ hr hs, Operation.canCompose (r.getLast hr) (s.head hs) = false) →
      ∃ ks, Classed f ks rs ∧ ks.IsChain (· ≠ ·)
  | [], _, _, _ => ⟨[], .nil, .nil⟩
  | [] :: _, hn, _, _ => absurd (List.mem_cons_self ..) hn
  | (a :: r) :: rs, hn, hr, hb => by
    have hclass : ∀ op ∈ a :: r, f op = f a := by
      have hmap : ((a :: r).map f).IsChain (· = ·) := by
        refine (List.isChain_map f).2 ((hr _ (List.mem_cons_self ..)).imp fun x y hxy => (hf x y).1 hxy)
      intro op hop
      rcases List.mem_cons.1 hop with rfl | hop
      · rfl
      · exact (hmap.rel_cons (List.mem_map_of_mem hop)).symm
    obtain ⟨ks, hk, hks⟩ := classed_of_isChain (fun h => hn (List.mem_cons_of_mem _ h))
      (fun s hs => hr s (List.mem_cons_of_mem _ hs)) hb.tail
    refine ⟨f a :: ks, .cons ⟨List.cons_ne_nil _ _, hclass⟩ hk, ?_⟩
    cases hk with
    | nil => exact .singleton _
    | @cons k s ks rs hs _ =>
      refine List.isChain_cons_cons.2 ⟨fun he => ?_, hks⟩
      -- the operations at the border may not be composed
      obtain ⟨hrn, hsn, hno⟩ := (List.isChain_cons_cons.1 hb).1
      have hlast := hclass _ (List.getLast_mem hrn)
      have hhead := hs.2 _ (List.head_mem hsn)
      rw [(hf _ _).2 (hlast.trans (he.trans hhead.symm))] at hno
      cases hno

omit hc in
/-- Every list falls into runs of one class each. -/
theorem exists_classed (ops : List ω) :
    ∃ ks, Classed f ks (ops.splitBy Operation.canCompose) ∧ ks.IsChain (· ≠ ·) :=
  classed_of_isChain hf (List.nil_notMem_splitBy _ _) (fun _ => List.isChain_of_mem_splitBy)
    (List.isChain_getLast_head_splitBy ..)

end classes

/-- Whether a run is compacted to nothing. -/
def cancels (run : List ω) : Bool := (compact run).toOption.any List.isEmpty

/-- Of lists related element by element, one is a chain if the other is, where relations correspond. -/
theorem isChain_iff_of_forall₂ {α β : Type} {R : α → β → Prop} {S : α → α → Prop} {T : β → β → Prop}
    (hST : ∀ {a a' b b'}, R a b → R a' b' → (S a a' ↔ T b b')) {l : List α} {m : List β} (h : List.Forall₂ R l m) :
    l.IsChain S ↔ m.IsChain T := by
  induction h with
  | nil => simp
  | cons hab h ih =>
    cases h with
    | nil => simp
    | cons hab' h => rw [List.isChain_cons_cons, List.isChain_cons_cons, ih, hST hab hab']

namespace Composite

variable {ops result : List Composite} {ks : List Origin} {rs parts : List (List Composite)}

/-- Each run that does not cancel out leaves one operation of its origin. -/
theorem survivors_of_classed (hk : Classed Composite.origin ks rs) : ∀ {parts : List (List Composite)},
    rs.map compact = parts.map .ok →
      List.Forall₂ (fun run op => run ≠ [] ∧ ∀ a ∈ run, a.origin = op.origin) (rs.filter fun run => !cancels run)
        parts.flatten := by
  induction hk with
  | nil =>
    intro parts h
    obtain rfl := List.map_eq_nil_iff.1 h.symm
    exact .nil
  | @cons k r ks rs hr _ ih =>
    intro parts h
    obtain ⟨p, ps, rfl, hp, hps⟩ := List.map_eq_cons_iff.1 h.symm
    obtain ⟨ho, hlen⟩ := compact_single hr.2 hp.symm
    have hrest := ih hps.symm
    cases p with
    | nil =>
      have hc : cancels r = true := by rw [cancels, ← hp]; rfl
      rw [List.filter_cons_of_neg (by simp [hc])]
      exact hrest
    | cons op p =>
      obtain rfl : p = [] := List.length_eq_zero_iff.1 (by simpa using hlen)
      have hc : cancels r = false := by rw [cancels, ← hp]; rfl
      rw [List.filter_cons_of_pos (by simp [hc])]
      exact .cons ⟨hr.1, fun a ha => (hr.2 a ha).trans (ho op (List.mem_singleton_self _)).symm⟩ hrest

/-- A list of composites is compacted run by run: each run that does not cancel out leaves one operation. -/
theorem compact_runs (h : compact ops = .ok result) :
    List.Forall₂ (fun run op => run ≠ [] ∧ ∀ a ∈ run, a.origin = op.origin)
      ((ops.splitBy canCompose).filter fun run => !cancels run) result := by
  have hf : ∀ a b : Composite, Operation.canCompose a b = true ↔ a.origin = b.origin := fun _ _ => beq_iff_eq (α := Origin)
  obtain ⟨ks, hk, hks⟩ := exists_classed (f := Composite.origin) hf ops
  rw [← List.flatten_splitBy canCompose ops] at h
  obtain ⟨parts, hparts, rfl⟩ := compact_flatten hf compose_origin hks hk h
  exact survivors_of_classed hk hparts

/-- **When compaction is complete.** Where a list of composites can be compacted, nothing that changes nothing is left
of it. What is left stays as it is when it is compacted again exactly if no neighbours in it may be composed, and that
is so exactly if no run stands between two of one origin and cancels out, while they do not. -/
theorem compact_complete_iff (h : compact ops = .ok result) : (∀ op ∈ result, op.isNoop = false) ∧
    (compact result = .ok result ↔ result.IsChain fun a b => a.canCompose b = false) ∧
      ((result.IsChain fun a b => a.canCompose b = false) ↔
        ((ops.splitBy canCompose).filter fun run => !cancels run).IsChain
          fun r s => ∀ a ∈ r, ∀ b ∈ s, a.canCompose b = false) := by
  refine ⟨fun op hop => isNoop_of_mem_compact h hop, compact_eq_self_iff h, ?_⟩
  refine (isChain_iff_of_forall₂ (fun {r s a b} hr hs => ?_) (compact_runs h)).symm
  constructor
  · intro hrs
    obtain ⟨x, hx⟩ := List.exists_mem_of_ne_nil r hr.1
    obtain ⟨y, hy⟩ := List.exists_mem_of_ne_nil s hs.1
    have hxy := hrs x hx y hy
    rwa [canCompose, hr.2 x hx, hs.2 y hy] at hxy
  · intro hab x hx y hy
    rwa [canCompose, hr.2 x hx, hs.2 y hy]

/-- Between two edits of one session another session types a letter and takes it back. -/
def interrupted : List Composite :=
  [(ofComponents [⟨⟨"t"⟩, .text (.insertAt 0 0 ['a'])⟩]).withOrigin ⟨"ann"⟩ ⟨"desk"⟩,
    (ofComponents [⟨⟨"u"⟩, .text (.insertAt 0 0 ['x'])⟩]).withOrigin ⟨"bob"⟩ ⟨"phone"⟩,
    (ofComponents [⟨⟨"u"⟩, .text (.deleteAt 1 0 ['x'])⟩]).withOrigin ⟨"bob"⟩ ⟨"phone"⟩,
    (ofComponents [⟨⟨"t"⟩, .text (.insertAt 1 1 ['b'])⟩]).withOrigin ⟨"ann"⟩ ⟨"desk"⟩]

theorem exists_compact_interrupted : ∃ a b, compact interrupted = .ok [a, b] ∧ a.origin = b.origin := by
  have ho : (compact interrupted).toOption.map (List.map Composite.origin)
      = some [⟨some ⟨"ann"⟩, some ⟨"desk"⟩⟩, ⟨some ⟨"ann"⟩, some ⟨"desk"⟩⟩] := by decide +kernel
  cases hc : compact interrupted with
  | error e =>
    rw [hc] at ho
    cases ho
  | ok result =>
    rw [hc] at ho
    obtain ⟨a, _, rfl, ha, hr⟩ := List.map_eq_cons_iff.1 (Option.some.inj ho)
    obtain ⟨b, _, rfl, hb, hr⟩ := List.map_eq_cons_iff.1 hr
    obtain rfl := List.map_eq_nil_iff.1 hr
    exact ⟨a, b, rfl, ha.trans hb.symm⟩

theorem compact_complete_iff_interrupted : ∃ result, compact interrupted = .ok result ∧
    (∀ op ∈ result, op.isNoop = false) ∧
      (compact result = .ok result ↔ result.IsChain fun a b => a.canCompose b = false) ∧
        ((result.IsChain fun a b => a.canCompose b = false) ↔
          ((interrupted.splitBy canCompose).filter fun run => !cancels run).IsChain
            fun r s => ∀ a ∈ r, ∀ b ∈ s, a.canCompose b = false) := by
  obtain ⟨a, b, h, -⟩ := exists_compact_interrupted
  exact ⟨_, h, compact_complete_iff h⟩

/-- Two edits of one session may be left side by side, and compacted once more. -/
theorem not_compact_complete :
    (¬ ∀ ops result : List Composite, compact ops = .ok result → result.IsChain fun a b => a.canCompose b = false) ∧
      ¬ ∀ ops result : List Composite, compact ops = .ok result → compact result = .ok result := by
  obtain ⟨a, b, h, ho⟩ := exists_compact_interrupted
  have hno : ¬ Settled [a, b] := by
    intro hs
    have hab : (a.origin == b.origin) = false :=
      (List.isChain_pair (R := fun a b : Composite => Operation.canCompose a b = false)).1 hs
    rw [ho, BEq.rfl] at hab
    cases hab
  exact ⟨fun hall => hno (hall interrupted _ h), fun hall => hno ((compact_eq_self_iff h).1 (hall interrupted _ h))⟩

end Composite

end Coedit
