import Coedit.Proofs.Queue.Passing
import Coedit.Sequence.Segment

/-!
# Calculi of operations

What operations of one kind must promise for replicas to agree: they respect equality of states, two
concurrent ones close to a square after `transform`, and `compose` has the effect of both.  Everything
about lists of operations follows from these laws alone.

A square may need room: its far corner holds what either operation adds, and sums of lengths have to fit there.  So
operations have a cost, and states have room for so much; costs do not grow on the way.

* `Calculus` — the laws;
* `Calculus.Maps`, `Calculus.Chain` — one operation, or a list of them in order, takes one state to another;
* `Calculus.passClients_maps`, `Calculus.passServers_maps` — squares paste together along a list;
* `Calculus.chain_compact` — compacting a list keeps its effect;
* `Calculus.embed` — a calculus carries over to a type of operations that holds its own as one kind.
-/

namespace Coedit

/-! ## Outcomes -/

section outcome
variable {ε α β : Type}

theorem map_eq_ok {x : Except ε α} {f : α → β} {b : β} : x.map f = .ok b ↔ ∃ a, x = .ok a ∧ f a = b := by
  cases x <;> simp [Except.map]

theorem map_eq_error {x : Except ε α} {f : α → β} {e : ε} : x.map f = .error e ↔ x = .error e := by
  cases x <;> simp [Except.map]

theorem bind_eq_ok {x : Except ε α} {f : α → Except ε β} {b : β} :
    x >>= f = .ok b ↔ ∃ a, x = .ok a ∧ f a = .ok b := by
  cases x <;> simp [bind, Except.bind]

theorem bind_eq_error {x : Except ε α} {f : α → Except ε β} {e : ε} :
    x >>= f = .error e ↔ x = .error e ∨ ∃ a, x = .ok a ∧ f a = .error e := by
  cases x <;> simp [bind, Except.bind]

theorem applyAll_cons_eq_ok {ω τ : Type} [Operation ω τ] {op : ω} {ops : List ω} {x z : τ} :
    Operation.applyAll (op :: ops) x = .ok z ↔
      ∃ y, Operation.apply op x = .ok y ∧ Operation.applyAll ops y = .ok z := by
  unfold Operation.applyAll
  rw [List.foldlM_cons, bind_eq_ok]

end outcome

/-! ## The laws -/

/-- What operations of one kind promise on the states of interest. -/
structure Calculus (ω τ : Type) [Operation ω τ] where
  /-- The operations of interest. -/
  Fit : ω → Prop
  /-- The states count as equal. A state of interest is one that is equal to itself. -/
  Same : τ → τ → Prop
  /-- The second operation can be folded into the first wherever both apply in turn. -/
  Joins : ω → ω → Prop
  /-- How much the operation may add to a state. -/
  cost : ω → Nat
  /-- So much may be added to the state. -/
  Room : Nat → τ → Prop
  symm : ∀ {x y : τ}, Same x y → Same y x
  trans : ∀ {x y z : τ}, Same x y → Same y z → Same x z
  room_le : ∀ {m n : Nat} {x : τ}, Room n x → m ≤ n → Room m x
  room_same : ∀ {n : Nat} {x y : τ}, Same x y → Room n x → Room n y
  /-- An operation takes no more room than it costs. -/
  room_apply : ∀ {op : ω} {n : Nat} {x y : τ}, Fit op → Same x x → Room (cost op + n) x →
    Operation.apply op x = .ok y → Room n y
  /-- Equal states have equal results. -/
  apply_same : ∀ {op : ω} {x x' y : τ}, Fit op → Same x y → Operation.apply op x = .ok x' →
    ∃ y', Operation.apply op y = .ok y' ∧ Same x' y'
  /-- Two operations on one state with room for both can be transformed, and either order has the same result. -/
  square : ∀ {s c : ω} {b x y : τ}, Fit s → Fit c → Same b b → Room (cost s + cost c) b →
    Operation.apply s b = .ok x → Operation.apply c b = .ok y → ∃ s' c', Operation.transform s c = .ok (s', c') ∧
      (Fit s' ∧ cost s' ≤ cost s) ∧ (Fit c' ∧ cost c' ≤ cost c) ∧
        ∃ z z', Operation.apply c' x = .ok z ∧ Operation.apply s' y = .ok z' ∧ Same z z'
  /-- Two operations in turn can be composed, and the composition has the same result. -/
  join : ∀ {a b : ω} {x y z : τ}, Joins a b → Fit a → Fit b → Same x x → Operation.apply a x = .ok y →
    Operation.apply b y = .ok z → ∃ c, Operation.compose a b = .ok c ∧ (Fit c ∧ cost c ≤ cost a + cost b) ∧
      ∃ z', Operation.apply c x = .ok z' ∧ Same z' z
  /-- An operation that claims to change nothing changes nothing. -/
  noop : ∀ {op : ω} {x y : τ}, Fit op → Operation.isNoop op = true → Same x x →
    Operation.apply op x = .ok y → Same x y

namespace Calculus

variable {ω τ : Type} [Operation ω τ] (K : Calculus ω τ)

/-- The operation takes the one state to the other, up to equality. -/
def Maps (op : ω) (x y : τ) : Prop :=
  K.Fit op ∧ K.Same x x ∧ ∃ z, Operation.apply op x = .ok z ∧ K.Same z y

/-- The operations, in order, take the one state to the other. -/
def Chain : List ω → τ → τ → Prop
  | [], x, y => K.Same x y
  | op :: ops, x, z => ∃ y, K.Maps op x y ∧ Chain ops y z

/-- How much the operations may add together. -/
def costs (ops : List ω) : Nat := Segment.total (ops.map K.cost)

variable {K} {op a b s c : ω} {ops rest : List ω} {n : Nat} {x x' y y' z : τ}

@[simp] theorem costs_nil : K.costs [] = 0 := rfl

@[simp] theorem costs_cons : K.costs (op :: ops) = K.cost op + K.costs ops := rfl

@[simp] theorem costs_append : K.costs (ops ++ rest) = K.costs ops + K.costs rest := by
  rw [costs, List.map_append, Segment.total_append]
  rfl

@[simp] theorem costs_reverse : K.costs ops.reverse = K.costs ops := by
  induction ops with
  | nil => rfl
  | cons op ops ih =>
    rw [List.reverse_cons, costs_append, ih, costs_cons, costs_cons, costs_nil, Nat.add_zero, Nat.add_comm]

theorem left (h : K.Same x y) : K.Same x x := K.trans h (K.symm h)

theorem right (h : K.Same x y) : K.Same y y := K.trans (K.symm h) h

/-! ### One operation -/

theorem Maps.left (h : K.Maps op x y) : K.Same x x := h.2.1

theorem Maps.right (h : K.Maps op x y) : K.Same y y :=
  let ⟨_, _, _, _, h⟩ := h
  Calculus.right h

theorem maps_of_apply (hf : K.Fit op) (hx : K.Same x x) (h : Operation.apply op x = .ok y) :
    K.Maps op x y := by
  obtain ⟨y', hy', hs⟩ := K.apply_same hf hx h
  obtain rfl : y = y' := Except.ok.inj (h.symm.trans hy')
  exact ⟨hf, hx, y, h, hs⟩

theorem Maps.congr (h : K.Maps op x y) (hx : K.Same x x') (hy : K.Same y y') : K.Maps op x' y' := by
  obtain ⟨hf, _, z, hz, hzy⟩ := h
  obtain ⟨z', hz', hs⟩ := K.apply_same hf hx hz
  exact ⟨hf, Calculus.right hx, z', hz', K.trans (K.trans (K.symm hs) hzy) hy⟩

theorem Maps.unique (h : K.Maps op x y) (h' : K.Maps op x y') : K.Same y y' := by
  obtain ⟨_, _, z, hz, hzy⟩ := h
  obtain ⟨_, _, z', hz', hzy'⟩ := h'
  obtain rfl : z = z' := Except.ok.inj (hz.symm.trans hz')
  exact K.trans (K.symm hzy) hzy'

theorem Maps.noop (h : K.Maps op x y) (hn : Operation.isNoop op = true) : K.Same x y := by
  obtain ⟨hf, hx, z, hz, hzy⟩ := h
  exact K.trans (K.noop hf hn hx hz) hzy

theorem Maps.room (h : K.Maps op x y) (hr : K.Room (K.cost op + n) x) : K.Room n y :=
  let ⟨hf, hx, _, hz, hzy⟩ := h
  K.room_same hzy (K.room_apply hf hx hr hz)

/-- **The square.** Concurrent operations can be transformed, and both ways round end in one state. -/
theorem Maps.transform (hs : K.Maps s x y) (hc : K.Maps c x z) (hr : K.Room (K.cost s + K.cost c) x) :
    ∃ s' c' w, Operation.transform s c = .ok (s', c') ∧ (K.Maps c' y w ∧ K.cost c' ≤ K.cost c) ∧
      K.Maps s' z w ∧ K.cost s' ≤ K.cost s := by
  obtain ⟨hfs, hx, y', hy', hyy⟩ := hs
  obtain ⟨hfc, _, z', hz', hzz⟩ := hc
  obtain ⟨s', c', ht, ⟨hfs', hks⟩, ⟨hfc', hkc⟩, w, w', hw, hw', hww⟩ := K.square hfs hfc hx hr hy' hz'
  refine ⟨s', c', w', ht, ⟨?_, hkc⟩, ?_, hks⟩
  · exact Maps.congr ⟨hfc', Calculus.left hyy, w, hw, hww⟩ hyy (Calculus.right hww)
  · exact Maps.congr ⟨hfs', Calculus.left hzz, w', hw', Calculus.right hww⟩ hzz (Calculus.right hww)

theorem Maps.compose (hj : K.Joins a b) (ha : K.Maps a x y) (hb : K.Maps b y z) :
    ∃ c, Operation.compose a b = .ok c ∧ K.Maps c x z ∧ K.cost c ≤ K.cost a + K.cost b := by
  obtain ⟨hfa, hx, y', hy', hyy⟩ := ha
  obtain ⟨hfb, _, z', hz', hzz⟩ := hb.congr (K.symm hyy) (Calculus.right hb.right)
  obtain ⟨c, hc, ⟨hfc, hkc⟩, w, hw, hwz⟩ := K.join hj hfa hfb hx hy' hz'
  exact ⟨c, hc, ⟨hfc, hx, w, hw, K.trans hwz hzz⟩, hkc⟩

/-! ### Lists of operations -/

theorem Chain.left (h : K.Chain ops x y) : K.Same x x := by
  cases ops with
  | nil => exact Calculus.left h
  | cons op ops =>
    obtain ⟨_, hm, _⟩ := h
    exact hm.left

theorem Chain.right : ∀ {ops : List ω} {x y : τ}, K.Chain ops x y → K.Same y y
  | [], _, _, h => Calculus.right h
  | _ :: _, _, _, ⟨_, _, h⟩ => h.right

theorem Chain.congr_left (h : K.Chain ops x y) (hx : K.Same x x') : K.Chain ops x' y := by
  cases ops with
  | nil => exact K.trans (K.symm hx) h
  | cons op ops =>
    obtain ⟨w, hm, h⟩ := h
    exact ⟨w, hm.congr hx hm.right, h⟩

theorem Chain.congr_right : ∀ {ops : List ω} {x y y' : τ}, K.Chain ops x y → K.Same y y' → K.Chain ops x y'
  | [], _, _, _, h, hy => K.trans h hy
  | _ :: _, _, _, _, ⟨w, hm, h⟩, hy => ⟨w, hm, h.congr_right hy⟩

theorem Chain.unique : ∀ {ops : List ω} {x y y' : τ}, K.Chain ops x y → K.Chain ops x y' → K.Same y y'
  | [], _, _, _, h, h' => K.trans (K.symm h) h'
  | _ :: _, _, _, _, ⟨_, hm, h⟩, ⟨_, hm', h'⟩ => h.unique (h'.congr_left (hm'.unique hm))

theorem chain_append : K.Chain (ops ++ rest) x z ↔ ∃ y, K.Chain ops x y ∧ K.Chain rest y z := by
  induction ops generalizing x with
  | nil => exact ⟨fun h => ⟨x, h.left, h⟩, fun ⟨_, h, h'⟩ => h'.congr_left (K.symm h)⟩
  | cons op ops ih =>
    constructor
    · rintro ⟨w, hm, h⟩
      obtain ⟨y, h, h'⟩ := ih.1 h
      exact ⟨y, ⟨w, hm, h⟩, h'⟩
    · rintro ⟨y, ⟨w, hm, h⟩, h'⟩
      exact ⟨w, hm, ih.2 ⟨y, h, h'⟩⟩

theorem chain_singleton : K.Chain [op] x y ↔ K.Maps op x y :=
  ⟨fun ⟨_, hm, h⟩ => hm.congr hm.left h, fun h => ⟨y, h, h.right⟩⟩

theorem Chain.snoc (h : K.Chain ops x y) (hm : K.Maps op y z) : K.Chain (ops ++ [op]) x z :=
  chain_append.2 ⟨y, h, chain_singleton.2 hm⟩

theorem Chain.fit : ∀ {ops : List ω} {x y : τ}, K.Chain ops x y → ∀ op ∈ ops, K.Fit op
  | _ :: _, _, _, ⟨_, hm, h⟩, op, hop => by
    rcases List.mem_cons.1 hop with rfl | hop
    · exact hm.1
    · exact h.fit op hop

theorem Chain.room : ∀ {ops : List ω} {x y : τ}, K.Chain ops x y → K.Room (K.costs ops + n) x → K.Room n y
  | [], _, _, h, hr => K.room_same h (by simpa using hr)
  | op :: ops, _, _, ⟨_, hm, h⟩, hr => h.room (hm.room (by rwa [costs_cons, Nat.add_assoc] at hr))

/-- Operations that apply in turn form a chain. -/
theorem chain_of_applyAll : ∀ {ops : List ω} {x y : τ}, (∀ op ∈ ops, K.Fit op) → K.Same x x →
    Operation.applyAll ops x = .ok y → K.Chain ops x y
  | [], x, _, _, hx, h => by
    cases h
    exact hx
  | op :: ops, x, _, hf, hx, h => by
    obtain ⟨w, hw, h⟩ := applyAll_cons_eq_ok.1 h
    have hm := maps_of_apply (hf op (List.mem_cons_self ..)) hx hw
    exact ⟨w, hm, chain_of_applyAll (fun o ho => hf o (List.mem_cons_of_mem _ ho)) hm.right h⟩

/-- The operations of a chain apply in turn. -/
theorem Chain.applyAll : ∀ {ops : List ω} {x y : τ}, K.Chain ops x y →
    ∃ z, Operation.applyAll ops x = .ok z ∧ K.Same z y
  | [], x, _, h => ⟨x, rfl, h⟩
  | op :: ops, x, y, ⟨w, ⟨hf, hx, w', hw', hww⟩, h⟩ => by
    obtain ⟨z, hz, hzy⟩ := (h.congr_left (K.symm hww)).applyAll
    exact ⟨z, applyAll_cons_eq_ok.2 ⟨w', hw', hz⟩, hzy⟩

theorem costs_filter_le (p : ω → Bool) (ops : List ω) : K.costs (ops.filter p) ≤ K.costs ops :=
  Segment.total_map_filter_le K.cost p ops

/-- What changes nothing may be left out. -/
theorem Chain.drop_noops : ∀ {ops : List ω} {x y : τ}, K.Chain ops x y →
    K.Chain (ops.filter fun op => !Operation.isNoop op) x y
  | [], _, _, h => h
  | op :: ops, x, y, ⟨w, hm, h⟩ => by
    by_cases hn : Operation.isNoop op = true
    · rw [List.filter_cons_of_neg (by simp [hn])]
      exact h.drop_noops.congr_left (K.symm (hm.noop hn))
    · rw [List.filter_cons_of_pos (by simp [hn])]
      exact ⟨w, hm, h.drop_noops⟩

/-! ### Passing operations by one another -/

/-- A server operation passes a chain of client operations: row by row the squares paste together. -/
theorem passClients_maps : ∀ {cs : List ω} {s : ω} {x y z : τ}, K.Maps s x y → K.Chain cs x z →
    K.Room (K.cost s + K.costs cs) x →
      ∃ cs' s' w, passClients s cs = (cs', .ok s') ∧ (K.Chain cs' y w ∧ K.costs cs' ≤ K.costs cs) ∧
        K.Maps s' z w ∧ K.cost s' ≤ K.cost s
  | [], s, x, y, z, hs, hc, _ =>
    ⟨[], s, y, rfl, ⟨hs.right, Nat.le_refl _⟩, hs.congr hc hs.right, Nat.le_refl _⟩
  | c :: cs, s, x, y, z, hs, ⟨x', hc, hcs⟩, hr => by
    rw [costs_cons] at hr
    obtain ⟨s', c', y', ht, ⟨hc', hkc⟩, hs', hks⟩ := hs.transform hc (K.room_le hr (by omega))
    have hr' : K.Room (K.cost s' + K.costs cs) x' := hc.room (K.room_le hr (by omega))
    obtain ⟨cs', s'', w, hp, ⟨hcs', hkcs⟩, hs'', hks'⟩ := passClients_maps hs' hcs hr'
    refine ⟨c' :: cs', s'', w, ?_, ⟨⟨y', hc', hcs'⟩, Nat.add_le_add hkc hkcs⟩, hs'', Nat.le_trans hks' hks⟩
    exact passClients_cons_eq_ok.2 ⟨s', c', cs', ht, hp, rfl⟩

/-- A client operation passes a chain of server operations. -/
theorem passServers_maps : ∀ {ss : List ω} {c : ω} {x y z : τ}, K.Maps c x z → K.Chain ss x y →
    K.Room (K.cost c + K.costs ss) x →
      ∃ ss' c' w, passServers c ss = (ss', .ok c') ∧ (K.Maps c' y w ∧ K.cost c' ≤ K.cost c) ∧
        K.Chain ss' z w ∧ K.costs ss' ≤ K.costs ss
  | [], c, x, y, z, hc, hs, _ =>
    ⟨[], c, z, rfl, ⟨hc.congr hs hc.right, Nat.le_refl _⟩, hc.right, Nat.le_refl _⟩
  | s :: ss, c, x, y, z, hc, ⟨x', hs, hss⟩, hr => by
    rw [costs_cons] at hr
    obtain ⟨s', c', z', ht, ⟨hc', hkc⟩, hs', hks⟩ := hs.transform hc (K.room_le hr (by omega))
    have hr' : K.Room (K.cost c' + K.costs ss) x' := hs.room (K.room_le hr (by omega))
    obtain ⟨ss', c'', w, hp, ⟨hc'', hkc'⟩, hss', hkss⟩ := passServers_maps hc' hss hr'
    refine ⟨s' :: ss', c'', w, ?_, ⟨hc'', Nat.le_trans hkc' hkc⟩, ⟨z', hs', hss'⟩, Nat.add_le_add hks hkss⟩
    exact passServers_cons_eq_ok.2 ⟨s', c', ss', ht, hp, rfl⟩

/-! ### Compaction -/

variable (hj : ∀ a b : ω, Operation.canCompose a b = true → K.Joins a b)
include hj

theorem chain_mergeNeighbours (ops : List ω) : ∀ {x y : τ}, K.Chain ops x y →
    ∃ merged, mergeNeighbours ops = .ok merged ∧ K.Chain merged x y ∧ K.costs merged ≤ K.costs ops := by
  induction ops using mergeNeighbours.induct with
  | case1 a b rest hab c hc ih =>
    rintro x y ⟨x₁, ha, x₂, hb, h⟩
    obtain ⟨c', hc', hm, hk⟩ := ha.compose (hj a b hab) hb
    obtain rfl : c = c' := Except.ok.inj (hc.symm.trans hc')
    obtain ⟨merged, hmerged, h, hks⟩ := ih h
    refine ⟨c :: merged, ?_, ⟨x₂, hm, h⟩, by simp only [costs_cons]; omega⟩
    simp only [mergeNeighbours, hab, hc, hmerged, if_true, Except.map]
  | case2 a b rest hab e he =>
    rintro x y ⟨x₁, ha, x₂, hb, h⟩
    obtain ⟨c', hc', -⟩ := ha.compose (hj a b hab) hb
    cases he.symm.trans hc'
  | case3 a b rest hab ih =>
    rintro x y ⟨x₁, ha, h⟩
    obtain ⟨merged, hmerged, h, hks⟩ := ih h
    refine ⟨a :: merged, ?_, ⟨x₁, ha, h⟩, Nat.add_le_add_left hks _⟩
    simp only [mergeNeighbours, hab, hmerged, Except.map]
    rfl
  | case4 ops hops =>
    intro x y h
    refine ⟨ops, ?_, h, Nat.le_refl _⟩
    unfold mergeNeighbours
    split
    next a b rest => exact absurd rfl (hops a b rest)
    next => rfl

theorem chain_mergeLevels (ops : List ω) : ∀ {x y : τ}, K.Chain ops x y →
    ∃ merged, mergeLevels ops = .ok merged ∧ K.Chain merged x y ∧ K.costs merged ≤ K.costs ops := by
  induction ops using mergeLevels.induct with
  | case1 ops e he =>
    intro x y h
    obtain ⟨merged, hmerged, _⟩ := chain_mergeNeighbours hj ops h
    cases he.symm.trans hmerged
  | case2 ops merged hm hlt ih =>
    intro x y h
    obtain ⟨merged', hmerged, h, hk⟩ := chain_mergeNeighbours hj ops h
    obtain rfl : merged = merged' := Except.ok.inj (hm.symm.trans hmerged)
    obtain ⟨final, hfinal, h, hk'⟩ := ih h
    refine ⟨final, ?_, h, Nat.le_trans hk' hk⟩
    unfold mergeLevels
    simp only [hm, hlt, if_true, hfinal]
  | case3 ops merged hm hlt =>
    intro x y h
    obtain ⟨merged', hmerged, h, hk⟩ := chain_mergeNeighbours hj ops h
    obtain rfl : merged = merged' := Except.ok.inj (hm.symm.trans hmerged)
    refine ⟨merged, ?_, h, hk⟩
    unfold mergeLevels
    simp only [hm, hlt, if_false]

/-- **Compaction keeps the effect of a chain.** -/
theorem chain_compact (h : K.Chain ops x y) :
    ∃ merged, compact ops = .ok merged ∧ K.Chain merged x y ∧ K.costs merged ≤ K.costs ops := by
  obtain ⟨merged, hm, h, hk⟩ := chain_mergeLevels hj ops h
  refine ⟨_, ?_, h.drop_noops, Nat.le_trans (costs_filter_le _ merged) hk⟩
  simp only [compact, hm, Except.map]

end Calculus

/-! ## One kind among several -/

section embed
variable {ω τ ω' τ' : Type} [Operation ω τ] [Operation ω' τ']

/-- The operations and states of one type are one kind among those of another. -/
structure IsKind (f : ω → ω') (g : τ → τ') : Prop where
  op_injective : Function.Injective f := by
    intro a b h
    injection h
  state_injective : Function.Injective g := by
    intro x y h
    injection h
  apply_map : ∀ op x, Operation.apply (f op) (g x) = (Operation.apply op x).map g := by
    intros
    rfl
  transform_map : ∀ s c, Operation.transform (f s) (f c) =
      (Operation.transform s c).map fun p => (f p.1, f p.2) := by
    intros
    rfl
  compose_map : ∀ a b, Operation.compose (f a) (f b) = (Operation.compose a b).map f := by
    intros
    rfl
  isNoop_map : ∀ op, Operation.isNoop (f op) = Operation.isNoop op := by
    intros
    rfl

/-- The calculus of one kind of operations, which cost what they cost among the others. -/
def Calculus.embed (K : Calculus ω τ) {f : ω → ω'} {g : τ → τ'} (h : IsKind f g) (cost : ω' → Nat)
    (hcost : ∀ op, cost (f op) = K.cost op) : Calculus ω' τ' where
  Fit op := ∃ o, op = f o ∧ K.Fit o
  Same v w := ∃ x y, v = g x ∧ w = g y ∧ K.Same x y
  Joins a b := ∃ o p, a = f o ∧ b = f p ∧ K.Joins o p
  cost := cost
  Room n v := ∃ x, v = g x ∧ K.Room n x
  room_le := by
    rintro m n _ ⟨x, rfl, hr⟩ hle
    exact ⟨x, rfl, K.room_le hr hle⟩
  room_same := by
    rintro n _ _ ⟨x, y, rfl, rfl, hs⟩ ⟨x', hx, hr⟩
    obtain rfl := h.state_injective hx
    exact ⟨y, rfl, K.room_same hs hr⟩
  room_apply := by
    rintro _ n _ w ⟨o, rfl, hf⟩ ⟨x, _, rfl, hx, hs⟩ ⟨x', hx', hr⟩ hw
    obtain rfl := h.state_injective hx
    obtain rfl := h.state_injective hx'
    rw [h.apply_map, map_eq_ok] at hw
    obtain ⟨y, hy, rfl⟩ := hw
    exact ⟨y, rfl, K.room_apply hf hs (hcost o ▸ hr) hy⟩
  symm := by
    rintro _ _ ⟨x, y, rfl, rfl, hs⟩
    exact ⟨y, x, rfl, rfl, K.symm hs⟩
  trans := by
    rintro _ _ _ ⟨x, y, rfl, rfl, hs⟩ ⟨y', z, hy, rfl, hs'⟩
    obtain rfl := h.state_injective hy
    exact ⟨x, z, rfl, rfl, K.trans hs hs'⟩
  apply_same := by
    rintro _ _ v _ ⟨o, rfl, hf⟩ ⟨x, y, rfl, rfl, hs⟩ hv
    rw [h.apply_map, map_eq_ok] at hv
    obtain ⟨x', hx, rfl⟩ := hv
    obtain ⟨y', hy, hs⟩ := K.apply_same hf hs hx
    exact ⟨g y', by rw [h.apply_map, hy]; rfl, x', y', rfl, rfl, hs⟩
  square := by
    rintro _ _ _ v w ⟨s, rfl, hfs⟩ ⟨c, rfl, hfc⟩ ⟨b, b', rfl, hb, hs⟩ ⟨b'', hb'', hr⟩ hv hw
    obtain rfl := h.state_injective hb
    obtain rfl := h.state_injective hb''
    rw [h.apply_map, map_eq_ok] at hv hw
    rw [hcost, hcost] at hr
    obtain ⟨x, hx, rfl⟩ := hv
    obtain ⟨y, hy, rfl⟩ := hw
    obtain ⟨s', c', ht, ⟨hfs', hks⟩, ⟨hfc', hkc⟩, z, z', hz, hz', hs⟩ := K.square hfs hfc hs hr hx hy
    simp only [hcost]
    refine ⟨f s', f c', ?_, ⟨⟨s', rfl, hfs'⟩, ?_⟩, ⟨⟨c', rfl, hfc'⟩, ?_⟩, g z, g z', ?_, ?_, z, z', rfl, rfl, hs⟩
    · rw [h.transform_map, ht]
      rfl
    · rwa [hcost]
    · rwa [hcost]
    · rw [h.apply_map, hz]
      rfl
    · rw [h.apply_map, hz']
      rfl
  join := by
    rintro _ _ _ v w ⟨a, b, rfl, rfl, hj⟩ ⟨a', ha, hfa⟩ ⟨b', hb, hfb⟩ ⟨x, x', rfl, hx, hs⟩ hv hw
    obtain rfl := h.op_injective ha
    obtain rfl := h.op_injective hb
    obtain rfl := h.state_injective hx
    rw [h.apply_map, map_eq_ok] at hv
    obtain ⟨y, hy, rfl⟩ := hv
    rw [h.apply_map, map_eq_ok] at hw
    obtain ⟨z, hz, rfl⟩ := hw
    obtain ⟨c, hc, ⟨hfc, hk⟩, z', hz', hs⟩ := K.join hj hfa hfb hs hy hz
    refine ⟨f c, ?_, ⟨⟨c, rfl, hfc⟩, by simpa only [hcost] using hk⟩, g z', ?_, z', z, rfl, rfl, hs⟩
    · rw [h.compose_map, hc]
      rfl
    · rw [h.apply_map, hz']
      rfl
  noop := by
    rintro _ _ w ⟨o, rfl, hf⟩ hn ⟨x, x', rfl, hx, hs⟩ hw
    obtain rfl := h.state_injective hx
    rw [h.isNoop_map] at hn
    rw [h.apply_map, map_eq_ok] at hw
    obtain ⟨y, hy, rfl⟩ := hw
    exact ⟨x, y, rfl, rfl, K.noop hf hn hs hy⟩

end embed
end Coedit
