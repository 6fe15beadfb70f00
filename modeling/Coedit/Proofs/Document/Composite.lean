import Coedit.Proofs.Document.Targeted

/-!
# The calculus of composite operations

A composite has the effect of its components one after the other, so its laws are those of lists of components.

* `Composite.transformComponents_chain` — the cells of the grid of two component lists paste together;
* `Composite.merge_chain` — a component is merged past the ones that it passes;
* `Composite.calculus` — the laws.
-/

namespace Coedit
namespace Composite

open TargetedOp (calculus)

variable [L : Lengths] {σ : Schema} {c incoming : TargetedOp} {cs server client : List TargetedOp} {n : Nat}
  {x y z : Document}

/-! ## Transforming -/

/-- A row of the grid is one client component that passes the server's. -/
theorem transformOne_of_passServers : ∀ {server server' : List TargetedOp} {c c' : TargetedOp},
    passServers c server = (server', .ok c') → transformOne c server = .ok (server', c')
  | [], _, _, _, h => by
    cases h
    rfl
  | s :: server, server', c, c', h => by
    obtain ⟨s', c₁, rest, ht, hp, rfl⟩ := passServers_cons_eq_ok.1 h
    have ih := transformOne_of_passServers hp
    have ht : TargetedOp.transform s c = .ok (s', c₁) := ht
    unfold transformOne
    split
    next hpass =>
      obtain ⟨rfl, rfl⟩ := Prod.mk.inj (Except.ok.inj (ht.symm.trans (TargetedOp.transform_of_passes hpass)))
      rw [ih]
      rfl
    next hpass =>
      have hst : s.target = c.target := by
        simp only [passes, Bool.or_eq_true, bne_iff_ne, not_or, not_not] at hpass
        exact hpass.1
      rw [TargetedOp.transform, if_pos hst, map_eq_ok] at ht
      obtain ⟨⟨op, op'⟩, hop, hp'⟩ := ht
      obtain ⟨rfl, rfl⟩ := Prod.mk.inj hp'
      simp only [hop, ih]
      rfl

theorem transformOne_maps (hc : (calculus σ).Maps c x z) (hs : (calculus σ).Chain server x y)
    (hr : x.Room σ ((calculus σ).cost c + (calculus σ).costs server)) :
    ∃ server' c' w, transformOne c server = .ok (server', c') ∧
      ((calculus σ).Maps c' y w ∧ (calculus σ).cost c' ≤ (calculus σ).cost c) ∧
        (calculus σ).Chain server' z w ∧ (calculus σ).costs server' ≤ (calculus σ).costs server := by
  obtain ⟨server', c', w, hp, h⟩ := Calculus.passServers_maps hc hs hr
  exact ⟨server', c', w, transformOne_of_passServers hp, h⟩

/-- Two lists of components on one document can be transformed, and either order has the same result. -/
theorem transformComponents_chain (client : List TargetedOp) : ∀ {server : List TargetedOp} {x y z : Document},
    (calculus σ).Chain server x y → (calculus σ).Chain client x z →
      x.Room σ ((calculus σ).costs server + (calculus σ).costs client) →
        ∃ server' client' w, transformComponents server client = .ok (server', client') ∧
          ((calculus σ).Chain client' y w ∧ (calculus σ).costs client' ≤ (calculus σ).costs client) ∧
            (calculus σ).Chain server' z w ∧ (calculus σ).costs server' ≤ (calculus σ).costs server := by
  induction client with
  | nil =>
    intro server x y z hs hc _
    exact ⟨server, [], y, rfl, ⟨hs.right, Nat.le_refl _⟩, hs.congr_left hc, Nat.le_refl _⟩
  | cons c client ih =>
    rintro server x y z hs ⟨x', hc, hcs⟩ hr
    rw [Calculus.costs_cons] at hr
    obtain ⟨server₁, c', y', ht, ⟨hc', hkc⟩, hs₁, hks₁⟩ := transformOne_maps hc hs (hr.le (by omega))
    have hr' : x'.Room σ ((calculus σ).costs server₁ + (calculus σ).costs client) :=
      hc.room (K := calculus σ) (hr.le (by omega))
    obtain ⟨server', client', w, htc, ⟨hcs', hkcs⟩, hs', hks'⟩ := ih hs₁ hcs hr'
    refine ⟨server', c' :: client', w, ?_, ⟨⟨y', hc', hcs'⟩, Nat.add_le_add hkc hkcs⟩, hs', Nat.le_trans hks' hks₁⟩
    simp only [transformComponents, ht, htc]
    rfl

/-! ## Composing -/

/-- A component is merged into the latest one that it does not pass, if there is one. -/
theorem mergeReversed_chain (reversed : List TargetedOp) : ∀ {x y z : Document},
    (calculus σ).Chain reversed.reverse x y → (calculus σ).Maps incoming y z →
      ∃ r, mergeReversed incoming reversed = .ok r ∧
        ∀ merged, r = some merged → (calculus σ).Chain merged.reverse x z ∧
          (calculus σ).costs merged ≤ (calculus σ).costs reversed + (calculus σ).cost incoming := by
  induction reversed with
  | nil =>
    intro x y z _ _
    exact ⟨none, rfl, nofun⟩
  | cons c earlier ih =>
    intro x y z hcs hi
    rw [List.reverse_cons] at hcs
    obtain ⟨w, hcs, hc⟩ := Calculus.chain_append.1 hcs
    have hc := Calculus.chain_singleton.1 hc
    unfold mergeReversed
    cases hp : passes c incoming with
    | true =>
      -- the component changes places with `c` before it goes on
      obtain ⟨w', hi, hc⟩ := TargetedOp.maps_swap hp hc hi
      obtain ⟨r, hr, hm⟩ := ih hcs hi
      refine ⟨r.map (c :: ·), by rw [if_pos rfl, hr]; rfl, ?_⟩
      rintro _ h
      obtain ⟨merged, rfl, rfl⟩ := Option.map_eq_some_iff.1 h
      obtain ⟨hm, hk⟩ := hm merged rfl
      rw [List.reverse_cons]
      exact ⟨hm.snoc hc, by simp only [Calculus.costs_cons]; omega⟩
    | false =>
      obtain ⟨c', hc', hm, hk⟩ := hc.compose (TargetedOp.joins_of_not_passes hp hc.1 hi.1) hi
      have hc' : (c.op.compose incoming.op).map (fun op => { c with op }) = .ok c' := hc'
      obtain ⟨op, hop, rfl⟩ := map_eq_ok.1 hc'
      refine ⟨some ({ c with op } :: earlier), by rw [if_neg (by simp), hop]; rfl, ?_⟩
      intro merged h
      obtain rfl := Option.some.inj h
      rw [List.reverse_cons]
      exact ⟨hcs.snoc hm, by simp only [Calculus.costs_cons]; omega⟩

/-- Merging a component has its effect after that of the others. -/
theorem merge_chain (hcs : (calculus σ).Chain cs x y) (hi : (calculus σ).Maps incoming y z) :
    ∃ merged, merge cs incoming = .ok merged ∧ (calculus σ).Chain merged x z ∧
      (calculus σ).costs merged ≤ (calculus σ).costs cs + (calculus σ).cost incoming := by
  obtain ⟨r, hr, hm⟩ := mergeReversed_chain cs.reverse (by rwa [List.reverse_reverse]) hi
  unfold merge
  rw [hr]
  cases r with
  | none => exact ⟨_, rfl, hcs.snoc hi, by simp⟩
  | some merged => exact ⟨_, rfl, by simpa only [Calculus.costs_reverse] using hm merged rfl⟩

theorem foldlM_merge_chain (rest : List TargetedOp) : ∀ {cs : List TargetedOp} {x y z : Document},
    (calculus σ).Chain cs x y → (calculus σ).Chain rest y z →
      ∃ merged, rest.foldlM merge cs = .ok merged ∧ (calculus σ).Chain merged x z ∧
        (calculus σ).costs merged ≤ (calculus σ).costs cs + (calculus σ).costs rest := by
  induction rest with
  | nil =>
    intro cs x y z hcs hr
    exact ⟨cs, rfl, hcs.congr_right hr, Nat.le_refl _⟩
  | cons c rest ih =>
    rintro cs x y z hcs ⟨y', hc, hr⟩
    obtain ⟨merged₁, hm, hcs, hk₁⟩ := merge_chain hcs hc
    obtain ⟨merged, hms, hcs, hk⟩ := ih hcs hr
    refine ⟨merged, ?_, hcs, by simp only [Calculus.costs_cons]; omega⟩
    rw [List.foldlM_cons, bind_eq_ok]
    exact ⟨merged₁, hm, hms⟩

/-! ## The laws -/

/-- Composites that apply are chains of their components. -/
theorem chain_of_apply {c : Composite} (hf : ∀ t ∈ c.components, t.Fits σ) (h : x.Same σ x)
    (hy : c.apply x = .ok y) : (calculus σ).Chain c.components x y :=
  Calculus.chain_of_applyAll hf h hy

theorem apply_of_chain {c : Composite} (h : (calculus σ).Chain c.components x y) :
    ∃ z, c.apply x = .ok z ∧ z.Same σ y := h.applyAll

/-- Dropping components that change nothing keeps the effect. -/
theorem chain_dropNoops (h : (calculus σ).Chain cs x y) : (calculus σ).Chain (dropNoops cs) x y := h.drop_noops

theorem costs_dropNoops_le (cs : List TargetedOp) : (calculus σ).costs (dropNoops cs) ≤ (calculus σ).costs cs :=
  Calculus.costs_filter_le _ cs

theorem transform_chain {s c : Composite} (hs : (calculus σ).Chain s.components x y)
    (hc : (calculus σ).Chain c.components x z)
    (hr : x.Room σ ((calculus σ).costs s.components + (calculus σ).costs c.components)) :
    ∃ s' c' w, s.transform c = .ok ({ s with components := s' }, { c with components := c' }) ∧
      ((calculus σ).Chain c' y w ∧ (calculus σ).costs c' ≤ (calculus σ).costs c.components) ∧
        (calculus σ).Chain s' z w ∧ (calculus σ).costs s' ≤ (calculus σ).costs s.components := by
  obtain ⟨s', c', w, ht, ⟨hc', hkc⟩, hs', hks⟩ := transformComponents_chain c.components hs hc hr
  exact ⟨_, _, w, by rw [transform, ht]; rfl, ⟨chain_dropNoops hc', Nat.le_trans (costs_dropNoops_le c') hkc⟩,
    chain_dropNoops hs', Nat.le_trans (costs_dropNoops_le s') hks⟩

theorem compose_chain {a b : Composite} (ho : a.origin = b.origin) (ha : (calculus σ).Chain a.components x y)
    (hb : (calculus σ).Chain b.components y z) :
    ∃ cs, a.compose b = .ok { b with components := cs } ∧ (calculus σ).Chain cs x z ∧
      (calculus σ).costs cs ≤ (calculus σ).costs a.components + (calculus σ).costs b.components := by
  obtain ⟨cs, hm, hcs, hk⟩ := foldlM_merge_chain b.components ha hb
  exact ⟨_, by rw [compose, if_neg (by simp [ho]), hm]; rfl, chain_dropNoops hcs,
    Nat.le_trans (costs_dropNoops_le cs) hk⟩

end Composite

/-- Elements that the edit adds to texts and lists. -/
def Composite.insertLength (c : Composite) : Nat := Segment.total (c.components.map fun t => t.op.insertLength)

/-- Elements that the operations add together. -/
def Composite.insertLengths (ops : List Composite) : Nat := Segment.total (ops.map insertLength)

@[simp] theorem Composite.insertLengths_nil : insertLengths [] = 0 := rfl

@[simp] theorem Composite.insertLengths_cons (op : Composite) (ops : List Composite) :
    insertLengths (op :: ops) = op.insertLength + insertLengths ops := rfl

@[simp] theorem Composite.insertLengths_append (ops rest : List Composite) :
    insertLengths (ops ++ rest) = insertLengths ops + insertLengths rest := by
  rw [insertLengths, List.map_append, Segment.total_append]
  rfl

theorem Composite.insertLengths_filter_le (p : Composite → Bool) (ops : List Composite) :
    insertLengths (ops.filter p) ≤ insertLengths ops :=
  Segment.total_map_filter_le insertLength p ops

/-- The edits of texts and lists are in normal form, and their lengths fit. -/
def Composite.Fits [Lengths] (c : Composite) : Prop := ∀ t ∈ c.components, t.op.Fits

instance [Lengths] (c : Composite) : Decidable c.Fits :=
  inferInstanceAs (Decidable (∀ t ∈ c.components, t.op.Fits))

def Composite.calculus [Lengths] (σ : Schema) : Calculus Composite Document where
  Fit c := ∀ t ∈ c.components, t.Fits σ
  Same := Document.Same σ
  Joins a b := a.origin = b.origin
  cost := insertLength
  Room n d := d.Room σ n
  room_le := Document.Room.le
  room_same := Document.Same.room
  room_apply := by
    intro c n x y hf h hr hy
    exact (Composite.chain_of_apply hf h hy).room (K := TargetedOp.calculus σ) hr
  symm := Document.Same.symm
  trans := Document.Same.trans
  apply_same := by
    intro c x x' y hf hxy hx
    have hc := Composite.chain_of_apply hf (Calculus.left (K := TargetedOp.calculus σ) hxy) hx
    obtain ⟨y', hy', hs⟩ := Composite.apply_of_chain (hc.congr_left hxy)
    exact ⟨y', hy', hs.symm⟩
  square := by
    intro s c x y z hs hc h hr hy hz
    obtain ⟨s', c', w, ht, ⟨hc', hkc⟩, hs', hks⟩ :=
      Composite.transform_chain (Composite.chain_of_apply hs h hy) (Composite.chain_of_apply hc h hz) hr
    obtain ⟨v, hv, hvw⟩ := hc'.applyAll
    obtain ⟨v', hv', hvw'⟩ := hs'.applyAll
    exact ⟨_, _, ht, ⟨hs'.fit, hks⟩, ⟨hc'.fit, hkc⟩, v, v', hv, hv', hvw.trans hvw'.symm⟩
  join := by
    intro a b x y z ho ha hb h hy hz
    have hac := Composite.chain_of_apply ha h hy
    obtain ⟨cs, hc, hcs, hk⟩ := Composite.compose_chain ho hac (Composite.chain_of_apply hb hac.right hz)
    obtain ⟨v, hv, hvz⟩ := hcs.applyAll
    exact ⟨_, hc, ⟨hcs.fit, hk⟩, v, hv, hvz⟩
  noop := by
    intro c x y hf hn h hy
    have hc := (Composite.chain_of_apply hf h hy).drop_noops
    have hnil : c.components.filter (fun t => !Operation.isNoop t) = [] := by
      rw [List.filter_eq_nil_iff]
      intro t ht
      have ht : Operation.isNoop t = true := List.all_eq_true.1 hn t ht
      simp [ht]
    rw [hnil] at hc
    exact hc

/-- What may be composed can be composed. -/
theorem Composite.joins_of_canCompose [Lengths] {σ : Schema} (a b : Composite) (h : Operation.canCompose a b = true) :
    (Composite.calculus σ).Joins a b :=
  eq_of_beq (α := Origin) h

/-! ## Edits of one text -/

def Document.holding (s : List Char) : Document := Document.empty.put ⟨"t"⟩ (.text s)

namespace Composite

def onText (e : TextEdit) : Composite := .ofComponents [⟨⟨"t"⟩, .text e⟩]

variable [L : Lengths] {e s c s' c' : TextEdit} {v w : List Char}

theorem apply_onText (h : e.apply v = .ok w) : (onText e).apply (.holding v) = .ok (.holding w) := by
  have hf : (Document.holding v).found ⟨⟨"t"⟩, .text e⟩ = .text v := by
    simp [Document.found, Document.holding, Document.get?_put]
  have hd : (Document.holding v).applyOne ⟨⟨"t"⟩, .text e⟩ = .ok (.holding w) := by
    refine Document.applyOne_eq_ok.2 ⟨.text w, ?_, Document.put_put.symm⟩
    rw [hf]
    exact map_eq_ok.2 ⟨w, h, rfl⟩
  exact Document.applyComponents_cons_eq_ok.2 ⟨_, hd, rfl⟩

theorem apply_onText_empty (h : e.apply [] = .ok w) : (onText e).apply .empty = .ok (.holding w) := by
  have hd : Document.empty.applyOne ⟨⟨"t"⟩, .text e⟩ = .ok (.holding w) :=
    Document.applyOne_eq_ok.2 ⟨.text w, map_eq_ok.2 ⟨w, h, rfl⟩, rfl⟩
  exact Document.applyComponents_cons_eq_ok.2 ⟨_, hd, rfl⟩

theorem apply_onText_error {fault : ApplyFault} (h : e.apply v = .error fault) :
    (onText e).apply (.holding v) = .error (.inObject ⟨"t"⟩ fault) := by
  have hf : (Document.holding v).found ⟨⟨"t"⟩, .text e⟩ = .text v := by
    simp [Document.found, Document.holding, Document.get?_put]
  have hd : (Document.holding v).applyOne ⟨⟨"t"⟩, .text e⟩ = .error (.inObject ⟨"t"⟩ fault) := by
    unfold Document.applyOne
    rw [hf]
    simp only [ObjectOp.apply, h, Except.map]
  show (Document.holding v).applyComponents [_] = _
  unfold Document.applyComponents
  rw [List.foldlM_cons, hd]
  rfl

theorem transform_onText (h : s.transform c = .ok (s', c')) (hs : s'.isNoop = false) (hc : c'.isNoop = false) :
    (onText s).transform (onText c) = .ok (onText s', onText c') := by
  have hop : (ObjectOp.text s).transform (.text c) = .ok (.text s', .text c') :=
    map_eq_ok.2 ⟨_, h, rfl⟩
  have hp : passes ⟨⟨"t"⟩, .text s⟩ ⟨⟨"t"⟩, .text c⟩ = false := by simp [passes, ObjectOp.isIndependent]
  simp [transform, transformComponents, transformOne, onText, ofComponents, hp, hop, dropNoops, ObjectOp.isNoop, hs, hc,
    Except.map]

theorem compose_onText_error {fault : ComposeFault} (h : s.compose c = .error fault) :
    (onText s).compose (onText c) = .error fault := by
  have hop : (ObjectOp.text s).compose (.text c) = .error fault := map_eq_error.2 h
  have hp : passes ⟨⟨"t"⟩, .text s⟩ ⟨⟨"t"⟩, .text c⟩ = false := by simp [passes, ObjectOp.isIndependent]
  simp [compose, onText, ofComponents, merge, mergeReversed, hp, hop, Except.map]

/-- Edits of one session are composed before they are sent. -/
theorem compact_onText_error {fault : ComposeFault} (h : s.compose c = .error fault) (user : UserId)
    (session : SessionId) :
    compact [(onText s).withOrigin user session, (onText c).withOrigin user session] = .error fault := by
  have hcan : Operation.canCompose ((onText s).withOrigin user session) ((onText c).withOrigin user session) = true := by
    show canCompose _ _ = true
    simp [canCompose, withOrigin]
  have hmerged : (onText c).components.foldlM merge (onText s).components = .error fault :=
    map_eq_error.1 (compose_onText_error h)
  have hcompose : Operation.compose ((onText s).withOrigin user session) ((onText c).withOrigin user session) =
      .error fault := by
    show compose _ _ = _
    rw [compose, if_neg (by simp [withOrigin])]
    exact map_eq_error.2 hmerged
  rw [compact, mergeLevels, mergeNeighbours, if_pos hcan, hcompose]
  rfl

end Composite
end Coedit
