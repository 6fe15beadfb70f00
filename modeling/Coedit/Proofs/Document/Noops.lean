import Coedit.Proofs.Document.Agreement
import Coedit.Proofs.Document.Projection

/-!
# Edits that change nothing

Whether an edit changes nothing is read off its operations alone, while applying it also creates the objects that
it addresses and that are not there yet.  So an edit without shifts that claims to change nothing has one effect,
which is to create objects in their empty state, and a document in which such edits were left out may lack some of
these, but takes every operation that the other takes.

* `ObjectValue.Kept` — an object that no operation changed;
* `Composite.OnlyCreates` — what an edit that changes nothing does to a document;
* `Document.Padded` — the documents agree but for empty objects that the first one lacks;
* `Composite.noops_only_create` — no-ops only create, and leaving them out loses nothing else.
-/

namespace Coedit

open Composite (opsOn dropNoops)

/-! ## One object -/

/-- The object after operations that change nothing: the same one, but for values of a map that were replaced by
equal ones. -/
def ObjectValue.Kept (ops : List ObjectOp) : ObjectValue → ObjectValue → Prop
  | .map m, .map n => MapContent.Alike m n ∧
      ∀ k, n.get? k = m.get? k ∨ ∃ u, ObjectOp.map u ∈ ops ∧ u.key = k ∧ n.get? k = u.new?
  | v, w => v = w

namespace ObjectValue

variable {ops : List ObjectOp} {op : ObjectOp} {v w x : ObjectValue}

theorem Kept.refl (v : ObjectValue) : v.Kept ops v := by
  cases v with
  | map m => exact ⟨fun _ => BEq.rfl, fun _ => .inl rfl⟩
  | _ => exact rfl

/-- Only maps are kept otherwise than as they are. -/
theorem kept_cases (h : v.Kept ops w) : v = w ∨ ∃ m n, v = .map m ∧ w = .map n := by
  cases v <;> cases w <;> first | exact .inl h | exact .inr ⟨_, _, rfl, rfl⟩

theorem Kept.alike (h : v.Kept ops w) : v.Alike w := by
  obtain rfl | ⟨m, n, rfl, rfl⟩ := kept_cases h
  · exact .refl v
  · exact h.1

theorem Kept.trans (h : v.Kept ops w) (h' : w.Kept ops x) : v.Kept ops x := by
  obtain rfl | ⟨m, n, rfl, rfl⟩ := kept_cases h
  · exact h'
  · obtain rfl | ⟨_, p, hn, rfl⟩ := kept_cases h'
    · exact h
    · cases hn
      refine ⟨fun k => BEq.trans (h.1 k) (h'.1 k), fun k => ?_⟩
      -- the later write of a key is the one that shows
      rcases h'.2 k with hk | hk
      · rw [hk]
        exact h.2 k
      · exact .inr hk

/-- An empty object that is kept is the same one. -/
theorem Kept.of_emptyFor (h : (emptyFor op).Kept ops w) (hr : op.kind ≠ .reference) : w = .emptyFor op := by
  obtain hw | ⟨m, n, hm, rfl⟩ := kept_cases h
  · exact hw.symm
  · cases op with
    | map u =>
      have hn : n = .empty := Table.ext_get? fun k => by
        have hk : ((Table.empty : MapContent).get? k == n.get? k) = true := h.1 k
        rw [Table.get?_empty] at hk ⊢
        cases hg : n.get? k with
        | none => rfl
        | some a =>
          rw [hg] at hk
          cases hk
      rw [hn]
      rfl
    | _ => cases hm

end ObjectValue

/-- An operation that changes nothing keeps the object that it applies to. -/
theorem ObjectOp.apply_kept {ops : List ObjectOp} {op : ObjectOp} {v w : ObjectValue} (hop : op ∈ ops)
    (hn : op.isNoop = true) (hr : op.kind ≠ .reference) (h : op.apply v = .ok w) : v.Kept ops w := by
  cases op with
  | text e =>
    cases v with
    | text s =>
      obtain ⟨t, ht, rfl⟩ := map_eq_ok.1 h
      exact congrArg ObjectValue.text (Edit.eq_of_isNoop trivial hn ht)
    | _ => cases h
  | list e =>
    cases v with
    | list l =>
      obtain ⟨m, hm, rfl⟩ := map_eq_ok.1 h
      exact congrArg ObjectValue.list (Edit.eq_of_isNoop trivial hn hm)
    | _ => cases h
  | map u =>
    cases v with
    | map m =>
      obtain ⟨n, hm, rfl⟩ := map_eq_ok.1 h
      refine ⟨MapUpdate.alike_of_isNoop hn hm, fun k => ?_⟩
      obtain ⟨_, rfl⟩ := MapUpdate.apply_eq_ok.1 hm
      by_cases hk : k = u.key
      · exact .inr ⟨u, hop, hk.symm, by rw [hk, MapUpdate.get?_write_self]⟩
      · exact .inl (MapUpdate.get?_write_of_ne hk m)
    | _ => cases h
  | reference s => exact absurd rfl hr

/-- Operations that change nothing keep an object that is there. -/
theorem ObjectOp.applyOn_some_kept {all : List ObjectOp} : ∀ {ops : List ObjectOp} {v : ObjectValue}
    {w? : Option ObjectValue}, (∀ op ∈ ops, op ∈ all ∧ op.isNoop = true ∧ op.kind ≠ .reference) →
    applyOn (some v) ops = .ok w? → ∃ w, w? = some w ∧ v.Kept all w
  | [], v, _, _, h => by
    cases h
    exact ⟨v, rfl, .refl v⟩
  | op :: ops, v, w?, hops, h => by
    obtain ⟨hop, hrest⟩ := List.forall_mem_cons.1 hops
    obtain ⟨v', hv, h⟩ := applyOn_cons_eq_ok.1 h
    obtain ⟨w, hw, hk⟩ := applyOn_some_kept hrest h
    exact ⟨w, hw, (apply_kept hop.1 hop.2.1 hop.2.2 hv).trans hk⟩

/-- Operations that change nothing create an object that is not there, as the first of them does. -/
theorem ObjectOp.applyOn_none_created {ops : List ObjectOp} {w? : Option ObjectValue}
    (hops : ∀ op ∈ ops, op.isNoop = true ∧ op.kind ≠ .reference) (h : applyOn none ops = .ok w?) :
    w? = ops.head?.map .emptyFor := by
  cases ops with
  | nil =>
    cases h
    rfl
  | cons op rest =>
    obtain ⟨v, hv, h⟩ := applyOn_cons_eq_ok.1 h
    have hself : op ∈ op :: rest := List.mem_cons_self
    have hop := hops op hself
    have hv := apply_kept hself hop.1 hop.2 hv
    obtain ⟨w, rfl, hw⟩ := applyOn_some_kept
      (fun o ho => ⟨List.mem_cons_of_mem op ho, hops o (List.mem_cons_of_mem op ho)⟩) h
    exact congrArg some ((hv.trans hw).of_emptyFor hop.2)

/-! ## Edits -/

namespace Composite

def ShiftFree (c : Composite) : Prop := ∀ t ∈ c.components, t.op.kind ≠ .reference

/-- What an edit that changes nothing does to a document. -/
structure OnlyCreates (c : Composite) (d x : Document) : Prop where
  /-- Every object that is there is kept. -/
  kept : ∀ target v, d.get? target = some v → ∃ w, x.get? target = some w ∧ v.Kept (opsOn target c.components) w
  /-- An object that is not there is created empty by the first operation on it, if there is one. -/
  created : ∀ target, d.get? target = none → x.get? target = (opsOn target c.components).head?.map .emptyFor

variable {c : Composite} {d x : Document}

theorem onlyCreates_of_apply (hs : c.ShiftFree) (hn : c.isNoop = true) (h : c.apply d = .ok x) :
    c.OnlyCreates d x := by
  have hops : ∀ target, ∀ op ∈ opsOn target c.components, op.isNoop = true ∧ op.kind ≠ .reference := by
    intro target op hop
    obtain ⟨t, ht, rfl⟩ := mem_opsOn hop
    exact ⟨List.all_eq_true.1 hn t ht, hs t ht⟩
  constructor
  · intro target v hv
    have hx := Document.get?_of_applyComponents h target
    rw [hv] at hx
    exact ObjectOp.applyOn_some_kept (fun op hop => ⟨hop, hops target op hop⟩) hx
  · intro target hv
    have hx := Document.get?_of_applyComponents h target
    rw [hv] at hx
    exact ObjectOp.applyOn_none_created (hops target) hx

end Composite

/-! ## Documents that lack empty objects -/

/-- What a document that may lack empty texts, lists and maps has in place of an object. -/
inductive ObjectValue.Padded : Option ObjectValue → Option ObjectValue → Prop where
  | alike {v w : ObjectValue} : v.Alike w → Padded (some v) (some w)
  | lacking {w : ObjectValue} : w.isEmpty = true → w.kind ≠ .reference → Padded none (some w)
  | absent : Padded none none

/-- The objects of the first document are those of the second, which may have empty texts, lists and maps besides. -/
def Document.Padded (d e : Document) : Prop := ∀ target, ObjectValue.Padded (d.get? target) (e.get? target)

section object
variable {op : ObjectOp} {v w y : ObjectValue} {v? w? : Option ObjectValue}

@[simp] theorem ObjectValue.kind_emptyFor (op : ObjectOp) : (emptyFor op).kind = op.kind := by
  cases op <;> rfl

@[simp] theorem ObjectValue.isEmpty_emptyFor (op : ObjectOp) : (emptyFor op).isEmpty = true := by
  cases op <;> rfl

/-- An empty object is the one that an operation on it would create. -/
theorem ObjectOp.eq_emptyFor (he : w.isEmpty = true) (hr : w.kind ≠ .reference) (h : op.apply w = .ok y) :
    w = .emptyFor op := by
  cases w with
  | text s =>
    cases op with
    | text e => exact congrArg _ (List.isEmpty_iff.1 he)
    | _ => cases h
  | list l =>
    cases op with
    | list e => exact congrArg _ (List.isEmpty_iff.1 he)
    | _ => cases h
  | map m =>
    cases op with
    | map u =>
      obtain ⟨entries, hm⟩ := m
      obtain rfl : entries = [] := List.isEmpty_iff.1 he
      rfl
    | _ => cases h
  | reference r => exact absurd rfl hr

/-- What is lacking is found all the same, since an operation creates what it does not find. -/
theorem ObjectValue.Padded.found (h : Padded v? w?) (hy : op.apply (w?.getD (.emptyFor op)) = .ok y) :
    (v?.getD (.emptyFor op)).Alike (w?.getD (.emptyFor op)) := by
  cases h with
  | alike h => exact h
  | lacking he hr =>
    have hw := ObjectOp.eq_emptyFor he hr hy
    exact hw ▸ .refl _
  | absent => exact .refl _

/-- What an operation that changes nothing leaves need not be there unless it was there before. -/
theorem ObjectValue.Padded.noop (h : Padded v? w?) (hn : op.isNoop = true) (hr : op.kind ≠ .reference)
    (hy : op.apply (w?.getD (.emptyFor op)) = .ok y) : Padded v? (some y) := by
  have hk := ObjectOp.apply_kept (List.mem_singleton.2 rfl) hn hr hy
  have hempty : (emptyFor op).Kept [op] y → Padded none (some y) := fun hk => by
    rw [hk.of_emptyFor hr]
    exact .lacking (isEmpty_emptyFor op) (by rwa [kind_emptyFor])
  cases h with
  | alike h => exact .alike (h.trans hk.alike)
  | lacking he hr' =>
    have hw := ObjectOp.eq_emptyFor he hr' hy
    exact hempty (hw ▸ hk)
  | absent => exact hempty hk

end object

namespace Document

variable {d e y : Document} {c : TargetedOp} {cs : List TargetedOp}

theorem Padded.refl (d : Document) : d.Padded d := by
  intro target
  cases d.get? target with
  | none => exact .absent
  | some v => exact .alike (.refl v)

/-- Documents agree where one lacks no more than empty objects. -/
theorem Padded.agree (h : d.Padded e) : d.Agree e := by
  intro target
  have h := h target
  cases hd : d.get? target with
  | none =>
    cases he : e.get? target with
    | none => trivial
    | some w =>
      rw [hd, he] at h
      cases h with
      | lacking hw _ => exact hw
  | some v =>
    cases he : e.get? target with
    | none =>
      rw [hd, he] at h
      cases h
    | some w =>
      rw [hd, he] at h
      cases h with
      | alike h => exact h

/-- The document that lacks empty objects takes every operation that the other takes. -/
theorem Padded.applyOne (h : d.Padded e) (hy : e.applyOne c = .ok y) : ∃ x, d.applyOne c = .ok x ∧ x.Padded y := by
  obtain ⟨w, hw, rfl⟩ := applyOne_eq_ok.1 hy
  obtain ⟨v, hv, hwv⟩ := ((h c.target).found hw).symm.apply hw
  refine ⟨d.put c.target v, applyOne_eq_ok.2 ⟨v, hv, rfl⟩, fun target => ?_⟩
  rw [get?_put, get?_put]
  split
  next => exact .alike hwv.symm
  next => exact h target

/-- An operation that changes nothing may be left out. -/
theorem Padded.applyOne_noop (h : d.Padded e) (hn : c.op.isNoop = true) (hr : c.op.kind ≠ .reference)
    (hy : e.applyOne c = .ok y) : d.Padded y := by
  obtain ⟨w, hw, rfl⟩ := applyOne_eq_ok.1 hy
  intro target
  rw [get?_put]
  split
  next ht =>
    rw [ht]
    exact (h c.target).noop hn hr hw
  next => exact h target

/-- Of operations that apply in turn those may be left out that leave nothing but empty objects behind. -/
theorem Padded.applyAll {ω : Type} [Operation ω Document] {p : ω → Bool}
    (step : ∀ {op : ω} {d e y : Document}, d.Padded e → Operation.apply op e = .ok y →
      ∃ x, Operation.apply op d = .ok x ∧ x.Padded y) : ∀ {ops : List ω} {d e y : Document},
    (∀ op ∈ ops, p op = false → ∀ d e y : Document, d.Padded e → Operation.apply op e = .ok y → d.Padded y) →
      d.Padded e → Operation.applyAll ops e = .ok y →
        ∃ x, Operation.applyAll (ops.filter p) d = .ok x ∧ x.Padded y
  | [], d, _, _, _, h, hy => by
    cases hy
    exact ⟨d, rfl, h⟩
  | op :: ops, d, e, y, hdrop, h, hy => by
    obtain ⟨e', he, hy⟩ := applyAll_cons_eq_ok.1 hy
    obtain ⟨hop, hops⟩ := List.forall_mem_cons.1 hdrop
    cases hp : p op with
    | false =>
      rw [List.filter_cons_of_neg (by simp [hp])]
      exact applyAll step hops (hop hp d e e' h he) hy
    | true =>
      rw [List.filter_cons_of_pos hp]
      obtain ⟨d', hd, h⟩ := step h he
      obtain ⟨x, hx, hxy⟩ := applyAll step hops h hy
      exact ⟨x, applyAll_cons_eq_ok.2 ⟨d', hd, hx⟩, hxy⟩

theorem Padded.applyComponents (h : d.Padded e) (hy : e.applyComponents cs = .ok y) :
    ∃ x, d.applyComponents cs = .ok x ∧ x.Padded y := by
  have hx := Padded.applyAll (p := fun _ : TargetedOp => true) (fun h he => h.applyOne he) (fun _ _ hf => by cases hf)
    h hy
  rwa [List.filter_true] at hx

/-- Components that change nothing may all be left out. -/
theorem Padded.applyComponents_noops (hn : ∀ t ∈ cs, t.op.isNoop = true ∧ t.op.kind ≠ .reference) (h : d.Padded e)
    (hy : e.applyComponents cs = .ok y) : d.Padded y := by
  obtain ⟨x, hx, hxy⟩ := Padded.applyAll (p := fun _ : TargetedOp => false) (fun h he => h.applyOne he)
    (fun t ht _ _ _ _ h he => h.applyOne_noop (hn t ht).1 (hn t ht).2 he) h hy
  rw [List.filter_false] at hx
  cases hx
  exact hxy

end Document

/-! ## Leaving out -/

namespace Composite

/-- **No-ops only create.** An edit of texts, lists and maps that changes nothing by its own account keeps every
object that is there, and creates its other targets empty.  So where such components are left out, as composing and
transforming do, or such edits, as compaction does, what is left applies, and all that its result may lack are empty
objects. -/
theorem noops_only_create :
    (∀ (c : Composite) (d x : Document), c.ShiftFree → c.isNoop = true → c.apply d = .ok x → c.OnlyCreates d x) ∧
      (∀ (cs : List TargetedOp) (d y : Document), (∀ t ∈ cs, t.op.isNoop = true → t.op.kind ≠ .reference) →
        d.applyComponents cs = .ok y → ∃ x, d.applyComponents (dropNoops cs) = .ok x ∧ x.Padded y) ∧
      ∀ (ops : List Composite) (d y : Document), (∀ c ∈ ops, c.isNoop = true → c.ShiftFree) →
        Operation.applyAll ops d = .ok y →
          ∃ x, Operation.applyAll (ops.filter fun c => !Operation.isNoop c) d = .ok x ∧ x.Padded y := by
  refine ⟨fun c d x hs hn h => onlyCreates_of_apply hs hn h, fun cs d y hs hy => ?_, fun ops d y hs hy => ?_⟩
  · refine Document.Padded.applyAll (fun h he => h.applyOne he) (fun t ht hn d e y h he => ?_) (.refl d) hy
    have hn : t.op.isNoop = true := by simpa using hn
    exact h.applyOne_noop hn (hs t ht hn) he
  · refine Document.Padded.applyAll (fun h he => h.applyComponents he) (fun c hc hn d e y h he => ?_) (.refl d) hy
    have hn : Operation.isNoop c = true := by simpa using hn
    exact h.applyComponents_noops (fun t ht => ⟨List.all_eq_true.1 hn t ht, hs c hc hn t ht⟩) he

def holding (v : Value) : Document := Document.empty.put ⟨"m"⟩ (.map (Table.empty.insert "k" v))

def zero : Value := ⟨.float .zero, trivial⟩

def negativeZero : Value := ⟨.float (.withSign .zero true), trivial⟩

/-- Starts a text and writes a value over an equal one. -/
def touch : Composite :=
  .ofComponents [⟨⟨"t"⟩, (ObjectValue.text []).creation⟩, ⟨⟨"m"⟩, .map ⟨"k", zero, negativeZero⟩⟩]

def typing : Composite := .ofComponents [⟨⟨"t"⟩, .text (.insertAt 0 0 ['a'])⟩]

theorem noops_only_create_touch : ∃ x y, (touch.ShiftFree ∧ touch.isNoop = true ∧ touch.apply (holding zero) = .ok x ∧
      touch.OnlyCreates (holding zero) x) ∧
    (holding zero).applyComponents (touch.components ++ typing.components) = .ok y ∧
    (∃ z, (holding zero).applyComponents (dropNoops (touch.components ++ typing.components)) = .ok z ∧ z.Padded y) ∧
    Operation.applyAll [touch, typing] (holding zero) = .ok y ∧
    ∃ z, Operation.applyAll ([touch, typing].filter fun c => !Operation.isNoop c) (holding zero) = .ok z ∧
      z.Padded y := by
  have hs : touch.ShiftFree := by simp [ShiftFree, touch, ofComponents, ObjectOp.kind, ObjectValue.creation]
  have ht : typing.ShiftFree := by simp [ShiftFree, typing, ofComponents, ObjectOp.kind]
  obtain ⟨hone, hcomponents, hedits⟩ := noops_only_create
  refine ⟨_, _, ⟨hs, rfl, rfl, hone touch (holding zero) _ hs rfl rfl⟩, rfl, hcomponents _ (holding zero) _ ?_ rfl, rfl,
    hedits [touch, typing] (holding zero) _ ?_ rfl⟩
  · intro t h _
    exact (List.mem_append.1 h).elim (hs t) (ht t)
  · simp [hs, ht]

/-- Creating an object changes the document, and where no object is created a map may come to hold the other of two
equal values. -/
theorem not_unchanged_by_noop :
    (¬ ∀ (c : Composite) (d x : Document), c.ShiftFree → c.isNoop = true → c.apply d = .ok x → x = d) ∧
      ¬ ∀ (c : Composite) (d x : Document), c.ShiftFree → c.isNoop = true → c.apply d = .ok x →
        (∀ t ∈ c.components, d.get? t.target ≠ none) → x = d := by
  constructor
  · intro h
    have hs : ShiftFree (ofComponents [⟨⟨"t"⟩, (ObjectValue.text []).creation⟩]) := by
      simp [ShiftFree, ofComponents, ObjectOp.kind, ObjectValue.creation]
    have hx : Document.empty.get? ⟨"t"⟩ = some (.text []) := by
      rw [← h _ .empty (Document.empty.put ⟨"t"⟩ (.text [])) hs rfl rfl, Document.get?_put, if_pos rfl]
    cases hx
  · intro h
    have hs : ShiftFree (ofComponents [⟨⟨"m"⟩, .map ⟨"k", zero, negativeZero⟩⟩]) := by
      simp [ShiftFree, ofComponents, ObjectOp.kind]
    have hx := h _ (holding zero) (holding negativeZero) hs rfl rfl (by simp [ofComponents, holding, Document.get?_put])
    cases hx

end Composite
end Coedit
