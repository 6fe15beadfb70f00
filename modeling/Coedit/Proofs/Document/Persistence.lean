import Coedit.Proofs.Document.Targeted
import Coedit.Proofs.Wire.Object
import Coedit.Session.Basic

/-!
# Documents persist

A document is kept in two forms, as the list of its objects and as one edit that builds it from nothing.  The
edit says `null` for a key that is absent, so it can only build documents without `null` in a map; no other
documents can be reached.

* `Document.applyComponents_nullFree`, `Document.nullFree_of_read` — no `null` enters a map;
* `ObjectValue.applyAll_initialization` — the operations that create an object and fill it in;
* `Document.ofEntries_toEntries`, `Document.ofInitialization_toInitialization` — both forms give the document back;
* `Document.reached_persists` — this holds of every document that was read and has taken in composites since.
-/

namespace Coedit

/-! ## No null enters a map -/

theorem MapUpdate.write_nullFree {u : MapUpdate} {m : MapContent} (h : MapContent.NullFree m) :
    MapContent.NullFree (u.write m) := by
  intro key v hv
  rw [get?_write] at hv
  split at hv
  next =>
    unfold new? present? at hv
    split at hv
    next => cases hv
    next hn =>
      cases hv
      simpa using hn
  next => exact h key v hv

theorem ObjectValue.nullFree_emptyFor (op : ObjectOp) : (emptyFor op).NullFree := by
  cases op with
  | map u => exact fun _ _ h => nomatch h
  | _ => trivial

theorem ObjectOp.apply_nullFree {op : ObjectOp} {v w : ObjectValue} (hv : v.NullFree) (h : op.apply v = .ok w) :
    w.NullFree := by
  cases op with
  | map u =>
    cases v with
    | map m =>
      obtain ⟨n, hn, rfl⟩ := map_eq_ok.1 h
      obtain ⟨_, rfl⟩ := MapUpdate.apply_eq_ok.1 hn
      exact MapUpdate.write_nullFree hv
    | _ => cases h
  | text e =>
    cases v with
    | text s =>
      obtain ⟨t, _, rfl⟩ := map_eq_ok.1 h
      trivial
    | _ => cases h
  | list e =>
    cases v with
    | list l =>
      obtain ⟨m, _, rfl⟩ := map_eq_ok.1 h
      trivial
    | _ => cases h
  | reference s =>
    cases v with
    | reference r =>
      obtain ⟨r', _, rfl⟩ := map_eq_ok.1 h
      trivial
    | _ => cases h

namespace Document

variable {d d' : Document} {target : ObjectId} {v : ObjectValue}

def NullFree (d : Document) : Prop := ∀ target v, d.get? target = some v → v.NullFree

theorem nullFree_empty : NullFree empty := fun _ _ h => nomatch h

theorem NullFree.put (h : d.NullFree) (hv : v.NullFree) : (d.put target v).NullFree := by
  intro t w hw
  rw [get?_put] at hw
  split at hw
  next =>
    cases hw
    exact hv
  next => exact h t w hw

theorem applyOne_nullFree {c : TargetedOp} (h : d.NullFree) (hc : d.applyOne c = .ok d') : d'.NullFree := by
  obtain ⟨v, hv, rfl⟩ := applyOne_eq_ok.1 hc
  refine h.put (ObjectOp.apply_nullFree ?_ hv)
  unfold found
  cases hd : d.get? c.target with
  | none => exact ObjectValue.nullFree_emptyFor c.op
  | some w => exact h c.target w hd

theorem applyComponents_nullFree {cs : List TargetedOp} (h : d.NullFree) (hc : d.applyComponents cs = .ok d') :
    d'.NullFree := by
  induction cs generalizing d with
  | nil =>
    cases hc
    exact h
  | cons c cs ih =>
    obtain ⟨_, hd, hc⟩ := applyComponents_cons_eq_ok.1 hc
    exact ih (applyOne_nullFree h hd) hc

/-- The document after it has taken in composites, each as a whole or not at all. -/
def consumed (d : Document) (cs : List Composite) : Document := cs.foldl (fun d c => (Target.consume d c).2) d

theorem consumed_nullFree {cs : List Composite} (h : d.NullFree) : (d.consumed cs).NullFree := by
  induction cs generalizing d with
  | nil => exact h
  | cons c cs ih =>
    refine ih (d := (Target.consume d c).2) ?_
    simp only [Target.consume]
    split
    next d' hd => exact applyComponents_nullFree h hd
    next => exact h

theorem addEntries_nullFree {entries : List SnapshotEntry} (h : ∀ e ∈ entries, e.value.NullFree) :
    ∀ {d : Document}, d.NullFree → entries.foldlM addEntry d = .ok d' → d'.NullFree := by
  induction entries with
  | nil =>
    intro d hd he
    cases he
    exact hd
  | cons e entries ih =>
    intro d hd he
    rw [List.foldlM_cons, bind_eq_ok] at he
    obtain ⟨d₁, hd₁, he⟩ := he
    refine ih (fun e he => h e (List.mem_cons_of_mem _ he)) ?_ he
    unfold addEntry at hd₁
    split at hd₁
    next => cases hd₁
    next =>
      cases hd₁
      exact hd.put (h e (List.mem_cons_self ..))

theorem nullFree_of_mapM : ∀ {js : List Json} {entries : List SnapshotEntry},
    js.mapM SnapshotEntry.ofJson? = some entries → ∀ e ∈ entries, e.value.NullFree
  | [], _, h => by
    cases h
    exact nofun
  | j :: js, entries, h => by
    simp only [List.mapM_cons, Option.bind_eq_bind, Option.bind_eq_some_iff, Option.pure_def] at h
    obtain ⟨e, he, rest, hrest, h⟩ := h
    cases h
    intro e' he'
    rcases List.mem_cons.1 he' with rfl | he'
    · exact SnapshotEntry.nullFree_of_ofJson? he
    · exact nullFree_of_mapM hrest e' he'

/-- A document that was read from a list of entries. -/
theorem nullFree_of_read {j : Json} {entries : List SnapshotEntry} (hj : j.list? SnapshotEntry.ofJson? = some entries)
    (h : ofEntries entries = .ok d) : d.NullFree := by
  unfold Json.list? at hj
  split at hj
  next => exact addEntries_nullFree (nullFree_of_mapM hj) nullFree_empty h
  next => cases hj

end Document

/-! ## Building a table -/

namespace Table

variable {κ ν ε τ : Type} [Ord κ] [Std.TransOrd κ] [Std.LawfulEqOrd κ] {e : κ × ν}

theorem findEntry_of_mem {l : List (κ × ν)} (hl : Ascending l) (he : e ∈ l) : findEntry e.1 l = some e.2 := by
  induction l with
  | nil => cases he
  | cons x l ih =>
    obtain ⟨hx, hl⟩ := List.pairwise_cons.1 hl
    rcases List.mem_cons.1 he with rfl | he
    · simp [findEntry, Std.ReflCmp.compare_self]
    · have hgt : compare e.1 x.1 = .gt := Std.OrientedCmp.gt_iff_lt.2 (hx e he)
      simp [findEntry, hgt, ih hl he]

/-- What a table lists it holds. -/
theorem get?_of_mem {t : Table κ ν} (he : e ∈ t.entries) : t.get? e.1 = some e.2 := findEntry_of_mem t.ascending he

variable {g : Table κ ν → τ} {f : τ → κ × ν → Except ε τ} {P : ν → Prop}

/-- Steps that each insert an entry whose key is new insert ascending entries. -/
theorem foldlM_insert (hf : ∀ t e, t.get? e.1 = none → P e.2 → f (g t) e = .ok (g (t.insert e.1 e.2))) :
    ∀ {l : List (κ × ν)} {t : Table κ ν}, Ascending l → (∀ e ∈ l, t.get? e.1 = none) → (∀ e ∈ l, P e.2) →
      l.foldlM f (g t) = .ok (g (l.foldl (fun t e => t.insert e.1 e.2) t))
  | [], _, _, _, _ => rfl
  | e :: l, t, hl, ht, hP => by
    obtain ⟨he, hl⟩ := List.pairwise_cons.1 hl
    rw [List.foldlM_cons, bind_eq_ok]
    refine ⟨_, hf t e (ht e (List.mem_cons_self ..)) (hP e (List.mem_cons_self ..)), ?_⟩
    refine foldlM_insert hf hl (fun e' he' => ?_) fun e' he' => hP e' (List.mem_cons_of_mem _ he')
    -- the keys to come are greater than the one just inserted
    have hgt : compare e'.1 e.1 = .gt := Std.OrientedCmp.gt_iff_lt.2 (he e' he')
    rw [get?_insert, hgt]
    exact ht e' (List.mem_cons_of_mem _ he')

/-- Steps that each insert an entry whose key is new build a table from its entries. -/
theorem foldlM_entries (hf : ∀ t e, t.get? e.1 = none → P e.2 → f (g t) e = .ok (g (t.insert e.1 e.2)))
    {t : Table κ ν} (hP : ∀ k v, t.get? k = some v → P v) : t.entries.foldlM f (g .empty) = .ok (g t) := by
  have hl : t.entries.foldl (fun t e => t.insert e.1 e.2) .empty = t := t.ofList_entries
  rw [foldlM_insert hf t.ascending (fun _ _ => rfl) fun e he => hP e.1 e.2 (get?_of_mem he), hl]

end Table

/-! ## Building an object -/

/-- Operations of one kind do to objects of that kind what they do to their contents. -/
theorem IsKind.applyAll {ω τ ω' τ' : Type} [Operation ω τ] [Operation ω' τ'] {f : ω → ω'} {g : τ → τ'}
    (h : IsKind f g) : ∀ {ops : List ω} {x y : τ}, Operation.applyAll ops x = .ok y →
      Operation.applyAll (ops.map f) (g x) = .ok (g y)
  | [], _, _, ha => by
    cases ha
    rfl
  | op :: ops, x, y, ha => by
    obtain ⟨z, hz, ha⟩ := applyAll_cons_eq_ok.1 ha
    exact applyAll_cons_eq_ok.2 ⟨g z, by rw [h.apply_map, hz]; rfl, h.applyAll ha⟩

/-- Filling in a sequence from nothing. -/
theorem Edit.apply_insertAt_nil {α : Type} [Element α] (s : List α) : (insertAt 0 0 s).apply [] = .ok s := by
  cases s with
  | nil => rfl
  | cons a s => exact congrArg Except.ok (List.append_nil (a :: s))

/-- Setting a key that is absent. -/
theorem MapUpdate.apply_set {m : MapContent} {e : String × Value} (hm : m.get? e.1 = none) (hn : e.2.isNull = false) :
    (set e.1 e.2).apply m = .ok (m.insert e.1 e.2) := by
  refine apply_eq_ok.2 ⟨?_, ?_⟩
  · show (m.get? e.1 == none) = true
    rw [hm]
    rfl
  · simp [write, new?, present?, set, hn]

/-- Setting the keys of a map one after the other. -/
theorem MapContent.applyAll_set {m : MapContent} (h : NullFree m) :
    Operation.applyAll (m.entries.map fun e => MapUpdate.set e.1 e.2) .empty = .ok m := by
  unfold Operation.applyAll
  rw [List.foldlM_map]
  exact Table.foldlM_entries (g := id) (P := fun v : Value => v.isNull = false) (fun _ _ => MapUpdate.apply_set) h

namespace ObjectValue

variable {v : ObjectValue}

/-- An object in its empty state is what its creation makes and leaves. -/
theorem apply_creation (h : v.isEmpty = true) : v.creation.apply (.emptyFor v.creation) = .ok v := by
  cases v with
  | text s =>
    obtain rfl := List.isEmpty_iff.1 h
    rfl
  | list l =>
    obtain rfl := List.isEmpty_iff.1 h
    rfl
  | map m =>
    obtain rfl : m = .empty := Table.ext (List.isEmpty_iff.1 h)
    rfl
  | reference r =>
    obtain ⟨object, index, canBeDeleted⟩ := r
    obtain rfl : index = IndexReference.invalidated := by simpa [isEmpty, IndexReference.isInvalidated] using h
    simp [creation, emptyFor, ObjectOp.apply, Shift.apply, IndexReference.unset, Except.map]

/-- **Building an object.** Its initialization makes it out of the empty object of its first operation. -/
theorem applyAll_initialization (h : v.NullFree) :
    ∃ op ops, v.initialization = op :: ops ∧ Operation.applyAll (op :: ops) (.emptyFor op) = .ok v := by
  unfold initialization
  cases he : v.isEmpty with
  | true => exact ⟨_, _, rfl, applyAll_cons_eq_ok.2 ⟨v, apply_creation he, rfl⟩⟩
  | false =>
    cases v with
    | text s =>
      have hs : ObjectOp.apply (.text (.insertAt 0 0 s)) (text []) = .ok (text s) :=
        map_eq_ok.2 ⟨s, Edit.apply_insertAt_nil s, rfl⟩
      exact ⟨_, [], rfl, applyAll_cons_eq_ok.2 ⟨_, hs, rfl⟩⟩
    | list l =>
      have hl : ObjectOp.apply (.list (.insertAt 0 0 l)) (list []) = .ok (list l) :=
        map_eq_ok.2 ⟨l, Edit.apply_insertAt_nil l, rfl⟩
      exact ⟨_, [], rfl, applyAll_cons_eq_ok.2 ⟨_, hl, rfl⟩⟩
    | map m =>
      have hm := Shape.isKind_map.applyAll (MapContent.applyAll_set h)
      match hl : m.entries with
      | [] => simp [isEmpty, Table.isEmpty, hl] at he
      | e :: l =>
        rw [hl, List.map_map] at hm
        exact ⟨_, _, by simp [hl], hm⟩
    | reference r =>
      have hr : ObjectOp.apply (.reference ⟨r.object, IndexReference.invalidated, r.index, r.canBeDeleted⟩)
          (reference (.unset r.object r.canBeDeleted)) = .ok (reference r) :=
        map_eq_ok.2 ⟨r, Shift.apply_eq_ok.2 ⟨rfl, rfl, rfl⟩, rfl⟩
      exact ⟨_, [], rfl, applyAll_cons_eq_ok.2 ⟨_, hr, rfl⟩⟩

end ObjectValue

/-! ## Building a document -/

namespace Document

variable {d : Document} {target : ObjectId} {v w : ObjectValue} {op : ObjectOp} {ops : List ObjectOp}

/-- Operations on an object that is there. -/
theorem applyComponents_put (h : Operation.applyAll ops v = .ok w) :
    (d.put target v).applyComponents (ops.map (TargetedOp.mk target)) = .ok (d.put target w) := by
  induction ops generalizing v with
  | nil =>
    cases h
    rfl
  | cons op ops ih =>
    obtain ⟨u, hu, h⟩ := applyAll_cons_eq_ok.1 h
    have hf : (d.put target v).found ⟨target, op⟩ = v := by
      rw [found, get?_put, if_pos rfl, Option.getD_some]
    have hd : (d.put target v).applyOne ⟨target, op⟩ = .ok (d.put target u) :=
      applyOne_eq_ok.2 ⟨u, by rwa [hf], put_put.symm⟩
    exact applyComponents_cons_eq_ok.2 ⟨_, hd, ih h⟩

/-- Operations that create an object and go on with it. -/
theorem applyComponents_new (hd : d.get? target = none) (h : Operation.applyAll (op :: ops) (.emptyFor op) = .ok v) :
    d.applyComponents ((op :: ops).map (TargetedOp.mk target)) = .ok (d.put target v) := by
  obtain ⟨u, hu, h⟩ := applyAll_cons_eq_ok.1 h
  have hf : d.found ⟨target, op⟩ = .emptyFor op := by rw [found, hd, Option.getD_none]
  exact applyComponents_cons_eq_ok.2 ⟨_, applyOne_eq_ok.2 ⟨u, by rwa [hf], rfl⟩, applyComponents_put h⟩

theorem applyComponents_flatMap {α : Type} (f : α → List TargetedOp) (l : List α) (d : Document) :
    d.applyComponents (l.flatMap f) = l.foldlM (fun d a => d.applyComponents (f a)) d := by
  induction l generalizing d with
  | nil => rfl
  | cons a l ih =>
    rw [List.flatMap_cons, applyComponents, List.foldlM_append, List.foldlM_cons]
    exact congrArg (_ >>= ·) (funext ih)

/-! ## Both forms -/

/-- **The list of objects gives the document back.** -/
theorem ofEntries_toEntries (d : Document) : ofEntries d.toEntries = .ok d := by
  unfold ofEntries toEntries
  rw [List.foldlM_map]
  refine Table.foldlM_entries (g := Document.mk) (P := fun _ => True) (fun t e ht _ => ?_) fun _ _ _ => trivial
  simp [addEntry, Table.contains, ht]

/-- **The initialization gives the document back**, unless a map holds `null`. -/
theorem ofInitialization_toInitialization (h : d.NullFree) : ofInitialization d.toInitialization = .ok d := by
  show empty.applyComponents d.initialization = .ok d
  unfold initialization
  rw [applyComponents_flatMap]
  refine Table.foldlM_entries (g := Document.mk) (P := ObjectValue.NullFree) (fun t e ht hv => ?_) h
  obtain ⟨op, ops, hi, ha⟩ := ObjectValue.applyAll_initialization hv
  rw [hi]
  exact applyComponents_new ht ha

/-- What is written of the list of objects reads back, unless a map holds `null`. -/
theorem list?_toEntries (h : d.NullFree) :
    (Json.arr (d.toEntries.map SnapshotEntry.toJson)).list? SnapshotEntry.ofJson? = some d.toEntries := by
  refine Json.list?_arr_map fun e he => SnapshotEntry.ofJson?_toJson ?_
  obtain ⟨x, hx, rfl⟩ := List.mem_map.1 he
  exact h x.1 x.2 (Table.get?_of_mem hx)

/-- **Documents persist.** A document that was read from a list of entries and has taken in any composites since
holds no `null` in a map; its initialization builds it; and its written entries read back and give it. -/
theorem reached_persists {j : Json} {entries : List SnapshotEntry} {d₀ : Document} (cs : List Composite)
    (hj : j.list? SnapshotEntry.ofJson? = some entries) (hd : ofEntries entries = .ok d₀) :
    (∀ target m, (d₀.consumed cs).get? target = some (.map m) → ∀ key v, m.get? key = some v → v.isNull = false) ∧
    ofInitialization (d₀.consumed cs).toInitialization = .ok (d₀.consumed cs) ∧
    ∃ written, (Json.arr ((d₀.consumed cs).toEntries.map SnapshotEntry.toJson)).list? SnapshotEntry.ofJson? = some written ∧
      ofEntries written = .ok (d₀.consumed cs) := by
  have h : (d₀.consumed cs).NullFree := consumed_nullFree (nullFree_of_read hj hd)
  exact ⟨fun target m => h target (.map m), ofInitialization_toInitialization h, _, list?_toEntries h,
    ofEntries_toEntries _⟩

/-- A map with one key beside a `null`, a reference that points nowhere and an empty text, as written. -/
def blankJson : Json :=
  .arr [.arr [.str "flags", .str "map", .obj [("", .null), ("b", .int 1)]],
    .arr [.str "cursor", .str "ref", .arr [.str "body", .int (-1), .bool true]],
    .arr [.str "body", .str "text", .str ""]]

/-- What is read of them. -/
def blankEntries : List SnapshotEntry :=
  [⟨⟨"flags"⟩, .map ⟨[("b", ⟨.int 1, trivial⟩)], List.pairwise_singleton ..⟩⟩,
    ⟨⟨"cursor"⟩, .reference (.unset ⟨"body"⟩ true)⟩, ⟨⟨"body"⟩, .text []⟩]

/-- Removes the key; made once more it is refused. -/
def clearFlag : Composite := .ofComponents [⟨⟨"flags"⟩, .map ⟨"b", ⟨.int 1, trivial⟩, .null⟩⟩]

theorem reached_persists_blank :
    ∃ d₀, blankJson.list? SnapshotEntry.ofJson? = some blankEntries ∧ ofEntries blankEntries = .ok d₀ ∧
      (d₀.consumed [clearFlag, clearFlag]).get? ⟨"flags"⟩ = some (.map .empty) ∧
      ofInitialization (d₀.consumed [clearFlag, clearFlag]).toInitialization
        = .ok (d₀.consumed [clearFlag, clearFlag]) := by
  have hj : blankJson.list? SnapshotEntry.ofJson? = some blankEntries := rfl
  have hd : ∃ d₀, ofEntries blankEntries = .ok d₀ ∧
      (d₀.consumed [clearFlag, clearFlag]).get? ⟨"flags"⟩ = some (.map .empty) := by
    refine ⟨_, rfl, ?_⟩
    rfl
  obtain ⟨d₀, hd, hf⟩ := hd
  exact ⟨d₀, hj, hd, hf, (reached_persists [clearFlag, clearFlag] hj hd).2.1⟩

end Document
end Coedit
