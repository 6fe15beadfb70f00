import Coedit.Proofs.Wire.Object
import Coedit.Wire.Message

/-!
# Written composites and messages read back

Writing fails for one reason only, a revision beyond the signed 64-bit integers; a message fails with any of its
deltas.  What is written reads back as it was, and since no such revision is ever read, whatever reads as a
composite can be written again.

* `Composite.isSome_toJson?_iff` — when a composite can be written;
* `Composite.ofJson?_of_toJson?`, `DeltaMessage.ofJson?_of_toJson?`, `DeltaRequest.ofJson?_of_toJson?` — what is
  written reads back;
* `Wire.reads_back` — the round trips together.
-/

namespace Coedit

section option
variable {α β : Type}

theorem isSome_mapM_iff {f : α → Option β} : ∀ {l : List α}, (l.mapM f).isSome = true ↔ ∀ a ∈ l, (f a).isSome = true
  | [] => by simp
  | a :: l => by
    have ih := isSome_mapM_iff (f := f) (l := l)
    cases ha : f a with
    | none => simp [ha]
    | some b =>
      cases hl : l.mapM f with
      | none => simpa [ha, hl] using ih
      | some bs => simpa [ha, hl] using ih

end option

/-- A written optional name reads back. -/
theorem Json.optional?_str {α : Type} {mk : String → α} {text : α → String} (h : ∀ a, mk (text a) = a) (x : Option α) :
    ((x.map fun a => Json.str (text a)).getD .null).optional? (fun j => j.str?.map mk) = some x := by
  cases x with
  | none => rfl
  | some a => simp [optional?, str?, h]

/-! ## Composites -/

namespace Composite

variable {c : Composite} {j : Json}

/-- All lengths that the operations retain are 64-bit numbers. -/
def InRange (c : Composite) : Prop := ∀ t ∈ c.components, t.op.InRange

/-- The revision, if there is one, is a signed 64-bit integer. -/
def Writable (c : Composite) : Prop := ∀ r, c.revision = some r → r ≤ Int64.maxValue.toInt

theorem revisionOfJson?_of_revisionJson? {r : Option Nat} (h : revisionJson? r = some j) :
    revisionOfJson? j = some r := by
  unfold revisionJson? at h
  split at h
  next =>
    cases h
    rfl
  next r =>
    split at h
    next hr =>
      cases h
      have hne : ¬ (r : Int) = -1 := by omega
      have hr : 0 ≤ (r : Int) ∧ (r : Int) ≤ Int64.maxValue.toInt := ⟨Int.natCast_nonneg r, hr⟩
      simp only [revisionOfJson?, if_neg hne, if_pos hr, Int.toNat_natCast]
    next => cases h

theorem revision_le_of_revisionOfJson? {r : Nat} (h : revisionOfJson? j = some (some r)) :
    r ≤ Int64.maxValue.toInt := by
  unfold revisionOfJson? at h
  split at h
  next => cases h
  next n =>
    split at h
    next => cases h
    next =>
      split at h
      next hn =>
        cases h
        rw [Int.toNat_of_nonneg hn.1]
        exact hn.2
      next => cases h
  next => cases h

/-- A composite can be written exactly if its revision fits. -/
theorem isSome_toJson?_iff : c.toJson?.isSome = true ↔ c.Writable := by
  rw [toJson?, Option.isSome_map, Writable]
  cases h : c.revision with
  | none => simp [revisionJson?]
  | some r => simp [revisionJson?]

/-- What is written of a composite reads back. -/
theorem ofJson?_of_toJson? (h : c.InRange) (hj : c.toJson? = some j) : ofJson? j = some c := by
  obtain ⟨revision, hr, rfl⟩ := Option.map_eq_some_iff.1 hj
  have hc : (Json.arr (c.components.map TargetedOp.toJson)).list? TargetedOp.ofJson? = some c.components :=
    Json.list?_arr_map fun t ht => TargetedOp.ofJson?_toJson (h t ht)
  have hu := Json.optional?_str (fun u : UserId => (rfl : UserId.mk u.text = u)) c.origin.user
  have hs := Json.optional?_str (fun s : SessionId => (rfl : SessionId.mk s.text = s)) c.origin.session
  simp only [ofJson?, hc, hu, hs, revisionOfJson?_of_revisionJson? hr, Option.bind_eq_bind, Option.bind_some,
    Option.pure_def]

theorem writable_of_ofJson? (h : ofJson? j = some c) : c.Writable := by
  unfold ofJson? at h
  split at h
  next components user revision session =>
    simp only [Option.bind_eq_bind, Option.bind_eq_some_iff, Option.pure_def] at h
    obtain ⟨_, _, _, _, r, hr, _, _, h⟩ := h
    cases h
    rintro r rfl
    exact revision_le_of_revisionOfJson? hr
  next => cases h

end Composite

/-! ## Messages -/

section messages
variable {deltas : List Composite} {js : List Json} {j : Json}

theorem list?_composites (h : ∀ c ∈ deltas, c.InRange) (hj : deltas.mapM Composite.toJson? = some js) :
    (Json.arr js).list? Composite.ofJson? = some deltas :=
  Json.list?_of_mapM (fun c hc _ => Composite.ofJson?_of_toJson? (h c hc)) hj

theorem isSome_mapM_composites_iff :
    (deltas.mapM Composite.toJson?).isSome = true ↔ ∀ c ∈ deltas, c.Writable := by
  simp only [isSome_mapM_iff, Composite.isSome_toJson?_iff]

theorem DeltaMessage.isSome_toJson?_iff {m : DeltaMessage} :
    m.toJson?.isSome = true ↔ ∀ c ∈ m.deltas, c.Writable := by
  rw [toJson?, Option.isSome_map, isSome_mapM_composites_iff]

theorem DeltaRequest.isSome_toJson?_iff {r : DeltaRequest} :
    r.toJson?.isSome = true ↔ ∀ c ∈ r.deltas, c.Writable := by
  rw [toJson?, Option.isSome_map, isSome_mapM_composites_iff]

theorem DeltaMessage.ofJson?_obj {session user : String} {revision body : Json} {r : Nat}
    (hr : revision.word? = some r) (hd : body.list? Composite.ofJson? = some deltas) :
    ofJson? (.obj [("sessionId", .str session), ("userId", .str user), ("revision", revision), ("deltas", body)])
      = some ⟨⟨session⟩, ⟨user⟩, r, deltas⟩ := by
  simp [ofJson?, Json.record?, Json.atMostOne?, Json.named, Json.required?, Json.str?, hr, hd]

theorem DeltaRequest.ofJson?_obj {document session : String} {revision body : Json} {r : Nat}
    (hr : revision.word? = some r) (hd : body.list? Composite.ofJson? = some deltas) :
    ofJson? (.obj [("id", .str document), ("sessionId", .str session), ("revision", revision), ("deltas", body)])
      = some ⟨⟨document⟩, ⟨session⟩, r, deltas⟩ := by
  simp [ofJson?, Json.record?, Json.atMostOne?, Json.named, Json.required?, Json.str?, hr, hd]

/-- What is written of a broadcast reads back. -/
theorem DeltaMessage.ofJson?_of_toJson? {m : DeltaMessage} (hr : m.revision < UInt64.size)
    (h : ∀ c ∈ m.deltas, c.InRange) (hj : m.toJson? = some j) : ofJson? j = some m := by
  obtain ⟨js, hjs, rfl⟩ := Option.map_eq_some_iff.1 hj
  exact ofJson?_obj (Json.word?_int hr) (list?_composites h hjs)

/-- What is written of a submission reads back. -/
theorem DeltaRequest.ofJson?_of_toJson? {r : DeltaRequest} (hr : r.revision < UInt64.size)
    (h : ∀ c ∈ r.deltas, c.InRange) (hj : r.toJson? = some j) : ofJson? j = some r := by
  obtain ⟨js, hjs, rfl⟩ := Option.map_eq_some_iff.1 hj
  exact ofJson?_obj (Json.word?_int hr) (list?_composites h hjs)

end messages

/-! ## The round trips -/

namespace Wire

variable {α : Type} {toJson? : α → Option Json} {ofJson? : Json → Option α} {x : α} {writable : Prop}

/-- Exactly if `writable`, the value `x` can be written, and what is written reads back as `x`. -/
def ReadsBack (toJson? : α → Option Json) (ofJson? : Json → Option α) (writable : Prop) (x : α) : Prop :=
  (writable → ∃ j, toJson? x = some j ∧ ofJson? j = some x) ∧ (¬ writable → toJson? x = none)

theorem readsBack_of (hw : (toJson? x).isSome = true ↔ writable)
    (h : ∀ j, toJson? x = some j → ofJson? j = some x) : ReadsBack toJson? ofJson? writable x := by
  constructor
  · intro hx
    obtain ⟨j, hj⟩ := Option.isSome_iff_exists.1 (hw.2 hx)
    exact ⟨j, hj, h j hj⟩
  · intro hx
    rwa [← hw, Option.not_isSome_iff_eq_none] at hx

/-- **Round trips.** Composites, broadcasts and submissions can be written exactly if every revision in their
composites is absent or a signed 64-bit integer, and then read back as they were. Whatever reads as a composite
can be written, and reads back as that composite. Lengths, and revisions of messages, are 64-bit numbers. -/
theorem reads_back :
    (∀ c : Composite, c.InRange → ReadsBack Composite.toJson? Composite.ofJson? c.Writable c) ∧
    (∀ m : DeltaMessage, m.revision < UInt64.size → (∀ c ∈ m.deltas, c.InRange) →
      ReadsBack DeltaMessage.toJson? DeltaMessage.ofJson? (∀ c ∈ m.deltas, c.Writable) m) ∧
    (∀ r : DeltaRequest, r.revision < UInt64.size → (∀ c ∈ r.deltas, c.InRange) →
      ReadsBack DeltaRequest.toJson? DeltaRequest.ofJson? (∀ c ∈ r.deltas, c.Writable) r) ∧
    ∀ (j : Json) (c : Composite), Composite.ofJson? j = some c → c.InRange →
      ∃ j', c.toJson? = some j' ∧ Composite.ofJson? j' = some c := by
  refine ⟨fun c h => ?_, fun m hr h => ?_, fun r hr h => ?_, fun j c hj h => ?_⟩
  · exact readsBack_of Composite.isSome_toJson?_iff fun _ => Composite.ofJson?_of_toJson? h
  · exact readsBack_of DeltaMessage.isSome_toJson?_iff fun _ => DeltaMessage.ofJson?_of_toJson? hr h
  · exact readsBack_of DeltaRequest.isSome_toJson?_iff fun _ => DeltaRequest.ofJson?_of_toJson? hr h
  · obtain ⟨j', hj'⟩ := Option.isSome_iff_exists.1 (Composite.isSome_toJson?_iff.2 (Composite.writable_of_ofJson? hj))
    exact ⟨j', hj', Composite.ofJson?_of_toJson? h hj'⟩

/-- An edit of objects of all four kinds, alone and in messages, and the form of an edit with two retains in a row. -/
theorem reads_back_kinds :
    let c : Composite := ⟨⟨some ⟨"ann"⟩, none⟩, some 7,
      [⟨⟨"body"⟩, .text ⟨[.retain 2, .insert ['a']], rfl⟩⟩, ⟨⟨"rows"⟩, .list ⟨[.delete [.null]], rfl⟩⟩,
        ⟨⟨"flags"⟩, .map ⟨"bold", .null, ⟨.bool true, trivial⟩⟩⟩, ⟨⟨"cursor"⟩, .reference ⟨⟨"body"⟩, -1, 2, true⟩⟩]⟩
    let j : Json := .arr [.arr [.arr [.str "text", .str "body", .arr [.int 1, .int 1, .obj [("i", .str "a")]]]], .null,
      .int (-1), .null]
    let e : Composite := .ofComponents [⟨⟨"body"⟩, .text ⟨[.retain 2, .insert ['a']], rfl⟩⟩]
    (c.InRange ∧ c.Writable ∧ ∃ j, c.toJson? = some j ∧ Composite.ofJson? j = some c) ∧
    (∃ j, DeltaMessage.toJson? ⟨⟨"s"⟩, ⟨"ann"⟩, 7, [c]⟩ = some j ∧
      DeltaMessage.ofJson? j = some ⟨⟨"s"⟩, ⟨"ann"⟩, 7, [c]⟩) ∧
    DeltaRequest.toJson? ⟨⟨"d"⟩, ⟨"s"⟩, 7, [c.withRevision (Nat.pow 2 63)]⟩ = none ∧
    Composite.ofJson? j = some e ∧ ∃ j', e.toJson? = some j' ∧ Composite.ofJson? j' = some e := by
  intro c j e
  have hc : c.InRange := by
    simp [c, Composite.InRange, ObjectOp.InRange, Edit.InRange, Component.InRange]
    decide
  have he : e.InRange := by
    simp [e, Composite.ofComponents, Composite.InRange, ObjectOp.InRange, Edit.InRange, Component.InRange]
    decide
  have hw : c.Writable := by
    rintro r ⟨⟩
    decide
  have hn : ¬ (c.withRevision (Nat.pow 2 63)).Writable := fun h => absurd (h _ rfl) (by decide)
  have hj : Composite.ofJson? j = some e := rfl
  refine ⟨⟨hc, hw, (reads_back.1 c hc).1 hw⟩, ?_, ?_, hj, reads_back.2.2.2 j e hj he⟩
  · exact (reads_back.2.1 ⟨⟨"s"⟩, ⟨"ann"⟩, 7, [c]⟩ (by decide) (List.forall_mem_singleton.2 hc)).1
      (List.forall_mem_singleton.2 hw)
  · exact (reads_back.2.2.1 ⟨⟨"d"⟩, ⟨"s"⟩, 7, [c.withRevision (Nat.pow 2 63)]⟩ (by decide)
      (List.forall_mem_singleton.2 hc)).2 fun h => hn (List.forall_mem_singleton.1 h)

end Wire
end Coedit
