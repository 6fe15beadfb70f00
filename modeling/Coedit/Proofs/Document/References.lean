import Coedit.Proofs.Document.Projection

/-!
# Concurrent moves of references

A shift sets the flag of its reference, but one that does not change the index counts as changing nothing and is
dropped, whatever its flag.  After `transform` the shifts of the client start where the server left the reference,
so some that moved it may no longer do; their flags are lost on that way round.  Object and index always agree.

* `Shift.Chained` — shifts of one reference in turn;
* `Composite.transformComponents_crossed` — what the grid makes of the shifts of one reference;
* `Composite.KeepsFlag` — the flag that counts is set by a shift that still moves the reference;
* `Composite.shifts_meet` — the two ways round end at the same place, and with the same flag just if it is kept.
-/

namespace Coedit

/-! ## Moves -/

namespace IndexReference

/-- What a reference points to, but for its flag. -/
def place (r : IndexReference) : ObjectId × Int64 := (r.object, r.index)

/-- The reference after a shift. -/
def moved (r : IndexReference) (s : Shift) : IndexReference := ⟨r.object, s.new, s.canBeDeleted⟩

/-- The reference after a shift that leaves it as it is if it is in place already. -/
def visited (r : IndexReference) (s : Shift) : IndexReference := if r.index = s.new then r else r.moved s

variable {r q : IndexReference} {s : Shift} {l : List Shift}

theorem eq_iff_of_place (h : r.place = q.place) : r = q ↔ r.canBeDeleted = q.canBeDeleted := by
  cases r
  cases q
  simp_all [place]

theorem place_visited (h : r.place = q.place) : (r.visited s).place = (q.moved s).place := by
  have h := Prod.mk.inj h
  unfold visited
  split
  next hi => exact Prod.ext h.1 hi
  next => exact Prod.ext h.1 rfl

/-- Passing over shifts leads to the same place as making them. -/
theorem place_foldl_visited (h : r.place = q.place) : (l.foldl visited r).place = (l.foldl moved q).place := by
  induction l generalizing r q with
  | nil => exact h
  | cons s l ih => exact ih (place_visited h)

end IndexReference

namespace Shift

open IndexReference (moved visited)

/-! ## Shifts of one reference -/

/-- The shifts refer to one object and start where the ones before them end, the first of them at an index. -/
def Chained (object : ObjectId) : Int64 → List Shift → Prop
  | _, [] => True
  | i, s :: l => s.object = object ∧ s.old = i ∧ Chained object s.new l

/-- Where shifts end that start at an index. -/
def endOf (i : Int64) (l : List Shift) : Int64 := l.foldl (fun _ s => s.new) i

/-- The same shifts, but the first of them starts at `i`. -/
def startAt (i : Int64) : List Shift → List Shift
  | [] => []
  | s :: l => { s with old := i } :: l

/-- The shifts that change the index. -/
def moves (l : List Shift) : List Shift := l.filter fun s => !s.isNoop

variable {object : ObjectId} {i j : Int64} {s : Shift} {l : List Shift} {r : IndexReference}

theorem place_foldl_moved (l : List Shift) : ∀ r : IndexReference, (l.foldl moved r).place = (r.object, endOf r.index l) := by
  induction l with
  | nil => exact fun _ => rfl
  | cons s l ih => exact fun r => ih (r.moved s)

/-- Shifts that can be transformed start at one place; both end where the client's does. -/
theorem eq_of_transform {s c s' c' : Shift} (h : s.transform c = .ok (s', c')) :
    s.object = c.object ∧ s.old = c.old ∧ s' = { c with old := c.new } ∧ c' = { c with old := s.new } := by
  unfold transform at h
  split at h
  next => cases h
  next ho =>
    split at h
    next => cases h
    next hi =>
      have ho : s.object = c.object := by simpa using ho
      cases h
      exact ⟨ho, by simpa using hi, by rw [ho], rfl⟩

theorem startAt_of_chained (h : Chained object i l) : startAt i l = l := by
  cases l with
  | nil => rfl
  | cons s l =>
    obtain ⟨_, rfl, _⟩ := h
    rfl

theorem Chained.startAt (h : Chained object i l) (j : Int64) : Chained object j (startAt j l) := by
  cases l with
  | nil => trivial
  | cons s l => exact ⟨h.1, rfl, h.2.2⟩

theorem foldl_visited_startAt : (startAt j l).foldl visited r = l.foldl visited r := by
  cases l with
  | nil => rfl
  | cons s l => rfl

theorem Chained.moves (h : Chained object i l) : Chained object i (moves l) := by
  induction l generalizing i with
  | nil => trivial
  | cons s l ih =>
    obtain ⟨ho, rfl, h⟩ := h
    unfold Shift.moves
    cases hn : s.isNoop with
    | true =>
      rw [List.filter_cons_of_neg (by simp [hn]), isNoop_iff.1 hn]
      exact ih h
    | false =>
      rw [List.filter_cons_of_pos (by simp [hn])]
      exact ⟨ho, rfl, ih h⟩

/-- Leaving out what does not move a reference is passing over it. -/
theorem Chained.foldl_moves (h : Chained object r.index l) : (Shift.moves l).foldl moved r = l.foldl visited r := by
  induction l generalizing r with
  | nil => rfl
  | cons s l ih =>
    obtain ⟨_, hi, h⟩ := h
    unfold Shift.moves
    rw [List.foldl_cons, visited]
    by_cases hn : r.index = s.new
    · rw [List.filter_cons_of_neg (by simp [isNoop, hi, hn]), if_pos hn]
      exact ih (hn ▸ h)
    · rw [List.filter_cons_of_pos (by simp [isNoop, hi, hn]), if_neg hn]
      exact ih h

/-- Shifts apply to a reference that they are chained to. -/
theorem applyOn_eq_ok {w? : Option ObjectValue} :
    ObjectOp.applyOn (some (.reference r)) (l.map .reference) = .ok w? ↔
      Chained r.object r.index l ∧ w? = some (.reference (l.foldl moved r)) := by
  induction l generalizing r with
  | nil => exact ⟨fun h => ⟨trivial, (Except.ok.inj h).symm⟩, fun h => congrArg Except.ok h.2.symm⟩
  | cons s l ih =>
    rw [List.map_cons, ObjectOp.applyOn_cons_eq_ok]
    constructor
    · rintro ⟨v, hv, h⟩
      obtain ⟨r', hr, rfl⟩ := map_eq_ok.1 hv
      obtain ⟨ho, hi, rfl⟩ := apply_eq_ok.1 hr
      obtain ⟨hl, rfl⟩ := ih.1 h
      exact ⟨⟨ho.symm, hi.symm, hl⟩, rfl⟩
    · rintro ⟨⟨ho, hi, hl⟩, rfl⟩
      exact ⟨.reference (r.moved s), map_eq_ok.2 ⟨_, apply_eq_ok.2 ⟨ho.symm, hi.symm, rfl⟩, rfl⟩,
        ih.2 ⟨hl, rfl⟩⟩

/-- Shifts apply to references only. -/
theorem eq_nil_of_applyOn {v : ObjectValue} {w? : Option ObjectValue} (hv : ∀ r, v ≠ .reference r)
    (h : ObjectOp.applyOn (some v) (l.map .reference) = .ok w?) : l = [] := by
  cases l with
  | nil => rfl
  | cons s l =>
    obtain ⟨u, hu, _⟩ := ObjectOp.applyOn_cons_eq_ok.1 h
    cases v with
    | reference r => exact absurd rfl (hv r)
    | _ => cases hu

/-- A reference to an object at an index, or none where one that points nowhere is yet to be made. -/
def Ready (object : ObjectId) (i : Int64) : Option ObjectValue → Prop
  | none => i = IndexReference.invalidated
  | some v => ∃ r, v = .reference r ∧ r.place = (object, i)

theorem Ready.index_eq {object' : ObjectId} {v? : Option ObjectValue} (h : Ready object i v?) (h' : Ready object' j v?) :
    i = j := by
  cases v? with
  | none => exact h.trans h'.symm
  | some v =>
    obtain ⟨r, rfl, hr⟩ := h
    obtain ⟨r', hv, hr'⟩ := h'
    cases hv
    exact (Prod.mk.inj (hr.symm.trans hr')).2

/-- Shifts apply where they are awaited. -/
theorem Chained.exists_applyOn {v? : Option ObjectValue} (h : Chained object i l) (hv : Ready object i v?) :
    ∃ w?, ObjectOp.applyOn v? (l.map .reference) = .ok w? := by
  cases l with
  | nil => exact ⟨v?, rfl⟩
  | cons s l =>
    cases v? with
    | none =>
      -- the first shift finds the reference that it makes itself
      have h : Chained (IndexReference.unset s.object s.canBeDeleted).object
          (IndexReference.unset s.object s.canBeDeleted).index (s :: l) := by
        obtain ⟨rfl, hi, h⟩ := h
        exact ⟨rfl, hi.trans hv, h⟩
      exact ⟨_, applyOn_eq_ok.2 ⟨h, rfl⟩⟩
    | some v =>
      obtain ⟨r, rfl, hr⟩ := hv
      obtain ⟨rfl, rfl⟩ := Prod.mk.inj hr
      exact ⟨_, applyOn_eq_ok.2 ⟨h, rfl⟩⟩

/-- Where shifts apply, they are awaited, and what comes after them is awaited where they end. -/
theorem chained_of_applyOn {v? w? : Option ObjectValue} (hl : l ≠ [])
    (h : ObjectOp.applyOn v? (l.map .reference) = .ok w?) :
    ∃ object i, Ready object i v? ∧ Chained object i l ∧ Ready object (endOf i l) w? := by
  obtain ⟨s, l, rfl⟩ := List.exists_cons_of_ne_nil hl
  cases v? with
  | none =>
    have h : ObjectOp.applyOn (some (.reference (.unset s.object s.canBeDeleted))) ((s :: l).map .reference) = .ok w? := h
    obtain ⟨hc, rfl⟩ := applyOn_eq_ok.1 h
    exact ⟨_, _, rfl, hc, _, rfl, place_foldl_moved _ _⟩
  | some v =>
    cases v with
    | reference r =>
      obtain ⟨hc, rfl⟩ := applyOn_eq_ok.1 h
      exact ⟨_, _, ⟨r, rfl, rfl⟩, hc, _, rfl, place_foldl_moved _ _⟩
    | _ => exact absurd (eq_nil_of_applyOn (fun _ => by simp) h) hl

end Shift

/-! ## Composites of shifts -/

theorem Document.reference?_eq_none {d : Document} {target : ObjectId} {v : ObjectValue}
    (hv : ∀ r, v ≠ .reference r) (hd : d.get? target = some v) : d.reference? target = none := by
  unfold reference?
  split
  next r h => exact absurd (Option.some.inj (hd.symm.trans h)) (hv r)
  next => rfl

def ObjectOp.shift? : ObjectOp → Option Shift
  | .reference s => some s
  | _ => none

namespace Composite

open IndexReference (moved visited)
open Shift (Chained endOf startAt moves)

def OnlyShifts (cs : List TargetedOp) : Prop := ∀ c ∈ cs, c.op.kind = .reference

def shiftsOn (target : ObjectId) (cs : List TargetedOp) : List Shift := (opsOn target cs).filterMap ObjectOp.shift?

variable {t u : ObjectId} {h : Shift} {c c' : TargetedOp} {cs server client server' client' : List TargetedOp}

theorem onlyShifts_cons : OnlyShifts (c :: cs) ↔ (∃ t s, c = ⟨t, .reference s⟩) ∧ OnlyShifts cs := by
  have hc : c.op.kind = .reference ↔ ∃ t s, c = ⟨t, .reference s⟩ := by
    obtain ⟨t, op⟩ := c
    cases op <;> simp [ObjectOp.kind]
  rw [← hc]
  exact List.forall_mem_cons

@[simp] theorem shiftsOn_nil : shiftsOn t [] = [] := rfl

@[simp] theorem shiftsOn_cons_self : shiftsOn t (⟨t, .reference h⟩ :: cs) = h :: shiftsOn t cs := by
  simp [shiftsOn, opsOn, ObjectOp.shift?]

theorem shiftsOn_cons_of_ne (hu : c.target ≠ u) : shiftsOn u (c :: cs) = shiftsOn u cs := by
  rw [shiftsOn, opsOn_cons_of_ne hu, shiftsOn]

theorem opsOn_eq_map (hcs : OnlyShifts cs) (t : ObjectId) : opsOn t cs = (shiftsOn t cs).map .reference := by
  induction cs with
  | nil => rfl
  | cons c cs ih =>
    obtain ⟨⟨u, s, rfl⟩, hrest⟩ := onlyShifts_cons.1 hcs
    by_cases hu : u = t
    · subst hu
      rw [shiftsOn_cons_self, List.map_cons, ← ih hrest]
      exact opsOn_cons_self
    · rw [shiftsOn_cons_of_ne hu, ← ih hrest]
      exact opsOn_cons_of_ne hu

theorem OnlyShifts.dropNoops (hcs : OnlyShifts cs) : OnlyShifts (dropNoops cs) :=
  fun c hc => hcs c (List.mem_filter.1 hc).1

theorem shiftsOn_dropNoops (hcs : OnlyShifts cs) (t : ObjectId) :
    shiftsOn t (Composite.dropNoops cs) = moves (shiftsOn t cs) := by
  induction cs with
  | nil => rfl
  | cons c cs ih =>
    obtain ⟨⟨u, s, rfl⟩, hrest⟩ := onlyShifts_cons.1 hcs
    have ih := ih hrest
    unfold Composite.dropNoops moves at *
    have hn : ObjectOp.isNoop (.reference s) = s.isNoop := rfl
    by_cases hu : u = t
    · subst hu
      cases hs : s.isNoop <;> simp [hn, hs, ih]
    · cases hs : s.isNoop <;> simp [hn, hs, shiftsOn_cons_of_ne, hu, ih]

/-- Shifts do to each object what those of its reference do. -/
theorem applyOn_shiftsOn {d x : Document} (hcs : OnlyShifts cs) (h : d.applyComponents cs = .ok x) (t : ObjectId) :
    ObjectOp.applyOn (d.get? t) ((shiftsOn t cs).map .reference) = .ok (x.get? t) := by
  rw [← opsOn_eq_map hcs]
  exact Document.get?_of_applyComponents h t

theorem applyOn_moves {d x : Document} (hcs : OnlyShifts cs) (h : d.applyComponents (Composite.dropNoops cs) = .ok x)
    (t : ObjectId) : ObjectOp.applyOn (d.get? t) ((moves (shiftsOn t cs)).map .reference) = .ok (x.get? t) := by
  rw [← shiftsOn_dropNoops hcs]
  exact applyOn_shiftsOn hcs.dropNoops h t

theorem exists_applyComponents_moves {d : Document} (hcs : OnlyShifts cs)
    (h : ∀ t, ∃ w?, ObjectOp.applyOn (d.get? t) ((moves (shiftsOn t cs)).map .reference) = .ok w?) :
    ∃ x, d.applyComponents (Composite.dropNoops cs) = .ok x := by
  refine Document.exists_applyComponents fun t => ?_
  rw [opsOn_eq_map hcs.dropNoops, shiftsOn_dropNoops hcs]
  exact h t

/-! ## The grid -/

/-- One shift of the client passes the server's shifts: those of its reference now start and end where it ends, and it
starts where they left the reference. -/
structure Passed (t : ObjectId) (h : Shift) (server server' : List TargetedOp) (c' : TargetedOp) : Prop where
  onlyShifts : OnlyShifts server'
  client_eq : c' = ⟨t, .reference { h with old := endOf h.old (shiftsOn t server) }⟩
  object : ∀ s ∈ shiftsOn t server, s.object = h.object
  server_eq : shiftsOn t server' = (shiftsOn t server).map fun _ => { h with old := h.new }
  others : ∀ u, t ≠ u → shiftsOn u server' = shiftsOn u server

theorem transformOne_passed (hs : OnlyShifts server) (ht : transformOne ⟨t, .reference h⟩ server = .ok (server', c')) :
    Passed t h server server' c' := by
  induction server generalizing h server' with
  | nil =>
    cases ht
    exact ⟨hs, rfl, nofun, rfl, fun _ _ => rfl⟩
  | cons s server ih =>
    obtain ⟨⟨u, s, rfl⟩, hrest⟩ := onlyShifts_cons.1 hs
    unfold transformOne at ht
    by_cases hu : u = t
    · subst hu
      rw [if_neg (by simp [passes, ObjectOp.isIndependent])] at ht
      split at ht
      next => cases ht
      next op op' hop =>
        obtain ⟨⟨s', h'⟩, hsh, hp⟩ := map_eq_ok.1 hop
        obtain ⟨rfl, rfl⟩ := Prod.mk.inj hp
        obtain ⟨ho, hi, rfl, rfl⟩ := Shift.eq_of_transform hsh
        obtain ⟨⟨rest, c₁⟩, htr, hp⟩ := map_eq_ok.1 ht
        obtain ⟨rfl, rfl⟩ := Prod.mk.inj hp
        have ih := ih hrest htr
        refine ⟨onlyShifts_cons.2 ⟨⟨_, _, rfl⟩, ih.onlyShifts⟩, ?_, ?_, ?_, fun v hv => ?_⟩
        · rw [shiftsOn_cons_self]
          exact ih.client_eq
        · rw [shiftsOn_cons_self]
          exact List.forall_mem_cons.2 ⟨ho, ih.object⟩
        · rw [shiftsOn_cons_self, shiftsOn_cons_self, List.map_cons, ih.server_eq]
        · rw [shiftsOn_cons_of_ne hv, shiftsOn_cons_of_ne hv]
          exact ih.others v hv
    · rw [if_pos (by simp [passes, hu])] at ht
      obtain ⟨⟨rest, c₁⟩, htr, hp⟩ := map_eq_ok.1 ht
      obtain ⟨rfl, rfl⟩ := Prod.mk.inj hp
      have ih := ih hrest htr
      have hut : shiftsOn t (⟨u, .reference s⟩ :: server) = shiftsOn t server := shiftsOn_cons_of_ne hu
      refine ⟨onlyShifts_cons.2 ⟨⟨_, _, rfl⟩, ih.onlyShifts⟩, ?_, ?_, ?_, fun v hv => ?_⟩
      · rw [hut]
        exact ih.client_eq
      · rw [hut]
        exact ih.object
      · rw [hut, shiftsOn_cons_of_ne hu]
        exact ih.server_eq
      · by_cases huv : u = v
        · subst huv
          rw [shiftsOn_cons_self, shiftsOn_cons_self, ih.others u hv]
        · rw [shiftsOn_cons_of_ne huv, shiftsOn_cons_of_ne huv]
          exact ih.others v hv

/-- The shifts of one reference after all have passed one another: the client's start where the server's ended, and the
server's no longer move anything unless the client's leave the reference alone. -/
structure Crossed (l k l' k' : List Shift) : Prop where
  object : ∀ s ∈ l, ∀ h ∈ k, s.object = h.object
  client : ∀ object i, Chained object i k → k' = startAt (endOf i l) k
  untouched : k = [] → l' = l
  halted : k ≠ [] → moves l' = []

theorem Crossed.cons {l l' k k' : List Shift} (hl : ∀ s ∈ l, s.object = h.object)
    (hc : Crossed (l.map fun _ => { h with old := h.new }) k l' k') :
    Crossed l (h :: k) l' ({ h with old := endOf h.old l } :: k') where
  object s hs := by
    refine List.forall_mem_cons.2 ⟨hl s hs, fun h' hh => (hl s hs).trans ?_⟩
    exact hc.object _ (List.mem_map.2 ⟨s, hs, rfl⟩) h' hh
  client object i := by
    rintro ⟨_, rfl, hk⟩
    have he : ∀ l : List Shift, endOf h.new (l.map fun _ => { h with old := h.new }) = h.new := by
      intro l
      induction l with
      | nil => rfl
      | cons s l ih => exact ih
    rw [hc.client object h.new hk, he, Shift.startAt_of_chained hk]
    rfl
  untouched := nofun
  halted _ := by
    by_cases hk : k = []
    · rw [hc.untouched hk]
      simp [moves, Shift.isNoop]
    · exact hc.halted hk

/-- **The grid, reference by reference.** -/
theorem transformComponents_crossed (hs : OnlyShifts server) (hc : OnlyShifts client)
    (ht : transformComponents server client = .ok (server', client')) :
    OnlyShifts server' ∧ OnlyShifts client' ∧
      ∀ t, Crossed (shiftsOn t server) (shiftsOn t client) (shiftsOn t server') (shiftsOn t client') := by
  induction client generalizing server client' with
  | nil =>
    cases ht
    exact ⟨hs, hc, fun t => ⟨nofun, fun _ _ _ => rfl, fun _ => rfl, fun h => absurd rfl h⟩⟩
  | cons c client ih =>
    obtain ⟨⟨t, h, rfl⟩, hrest⟩ := onlyShifts_cons.1 hc
    unfold transformComponents at ht
    split at ht
    next => cases ht
    next server₁ c₁ hone =>
      have hp := transformOne_passed hs hone
      obtain ⟨⟨server₂, client₂⟩, htr, hpair⟩ := map_eq_ok.1 ht
      obtain ⟨rfl, rfl⟩ := Prod.mk.inj hpair
      obtain ⟨hs', hc', ih⟩ := ih hp.onlyShifts hrest htr
      obtain rfl := hp.client_eq
      refine ⟨hs', onlyShifts_cons.2 ⟨⟨_, _, rfl⟩, hc'⟩, fun u => ?_⟩
      by_cases hu : t = u
      · subst hu
        rw [shiftsOn_cons_self, shiftsOn_cons_self]
        exact .cons hp.object (hp.server_eq ▸ ih t)
      · rw [shiftsOn_cons_of_ne hu, shiftsOn_cons_of_ne hu, ← hp.others u hu]
        exact ih u

/-! ## Both ways round -/

section object
variable {l k l' k' : List Shift} {r : IndexReference} {v? x? y? z? w? : Option ObjectValue} {v : ObjectValue}

/-- The shifts of the client apply after those of the server. -/
theorem Crossed.exists_applyOn_client (hc : Crossed l k l' k') (hl : ObjectOp.applyOn v? (l.map .reference) = .ok x?)
    (hk : ObjectOp.applyOn v? (k.map .reference) = .ok y?) :
    ∃ z?, ObjectOp.applyOn x? ((moves k').map .reference) = .ok z? := by
  cases k with
  | nil =>
    obtain rfl : k' = [] := hc.client ⟨""⟩ 0 trivial
    exact ⟨x?, rfl⟩
  | cons h k =>
    obtain ⟨object, i, hv, hchain, _⟩ := Shift.chained_of_applyOn (by simp) hk
    obtain rfl := hc.client object i hchain
    refine (hchain.startAt _).moves.exists_applyOn ?_
    cases l with
    | nil =>
      cases hl
      exact hv
    | cons s l =>
      obtain ⟨object', j, hv', hchain', hx⟩ := Shift.chained_of_applyOn (by simp) hl
      obtain rfl := hv.index_eq hv'
      have ho : object' = object :=
        hchain'.1.symm.trans ((hc.object s (List.mem_cons_self ..) h (List.mem_cons_self ..)).trans hchain.1)
      exact ho ▸ hx

/-- The shifts of the server apply after those of the client. -/
theorem Crossed.exists_applyOn_server (hc : Crossed l k l' k') (hl : ObjectOp.applyOn v? (l.map .reference) = .ok x?)
    (hk : ObjectOp.applyOn v? (k.map .reference) = .ok y?) :
    ∃ w?, ObjectOp.applyOn y? ((moves l').map .reference) = .ok w? := by
  by_cases hk₀ : k = []
  · obtain rfl := hc.untouched hk₀
    subst hk₀
    cases hk
    by_cases hl₀ : l' = []
    · subst hl₀
      exact ⟨v?, rfl⟩
    · obtain ⟨_, _, hv, hchain, _⟩ := Shift.chained_of_applyOn hl₀ hl
      exact hchain.moves.exists_applyOn hv
  · rw [hc.halted hk₀]
    exact ⟨y?, rfl⟩

/-- Both ways round lead to one place. -/
theorem place_meet (r : IndexReference) (l k : List Shift) :
    (k.foldl visited (l.foldl moved r)).place = (if k = [] then l.foldl visited r else k.foldl moved r).place := by
  rw [IndexReference.place_foldl_visited (q := l.foldl moved r) rfl]
  cases k with
  | nil => exact (IndexReference.place_foldl_visited (l := l) (r := r) rfl).symm
  | cons h k =>
    -- the first shift ends at one index wherever it starts
    have ho := congrArg Prod.fst (Shift.place_foldl_moved l r)
    rw [if_neg (by simp), Shift.place_foldl_moved, Shift.place_foldl_moved]
    exact Prod.ext ho rfl

/-- What becomes of a reference either way round. -/
theorem Crossed.meet_reference (hc : Crossed l k l' k')
    (hx : ObjectOp.applyOn (some (.reference r)) (l.map .reference) = .ok x?)
    (hy : ObjectOp.applyOn (some (.reference r)) (k.map .reference) = .ok y?)
    (hz : ObjectOp.applyOn x? ((moves k').map .reference) = .ok z?)
    (hw : ObjectOp.applyOn y? ((moves l').map .reference) = .ok w?) :
    z? = some (.reference (k.foldl visited (l.foldl moved r))) ∧
      w? = some (.reference (if k = [] then l.foldl visited r else k.foldl moved r)) := by
  obtain ⟨hl, rfl⟩ := Shift.applyOn_eq_ok.1 hx
  obtain ⟨hk, rfl⟩ := Shift.applyOn_eq_ok.1 hy
  obtain rfl := hc.client _ _ hk
  constructor
  · obtain ⟨ho, hi⟩ := Prod.mk.inj (Shift.place_foldl_moved l r)
    have hk : Chained (l.foldl moved r).object (l.foldl moved r).index (startAt (endOf r.index l) k) := by
      rw [ho, hi]
      exact hk.startAt _
    rw [(Shift.applyOn_eq_ok.1 hz).2, hk.foldl_moves, Shift.foldl_visited_startAt]
  · rw [(Shift.applyOn_eq_ok.1 hw).2]
    by_cases hk₀ : k = []
    · rw [hc.untouched hk₀, if_pos hk₀, hk₀, List.foldl_nil, hl.foldl_moves]
    · rw [hc.halted hk₀, if_neg hk₀, List.foldl_nil]

/-- What is no reference is left alone either way round. -/
theorem Crossed.meet_other (hc : Crossed l k l' k') (hv : ∀ r, v ≠ .reference r)
    (hx : ObjectOp.applyOn (some v) (l.map .reference) = .ok x?)
    (hy : ObjectOp.applyOn (some v) (k.map .reference) = .ok y?)
    (hz : ObjectOp.applyOn x? ((moves k').map .reference) = .ok z?)
    (hw : ObjectOp.applyOn y? ((moves l').map .reference) = .ok w?) : z? = some v ∧ w? = some v := by
  obtain rfl := Shift.eq_nil_of_applyOn hv hx
  obtain rfl := Shift.eq_nil_of_applyOn hv hy
  obtain rfl : k' = [] := hc.client ⟨""⟩ 0 trivial
  obtain rfl := hc.untouched rfl
  cases hx
  cases hy
  exact ⟨(Except.ok.inj hz).symm, (Except.ok.inj hw).symm⟩

end object

variable {d x y : Document} {s c s' c' : Composite}

/-- The edit that sets the flag in the end, the client's if it shifts the reference and else the server's, leaves the
same flag if its shifts that find the reference in place are passed over. -/
def KeepsFlag (d : Document) (s c : Composite) (t : ObjectId) : Prop := ∀ r, d.reference? t = some r →
  let l := shiftsOn t s.components
  let k := shiftsOn t c.components
  if k = [] then (l.foldl visited r).canBeDeleted = (l.foldl moved r).canBeDeleted
  else (k.foldl visited (l.foldl moved r)).canBeDeleted = (k.foldl moved r).canBeDeleted

theorem keepsFlag_iff {r : IndexReference} (hr : d.reference? t = some r) :
    KeepsFlag d s c t ↔
      if shiftsOn t c.components = [] then
        ((shiftsOn t s.components).foldl visited r).canBeDeleted = ((shiftsOn t s.components).foldl moved r).canBeDeleted
      else ((shiftsOn t c.components).foldl visited ((shiftsOn t s.components).foldl moved r)).canBeDeleted
        = ((shiftsOn t c.components).foldl moved r).canBeDeleted := by
  refine ⟨fun h => h r hr, fun h r' hr' => ?_⟩
  obtain rfl := Option.some.inj (hr.symm.trans hr')
  exact h

/-- The flag is kept if the client's last shift still moves the reference when it is made after the server's. -/
theorem keepsFlag_of_moves {k : List Shift} (hk : shiftsOn t c.components = k ++ [h])
    (hm : ∀ r, d.reference? t = some r → (k.foldl moved ((shiftsOn t s.components).foldl moved r)).index ≠ h.new) :
    KeepsFlag d s c t := by
  intro r hr
  have hp := IndexReference.place_foldl_visited (l := k) (r := (shiftsOn t s.components).foldl moved r) rfl
  have hi : (k.foldl visited ((shiftsOn t s.components).foldl moved r)).index ≠ h.new :=
    (congrArg Prod.snd hp).trans_ne (hm r hr)
  simp [hk, visited, hi, moved]

/-- **Concurrent moves meet.** If two composites of shifts apply to a document and are transformed, each result applies
after the other composite, and at every object of the document the two ways round hold references to one place. They
hold the same reference, flag included, exactly if the flag is kept. -/
theorem shifts_meet (hs : OnlyShifts s.components) (hc : OnlyShifts c.components) (hx : s.apply d = .ok x)
    (hy : c.apply d = .ok y) (ht : s.transform c = .ok (s', c')) :
    ∃ z w, c'.apply x = .ok z ∧ s'.apply y = .ok w ∧ ∀ t, (d.get? t).isSome = true →
      (z.reference? t).map IndexReference.place = (w.reference? t).map IndexReference.place ∧
      (z.reference? t = w.reference? t ↔ KeepsFlag d s c t) := by
  obtain ⟨⟨server', client'⟩, hp, hpair⟩ := map_eq_ok.1 ht
  obtain ⟨rfl, rfl⟩ := Prod.mk.inj hpair
  obtain ⟨hs', hc', hcross⟩ := transformComponents_crossed hs hc hp
  have hxt := applyOn_shiftsOn hs hx
  have hyt := applyOn_shiftsOn hc hy
  obtain ⟨z, hz⟩ := exists_applyComponents_moves hc' fun t => (hcross t).exists_applyOn_client (hxt t) (hyt t)
  obtain ⟨w, hw⟩ := exists_applyComponents_moves hs' fun t => (hcross t).exists_applyOn_server (hxt t) (hyt t)
  refine ⟨z, w, hz, hw, fun t hd => ?_⟩
  have hzt := applyOn_moves hc' hz t
  have hwt := applyOn_moves hs' hw t
  obtain ⟨v, hv⟩ := Option.isSome_iff_exists.1 hd
  have hxt := hv ▸ hxt t
  have hyt := hv ▸ hyt t
  by_cases hr : ∃ r, v = .reference r
  · obtain ⟨r, rfl⟩ := hr
    obtain ⟨hzr, hwr⟩ := (hcross t).meet_reference hxt hyt hzt hwt
    have hplace := place_meet r (shiftsOn t s.components) (shiftsOn t c.components)
    have hdr : d.reference? t = some r := by simp [Document.reference?, hv]
    simp only [Document.reference?, hzr, hwr, Option.map_some, hplace, true_and, Option.some_inj,
      IndexReference.eq_iff_of_place hplace, keepsFlag_iff hdr]
    split
    next hk =>
      rw [hk]
      exact eq_comm
    next => rfl
  · have hr : ∀ r, v ≠ .reference r := fun r h => hr ⟨r, h⟩
    obtain ⟨hzv, hwv⟩ := (hcross t).meet_other hr hxt hyt hzt hwt
    rw [Document.reference?_eq_none hr hzv, Document.reference?_eq_none hr hwv]
    refine ⟨rfl, fun _ r h => ?_, fun _ => rfl⟩
    rw [Document.reference?_eq_none hr hv] at h
    cases h

/-- A document with nothing but a cursor in a text. -/
def cursorAt (index : Int64) (canBeDeleted : Bool) : Document :=
  Document.empty.put ⟨"cursor"⟩ (.reference ⟨⟨"body"⟩, index, canBeDeleted⟩)

def moveCursor (old new : Int64) (canBeDeleted : Bool) : Composite :=
  .ofComponents [⟨⟨"cursor"⟩, .reference ⟨⟨"body"⟩, old, new, canBeDeleted⟩⟩]

theorem onlyShifts_moveCursor (old new : Int64) (canBeDeleted : Bool) :
    OnlyShifts (moveCursor old new canBeDeleted).components := List.forall_mem_singleton.2 rfl

/-- Moves to different places with different flags. -/
theorem shifts_meet_apart : ∃ s' c' z w,
    (moveCursor 2 5 true).transform (moveCursor 2 7 false) = .ok (s', c') ∧
    c'.apply (cursorAt 5 true) = .ok z ∧ s'.apply (cursorAt 7 false) = .ok w ∧
    z.reference? ⟨"cursor"⟩ = w.reference? ⟨"cursor"⟩ := by
  have hx : (moveCursor 2 5 true).apply (cursorAt 2 true) = .ok (cursorAt 5 true) := rfl
  have hy : (moveCursor 2 7 false).apply (cursorAt 2 true) = .ok (cursorAt 7 false) := rfl
  have ht : ∃ s' c', (moveCursor 2 5 true).transform (moveCursor 2 7 false) = .ok (s', c') := ⟨_, _, rfl⟩
  obtain ⟨s', c', ht⟩ := ht
  obtain ⟨z, w, hz, hw, h⟩ :=
    shifts_meet (onlyShifts_moveCursor 2 5 true) (onlyShifts_moveCursor 2 7 false) hx hy ht
  refine ⟨s', c', z, w, ht, hz, hw, (h ⟨"cursor"⟩ rfl).2.2 (keepsFlag_of_moves (k := []) rfl fun r hr => ?_)⟩
  cases hr
  decide

/-- Moves to one place with different flags. Neither moves the cursor any more after the other, so each side keeps the
flag that it set itself. -/
theorem not_shifts_meet_together : ∃ s' c' z w,
    (moveCursor 2 5 true).apply (cursorAt 2 true) = .ok (cursorAt 5 true) ∧
    (moveCursor 2 5 false).apply (cursorAt 2 true) = .ok (cursorAt 5 false) ∧
    (moveCursor 2 5 true).transform (moveCursor 2 5 false) = .ok (s', c') ∧
    c'.apply (cursorAt 5 true) = .ok z ∧ s'.apply (cursorAt 5 false) = .ok w ∧
    z.reference? ⟨"cursor"⟩ = some ⟨⟨"body"⟩, 5, true⟩ ∧ w.reference? ⟨"cursor"⟩ = some ⟨⟨"body"⟩, 5, false⟩ :=
  ⟨_, _, _, _, rfl, rfl, rfl, rfl, rfl, rfl, rfl⟩

end Composite
end Coedit
