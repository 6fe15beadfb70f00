import Coedit.Proofs.Calculus
import Coedit.Proofs.Network.Basic

/-!
# The grid of concurrent operations

Operations of the server and of the client that were made from one state span a grid, each of whose cells
transforms one of the server's with one of the client's.  A queue that has the client's operations in flight fills
the grid row by row, as the server's arrive; the server, to which the client's are submitted, fills it column by
column.

* `passByRows_cons_right` — the first column of the grid may be filled before the rows;
* `rows_meet_columns` — both ways fail, or both give the same operations;
* `Server.accept_unacked` — what the server applies is what the client has in flight in the end.
-/

namespace Coedit

variable {ω τ : Type} [Operation ω τ]

/-- Passes each of the server's operations in turn by all of the client's. Gives the server's and the client's as
they apply after all of the others. -/
def passByRows : List ω → List ω → Except TransformFault (List ω × List ω)
  | [], clients => .ok ([], clients)
  | s :: servers, clients =>
    match passClients s clients with
    | (_, .error e) => .error e
    | (clients, .ok s) => (passByRows servers clients).map fun p => (s :: p.1, p.2)

/-- Passes each of the client's operations in turn by all of the server's. -/
def passByColumns (servers : List ω) : List ω → Except TransformFault (List ω × List ω)
  | [] => .ok (servers, [])
  | c :: clients =>
    match passServers c servers with
    | (_, .error e) => .error e
    | (servers, .ok c) => (passByColumns servers clients).map fun p => (p.1, c :: p.2)

variable {s s' c c' : ω} {ss ss' cs cs' : List ω}

/-! ## What succeeds -/

theorem passByRows_cons_eq_ok : passByRows (s :: ss) cs = .ok (ss', cs') ↔
    ∃ s₁ cs₁ ss₁, passClients s cs = (cs₁, .ok s₁) ∧ passByRows ss cs₁ = .ok (ss₁, cs') ∧ ss' = s₁ :: ss₁ := by
  rw [passByRows]
  cases passClients s cs with
  | mk cs₁ result =>
    cases result with
    | error e => simp
    | ok s₁ =>
      constructor
      · intro h
        obtain ⟨⟨ss₁, cs₂⟩, hr, he⟩ := map_eq_ok.1 h
        cases he
        exact ⟨s₁, cs₁, ss₁, rfl, hr, rfl⟩
      · rintro ⟨_, _, ss₁, hp, hr, rfl⟩
        cases hp
        exact map_eq_ok.2 ⟨_, hr, rfl⟩

theorem passByColumns_cons_eq_ok : passByColumns ss (c :: cs) = .ok (ss', cs') ↔
    ∃ c₁ ss₁ cs₁, passServers c ss = (ss₁, .ok c₁) ∧ passByColumns ss₁ cs = .ok (ss', cs₁) ∧ cs' = c₁ :: cs₁ := by
  rw [passByColumns]
  cases passServers c ss with
  | mk ss₁ result =>
    cases result with
    | error e => simp
    | ok c₁ =>
      constructor
      · intro h
        obtain ⟨⟨ss₂, cs₁⟩, hr, he⟩ := map_eq_ok.1 h
        cases he
        exact ⟨c₁, ss₁, cs₁, rfl, hr, rfl⟩
      · rintro ⟨_, _, cs₁, hp, hr, rfl⟩
        cases hp
        exact map_eq_ok.2 ⟨_, hr, rfl⟩

/-! ## The grid -/

theorem passByRows_nil (ss : List ω) : passByRows ss [] = .ok (ss, []) := by
  induction ss with
  | nil => rfl
  | cons s ss ih => exact passByRows_cons_eq_ok.2 ⟨s, [], ss, rfl, ih, rfl⟩

/-- The first column of the grid may be filled before the rows of the rest. -/
theorem passByRows_cons_right (ss : List ω) : ∀ {c : ω} {cs ss' cs' : List ω},
    passByRows ss (c :: cs) = .ok (ss', cs') ↔
      ∃ c₁ ss₁ cs₁, passServers c ss = (ss₁, .ok c₁) ∧ passByRows ss₁ cs = .ok (ss', cs₁) ∧ cs' = c₁ :: cs₁ := by
  induction ss with
  | nil =>
    intro c cs ss' cs'
    constructor
    · intro h
      cases h
      exact ⟨c, [], cs, rfl, rfl, rfl⟩
    · rintro ⟨_, _, _, hp, hr, rfl⟩
      cases hp
      cases hr
      rfl
  | cons s ss ih =>
    -- the corner cell comes first either way; what is left of the first row and of the first column do not touch
    intro c cs ss' cs'
    constructor
    · intro h
      obtain ⟨s₂, _, ss₂, hfirst, hothers, rfl⟩ := passByRows_cons_eq_ok.1 h
      obtain ⟨s₁, c₁, cs₁, ht, hrow, rfl⟩ := passClients_cons_eq_ok.1 hfirst
      obtain ⟨c₂, ss₁, cs₂, hcolumn, hrest, rfl⟩ := ih.1 hothers
      exact ⟨c₂, s₁ :: ss₁, cs₂, passServers_cons_eq_ok.2 ⟨s₁, c₁, ss₁, ht, hcolumn, rfl⟩,
        passByRows_cons_eq_ok.2 ⟨s₂, cs₁, ss₂, hrow, hrest, rfl⟩, rfl⟩
    · rintro ⟨c₂, _, cs₂, hfirst, hothers, rfl⟩
      obtain ⟨s₁, c₁, ss₁, ht, hcolumn, rfl⟩ := passServers_cons_eq_ok.1 hfirst
      obtain ⟨s₂, cs₁, ss₂, hrow, hrest, rfl⟩ := passByRows_cons_eq_ok.1 hothers
      exact passByRows_cons_eq_ok.2 ⟨s₂, c₁ :: cs₁, ss₂, passClients_cons_eq_ok.2 ⟨s₁, c₁, cs₁, ht, hrow, rfl⟩,
        ih.2 ⟨c₂, ss₁, cs₂, hcolumn, hrest, rfl⟩, rfl⟩

theorem passByRows_eq_ok_iff (cs : List ω) : ∀ {ss ss' cs' : List ω},
    passByRows ss cs = .ok (ss', cs') ↔ passByColumns ss cs = .ok (ss', cs') := by
  induction cs with
  | nil =>
    intro ss ss' cs'
    rw [passByRows_nil, passByColumns]
  | cons c cs ih =>
    intro ss ss' cs'
    rw [passByRows_cons_right, passByColumns_cons_eq_ok]
    simp only [ih]

/-- **Rows and columns meet.** Passing each of the server's operations by all of the client's and passing each of
the client's by all of the server's both fail, or both give the same operations of the server and the same of the
client. -/
theorem rows_meet_columns (servers clients : List ω) :
    (∃ e e', passByRows servers clients = .error e ∧ passByColumns servers clients = .error e') ∨
      ∃ servers' clients', passByRows servers clients = .ok (servers', clients') ∧
        passByColumns servers clients = .ok (servers', clients') := by
  cases hr : passByRows servers clients with
  | ok p => exact .inr ⟨p.1, p.2, rfl, (passByRows_eq_ok_iff clients).1 hr⟩
  | error e =>
    cases hc : passByColumns servers clients with
    | ok p => cases hr.symm.trans ((passByRows_eq_ok_iff clients).2 hc)
    | error e' => exact .inl ⟨e, e', rfl, rfl⟩

/-! ## The client and the server -/

namespace Queue

/-- Takes in operations of other sessions, in turn, under the next revisions. -/
def receiveAll : List ω → Queue ω → Except Fault (Queue ω)
  | [], q => .ok q
  | op :: ops, q =>
    match q.receive (q.revision + 1) op with
    | (.error e, _) => .error e
    | (.ok (), q) => receiveAll ops q

variable {q : Queue ω}

/-- With nothing queued an operation passes what is in flight. -/
theorem receive_of_passClients (he : q.expectedAcks = 0) (hq : q.queued = [])
    (hp : passClients s q.unacked = (cs', .ok s')) :
    q.receive (q.revision + 1) s =
      (.ok (), { q with revision := q.revision + 1, unacked := cs', serverOps := q.serverOps ++ [s'] }) := by
  unfold receive passQueued
  rw [if_neg (by simp [he])]
  simp only [checkNext, Revisions.arithmetic_exact, Arithmetic.wrap_exact, if_true, hp, hq, List.isEmpty_nil,
    deliverable]

/-- Taking in operations fills the grid row by row. -/
theorem receiveAll_of_passByRows (ss : List ω) : ∀ {q : Queue ω} {ss' cs' : List ω}, q.expectedAcks = 0 →
    q.queued = [] → passByRows ss q.unacked = .ok (ss', cs') →
      receiveAll ss q = .ok { q with
        revision := q.revision + ss.length, unacked := cs', serverOps := q.serverOps ++ ss' } := by
  induction ss with
  | nil =>
    intro q ss' cs' _ _ h
    cases h
    simp only [receiveAll, List.length_nil, Nat.add_zero, List.append_nil]
  | cons s ss ih =>
    intro q ss' cs' he hq h
    obtain ⟨s₁, cs₁, ss₁, hp, hr, rfl⟩ := passByRows_cons_eq_ok.1 h
    rw [receiveAll, receive_of_passClients he hq hp]
    dsimp only
    rw [ih (q := { q with
      revision := q.revision + 1, unacked := cs₁, serverOps := q.serverOps ++ [s₁] }) he hq hr]
    simp only [List.length_cons, List.append_assoc, List.singleton_append, Nat.add_assoc, Nat.add_comm 1]

end Queue

/-- Taking in a request fills the grid column by column. -/
theorem Server.accept_passByColumns (made : List Composite) : ∀ {s s' : Server} {concurrent applied : List Composite},
    s.accept concurrent made = .ok (s', applied) → ∃ passed, passByColumns concurrent made = .ok (passed, applied) := by
  induction made with
  | nil =>
    intro s s' concurrent applied h
    cases h
    exact ⟨concurrent, rfl⟩
  | cons op made ih =>
    intro s s' concurrent applied h
    rw [accept] at h
    split at h
    next => cases h
    next concurrent₁ op₁ hp =>
      split at h
      next => cases h
      next document hd =>
        obtain ⟨⟨s₁, applied₁⟩, hr, he⟩ := map_eq_ok.1 h
        cases he
        obtain ⟨passed, hc⟩ := ih hr
        exact ⟨passed, passByColumns_cons_eq_ok.2 ⟨op₁, concurrent₁, applied₁, hp, hc, rfl⟩⟩

/-- **The batch in flight becomes what the server applied.** A client that has a batch in flight, and takes in the
operations that the server passed it by, has in flight what the server applied. -/
theorem Server.accept_unacked {s s' : Server} {concurrent made applied : List Composite} {q : Queue Composite}
    (he : q.expectedAcks = 0) (hq : q.queued = []) (hu : q.unacked = made)
    (h : s.accept concurrent made = .ok (s', applied)) :
    ∃ q', Queue.receiveAll concurrent q = .ok q' ∧ q'.unacked = applied := by
  obtain ⟨passed, hc⟩ := accept_passByColumns made h
  have hr : passByRows concurrent q.unacked = .ok (passed, applied) := by
    rw [hu]
    exact (passByRows_eq_ok_iff made).2 hc
  exact ⟨_, Queue.receiveAll_of_passByRows concurrent he hq hr, rfl⟩

end Coedit
